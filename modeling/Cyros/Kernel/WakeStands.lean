import Cyros.Kernel.CoreRun
import Cyros.Kernel.WakeView

/-!
# A wake that stands

A wake of `t` passes, on the core of `t`, through the local call of `global_ready_thread` (`WakePlace`) or
through the intake.  Either way it first takes back the wish of `t` to block, and then makes `t` ready.

* `WakeStands` says that a wake of `t` is still to come: with `t` prepared, one that has not taken its
  wish back yet, and with `t` blocked, one that has not made it ready.  No step of the core but the
  thread's own next `prepare` undoes it (`WakeStands.next`).
* `Posted` says where a thread with a request is found.
-/

namespace Cyros.Kernel

/-- The threads of the chain the handler has taken and not met yet. -/
def HandlerPlace.chain {Tid : Type} : HandlerPlace Tid → List Tid
  | .draining chain | .servicing _ chain => chain
  | _ => []

namespace Core

open Cyros.Lib Cyros.Lib.IntrusiveQueue

variable {Tid : Type}

/-- A wake, of an interrupt or of a thread that may not be running, stands at `w`. -/
def WakeAt (k : Core Tid) (w : WakePlace Tid) : Prop := w ∈ k.irqs ∨ ∃ c, k.place c = w

/-- A local wake of `t` that has not taken its wish to block back. -/
def Clearing (k : Core Tid) (t : Tid) : Prop := ∃ policy, k.WakeAt (.clear t policy)

/-- A wake of `t` that has, and has not made it ready. -/
def Late (k : Core Tid) (t : Tid) : Prop :=
  (∃ policy, k.WakeAt (.look t policy) ∨ k.WakeAt (.ready t policy)) ∨
    ∃ chain, k.handler = .servicing t chain

/-- **A wake of the thread is still to come**: before the thread parks, one that will take its wish back,
and after, one that will make it ready. -/
structure WakeStands (k : Core Tid) (t : Tid) : Prop where
  prepared : k.sched.disposition t = .prepared → k.Clearing t ∨ k.sched.pending t = true
  blocked : k.sched.state t = .blocked → (k.Clearing t ∨ k.sched.pending t = true) ∨ k.Late t

/-- A thread with a request is on its core's intake, being pushed onto it, or being drained from it. -/
def Posted (k : Core Tid) : Prop :=
  ∀ t, k.sched.pending t = true → t ∈ k.posting ∨ t ∈ k.sched.intake ∨ t ∈ k.handler.chain

variable {k k' : Core Tid} {t : Tid}

theorem WakeStands.of_clearing (h : k.Clearing t) : WakeStands k t :=
  ⟨fun _ => Or.inl h, fun _ => Or.inl (Or.inl h)⟩

theorem WakeStands.of_pending (h : k.sched.pending t = true) : WakeStands k t :=
  ⟨fun _ => Or.inr h, fun _ => Or.inl (Or.inr h)⟩

/-- A step of the scheduler, with what becomes of the wakes under way. -/
theorem WakeStands.of_eases {parking : Option Tid} (h : WakeStands k t) (hlive : k.sched.Live t)
    (he : Sched.Eases parking k.sched k'.sched)
    (hpark : parking = some t → k.sched.disposition t = .prepared)
    (hclear : k.Clearing t → k'.Clearing t ∨ (k'.sched.disposition t ≠ .prepared ∧ k'.Late t))
    (hlate : k'.sched.state t = .blocked → k.Late t → k'.Late t) : WakeStands k' t := by
  -- the wakes that have not taken the wish back, after the step
  have hunspent : k.Clearing t ∨ k.sched.pending t = true →
      (k'.Clearing t ∨ k'.sched.pending t = true) ∨
        k'.sched.disposition t ≠ .prepared ∧ (k'.sched.state t = .blocked → k'.Late t) := by
    rintro (hc | hp)
    · rcases hclear hc with hc' | ⟨hd, hl⟩
      · exact Or.inl (Or.inl hc')
      · exact Or.inr ⟨hd, fun _ => hl⟩
    · rcases he.pending t hlive with heq | ⟨hb, hd⟩
      · exact Or.inl (Or.inr (heq.trans hp))
      · exact Or.inr ⟨hd, fun hb' => absurd hb' hb⟩
  refine ⟨fun hd => ?_, fun hb => ?_⟩
  · rcases hunspent (h.prepared (he.prepared t hd)) with hu | ⟨hne, -⟩
    · exact hu
    · exact absurd hd hne
  · have hbefore : (k.Clearing t ∨ k.sched.pending t = true) ∨ k.Late t := by
      rcases he.blocked t hb with hb₀ | hp
      · exact h.blocked hb₀
      · exact Or.inl (h.prepared (hpark hp))
    rcases hbefore with hu | hl
    · rcases hunspent hu with hu' | ⟨-, hl⟩
      · exact Or.inl hu'
      · exact Or.inr (hl hb)
    · exact Or.inr (hlate hb hl)

/-- The wakes under way, where every place but an idle one is kept. -/
theorem Clearing.of_places (hat : ∀ w, w ≠ .idle → k.WakeAt w → k'.WakeAt w) (h : k.Clearing t) : k'.Clearing t := by
  obtain ⟨policy, hw⟩ := h
  exact ⟨policy, hat _ (by simp) hw⟩

theorem Late.of_places (hat : ∀ w, w ≠ .idle → k.WakeAt w → k'.WakeAt w)
    (hhandler : ∀ chain, k.handler = .servicing t chain → ∃ chain, k'.handler = .servicing t chain)
    (h : k.Late t) : k'.Late t := by
  rcases h with ⟨policy, hw⟩ | ⟨chain, hs⟩
  · exact Or.inl ⟨policy, hw.imp (hat _ (by simp)) (hat _ (by simp))⟩
  · exact Or.inr (hhandler chain hs)

/-- The wakes under way where neither an interrupt nor a thread moves. -/
theorem wakeAt_of_eq (hirqs : k'.irqs = k.irqs) (hplace : k'.place = k.place) (w : WakePlace Tid) (_ : w ≠ .idle)
    (hw : k.WakeAt w) : k'.WakeAt w := by
  unfold WakeAt
  rwa [hirqs, hplace]

theorem wakeAt_irqEnter (k : Core Tid) (w : WakePlace Tid) (_ : w ≠ .idle) (hw : k.WakeAt w) :
    ({ k with irqs := .idle :: k.irqs } : Core Tid).WakeAt w :=
  hw.imp_left (List.mem_cons_of_mem _)

theorem wakeAt_irqReturn {ws : List (WakePlace Tid)} (hirqs : k.irqs = .idle :: ws) (w : WakePlace Tid) (hne : w ≠ .idle)
    (hw : k.WakeAt w) : ({ k with irqs := ws } : Core Tid).WakeAt w := by
  unfold WakeAt at hw ⊢
  rw [hirqs, List.mem_cons] at hw
  exact hw.imp_left fun hmem => hmem.resolve_left hne

/-- A step that moves no wake. -/
theorem WakeStands.same {parking : Option Tid} (h : WakeStands k t) (hlive : k.sched.Live t)
    (he : Sched.Eases parking k.sched k'.sched)
    (hpark : parking = some t → k.sched.disposition t = .prepared)
    (hat : ∀ w, w ≠ .idle → k.WakeAt w → k'.WakeAt w)
    (hhandler : ∀ chain, k.handler = .servicing t chain → k'.sched.state t = .blocked →
      ∃ chain, k'.handler = .servicing t chain) : WakeStands k' t :=
  h.of_eases hlive he hpark (fun hc => Or.inl (hc.of_places hat)) fun hb =>
    Late.of_places hat fun chain hs => hhandler chain hs hb

theorem WakeStands.congr (h : WakeStands k t) (hdisp : k'.sched.disposition t = k.sched.disposition t)
    (hstate : k'.sched.state t = k.sched.state t)
    (hpending : k.sched.pending t = true → k'.sched.pending t = true) (hirqs : k'.irqs = k.irqs)
    (hplace : k'.place = k.place)
    (hhandler : ∀ chain, k.handler = .servicing t chain → k'.handler = .servicing t chain) :
    WakeStands k' t := by
  have hat := wakeAt_of_eq hirqs hplace
  have hunspent : k.Clearing t ∨ k.sched.pending t = true → k'.Clearing t ∨ k'.sched.pending t = true :=
    Or.imp (Clearing.of_places hat) hpending
  refine ⟨fun hd => hunspent (h.prepared (hdisp ▸ hd)), fun hb => (h.blocked (hstate ▸ hb)).imp hunspent ?_⟩
  exact Late.of_places hat fun chain hs => ⟨chain, hhandler chain hs⟩

variable [DecidableEq Tid]

/-- The executing context's wake moves, and no other. -/
theorem wakeAt_moveTo {old w w' : WakePlace Tid} (hexec : k.executing = some old) (hw : k.WakeAt w)
    (hne : w ≠ old) : (k.moveTo w').WakeAt w := by
  unfold executing at hexec
  unfold moveTo
  cases hirqs : k.irqs with
  | cons u us =>
      rw [hirqs] at hexec
      obtain rfl : u = old := Option.some.inj hexec
      rcases hw with hmem | ⟨c, hc⟩
      · rw [hirqs, List.mem_cons] at hmem
        exact Or.inl (List.mem_cons_of_mem _ (hmem.resolve_left hne))
      · exact Or.inr ⟨c, hc⟩
  | nil =>
      rw [hirqs] at hexec
      simp only at hexec
      split at hexec
      · split at hexec
        · next c hcur =>
          split at hexec
          · cases hexec
          · have hold : k.place c = old := Option.some.inj hexec
            rcases hw with hmem | ⟨d, hd⟩
            · rw [hirqs] at hmem
              cases hmem
            · have hdc : d ≠ c := fun heq => hne (by rw [← hd, heq, hold])
              exact Or.inr ⟨d, by simpa [hdc] using hd⟩
        · cases hexec
      · cases hexec

theorem moveTo_eases (k : Core Tid) (w : WakePlace Tid) : Sched.Eases none k.sched (k.moveTo w).sched := by
  rw [moveTo_sched]
  exact Sched.Eases.refl _

theorem wakeAt_moveTo_self {old w : WakePlace Tid} (hexec : k.executing = some old) :
    (k.moveTo w).WakeAt w := by
  unfold executing at hexec
  unfold moveTo
  cases hirqs : k.irqs with
  | cons u us => exact Or.inl List.mem_cons_self
  | nil =>
      rw [hirqs] at hexec
      simp only at hexec
      split at hexec
      · split at hexec
        · next c hcur => exact Or.inr ⟨c, by simp⟩
        · cases hexec
      · cases hexec

/-- The wakes that a move of the executing context leaves alone. -/
theorem clearing_moveTo {old w : WakePlace Tid} (hexec : k.executing = some old) (hold : ∀ policy, .clear t policy ≠ old)
    (h : k.Clearing t) : (k.moveTo w).Clearing t := by
  obtain ⟨policy, hw⟩ := h
  exact ⟨policy, wakeAt_moveTo hexec hw (hold policy)⟩

theorem late_moveTo {old w : WakePlace Tid} (hexec : k.executing = some old)
    (hlook : ∀ policy, .look t policy ≠ old) (hready : ∀ policy, .ready t policy ≠ old)
    (h : k.Late t) : (k.moveTo w).Late t := by
  rcases h with ⟨policy, hw⟩ | ⟨chain, hs⟩
  · exact Or.inl ⟨policy, hw.imp (wakeAt_moveTo hexec · (hlook policy)) (wakeAt_moveTo hexec · (hready policy))⟩
  · exact Or.inr ⟨chain, by rwa [moveTo_handler]⟩

variable [Fintype Tid]

theorem setThreadReady_eases {s : Sched Tid} {c x : Tid} (hc : s.Consistent c) (fold : Tid → ℕ)
    (policy : Policy) (road : Road) : Sched.Eases none s (setThreadReady s fold x policy road) ∧
      (s.Live x → (setThreadReady s fold x policy road).state x ≠ .blocked) := by
  obtain ⟨htidy, hw⟩ := hc.tidy.makeReady fold x
  have he := Sched.makeReady_eases hc.tidy fold x
  have hready : s.Live x → (s.makeReady fold x).1.state x ≠ .blocked := by
    intro hl
    rw [Sched.makeReady_state hc.tidy fold hl]
    decide
  unfold Core.setThreadReady
  dsimp only
  split
  · have hdec : Sched.Eases none (s.makeReady fold x).1 ((s.makeReady fold x).1.decide fold .preempted) :=
      Sched.decide_eases (hc.woken htidy hw) fold .preempted (by decide) (by simp)
    exact ⟨he.trans_none hdec, fun hl hb => hready hl ((hdec.blocked x hb).resolve_right (by simp))⟩
  · exact ⟨he, hready⟩

/-- The running thread, prepared, parks. -/
theorem Inv.park_eases {c : Tid} (hi : Inv False k) (hrun : k.runningThread = some c)
    (hidle : c ≠ k.sched.idleThread) (hprep : k.sched.disposition c = .prepared) (fold : Tid → ℕ) :
    Sched.Eases (some c) k.sched (k.sched.decide fold .parked) := by
  have hc := (hi.running hrun).2.2
  refine Sched.decide_eases hc.toConsistent fold .parked (by decide) fun _ => ⟨hidle, ?_, by simp [hprep]⟩
  rcases hc.live with hs | hs <;> simp [hs]

theorem Inv.yield_eases {c : Tid} (hi : Inv False k) (hrun : k.runningThread = some c) (fold : Tid → ℕ) :
    Sched.Eases none k.sched (k.sched.decide fold .yielded) :=
  Sched.decide_eases (hi.running hrun).2.2.toConsistent fold .yielded (by decide) (by simp)

omit [Fintype Tid] in
/-- The bits of the thread that the handler meets are taken: its wake is then late, and the others are as
they were. -/
theorem WakeStands.service {x : Tid} {chain : List Tid} (hlive : k.sched.Live t)
    (hh : k.handler = .draining (x :: chain)) :
    ((k.sched.takeRequests x).revokePrepared x).Live t ∧ (WakeStands k t →
      WakeStands { k with handler := .servicing x chain, sched := (k.sched.takeRequests x).revokePrepared x } t) := by
  by_cases hx : t = x
  · subst hx
    have hd : (k.sched.takeRequests t).disposition t ≠ .terminating := hlive.2
    have hrevoke : (k.sched.takeRequests t).revokePrepared t =
        (k.sched.takeRequests t).setDisposition t .none := if_neg hd
    simp only [hrevoke]
    refine ⟨⟨hlive.1, by simp [Sched.setDisposition]⟩, fun _ => ⟨fun hp => ?_, fun _ => ?_⟩⟩
    · simp [Sched.setDisposition] at hp
    · exact Or.inr (Or.inr ⟨chain, rfl⟩)
  · have hsame : ((k.sched.takeRequests x).revokePrepared x).disposition t = k.sched.disposition t ∧
        ((k.sched.takeRequests x).revokePrepared x).state t = k.sched.state t ∧
        ((k.sched.takeRequests x).revokePrepared x).pending t = (k.sched.takeRequests x).pending t := by
      unfold Sched.revokePrepared
      split
      · exact ⟨rfl, rfl, rfl⟩
      · exact ⟨Function.update_of_ne hx _ _, rfl, rfl⟩
    refine ⟨⟨by rw [hsame.2.1]; exact hlive.1, by rw [hsame.1]; exact hlive.2⟩, fun hw => ?_⟩
    refine hw.congr hsame.1 hsame.2.1 (fun hp => hsame.2.2.trans ?_) rfl rfl fun chain' hs => by simp [hh] at hs
    simpa [Sched.takeRequests, hx] using hp

/-- **A wake that stands keeps standing**: no step of the core spends it on a thread that then blocks. -/
theorem WakeStands.next {act : CoreAct Tid} (hi : Inv False k) (hlive : k.sched.Live t)
    (hown : act = .prepare ∨ act = .threadExit → k.runningThread ≠ some t)
    (h : k.next act = some k') : k'.sched.Live t ∧ (WakeStands k t → WakeStands k' t) := by
  obtain ⟨c, hc⟩ := hi.phase
  have hrefl := Sched.Eases.refl k.sched
  cases effect_of_next h with
  | refused | unparked | claimed => exact ⟨hlive, id⟩
  | irqEnter =>
      exact ⟨hlive, fun hw => hw.same hlive hrefl (by simp) (wakeAt_irqEnter k) fun chain hs _ => ⟨chain, hs⟩⟩
  | irqReturn hirqs =>
      exact ⟨hlive, fun hw => hw.same hlive hrefl (by simp) (wakeAt_irqReturn hirqs) fun chain hs _ => ⟨chain, hs⟩⟩
  | @wake x policy hexec =>
      have he := moveTo_eases k (.clear x policy)
      refine ⟨he.live t hlive, fun hw => hw.of_eases hlive he (by simp) ?_ fun _ => ?_⟩
      · exact fun hw => Or.inl (clearing_moveTo hexec (by simp) hw)
      · exact late_moveTo hexec (by simp) (by simp)
  | @clear x policy hexec =>
      have hexec' : ({ k with sched := k.sched.setDisposition x .none } : Core Tid).executing =
          some (.clear x policy) := hexec
      have he := (Sched.setDisposition_eases k.sched x).trans_none
        (moveTo_eases { k with sched := k.sched.setDisposition x .none } (.look x policy))
      refine ⟨he.live t hlive, fun hw => hw.of_eases hlive he (by simp) (fun hat => ?_) fun _ => ?_⟩
      · by_cases hx : x = t
        · subst hx
          refine Or.inr ⟨?_, Or.inl ⟨policy, Or.inl (wakeAt_moveTo_self hexec')⟩⟩
          simp [Sched.setDisposition]
        · exact Or.inl (clearing_moveTo hexec' (by simp [Ne.symm hx]) hat)
      · exact late_moveTo hexec' (by simp) (by simp)
  | @look x policy hexec =>
      have he := moveTo_eases k (if k.sched.state x = .running then .idle else .ready x policy)
      refine ⟨he.live t hlive, fun hw => hw.of_eases hlive he (by simp) ?_ fun hb hl => ?_⟩
      · exact fun hw => Or.inl (clearing_moveTo hexec (by simp) hw)
      · rw [moveTo_sched] at hb
        by_cases hx : x = t
        · subst hx
          rw [if_neg (by simp [hb])]
          exact Or.inl ⟨policy, Or.inr (wakeAt_moveTo_self hexec)⟩
        · exact late_moveTo hexec (by simp [Ne.symm hx]) (by simp) hl
  | @ready fold road x policy hexec =>
      obtain ⟨he, hready⟩ := setThreadReady_eases (x := x) hc.toConsistent fold policy road
      refine ⟨he.live t hlive, fun hw => hw.of_eases hlive he (by simp) ?_ fun hb => ?_⟩
      · exact fun hw => Or.inl (clearing_moveTo hexec (by simp) hw)
      · have hxt : t ≠ x := by
          rintro rfl
          exact hready hlive hb
        exact late_moveTo hexec (by simp) (by simp [hxt])
  | @prepare c' hrun | @exit c' hrun =>
      have hct : t ≠ c' := fun heq => hown (by simp) (by rw [hrun, heq])
      have hdisp : ∀ d, (k.sched.setDisposition c' d).disposition t = k.sched.disposition t :=
        fun d => Function.update_of_ne hct _ _
      refine ⟨⟨hlive.1, by simpa only [hdisp] using hlive.2⟩, fun hw => ?_⟩
      exact hw.congr (hdisp _) rfl id rfl rfl fun _ => id
  | @unprepare c' =>
      have he := Sched.setDisposition_eases k.sched c'
      exact ⟨he.live t hlive, fun hw => hw.same hlive he (by simp) (wakeAt_of_eq rfl rfl) fun chain hs _ => ⟨chain, hs⟩⟩
  | @park fold c' hrun hidle hprep =>
      have he := hi.park_eases hrun hidle hprep fold
      refine ⟨he.live t hlive, fun hw => hw.same hlive he (fun hp => ?_) (wakeAt_of_eq rfl rfl) ?_⟩
      · cases hp
        exact hprep
      · exact fun chain hs => by simp [(hi.running hrun).2.1] at hs
  | @yield fold c' hrun =>
      have he := hi.yield_eases hrun fold
      refine ⟨he.live t hlive, fun hw => hw.same hlive he (by simp) (wakeAt_of_eq rfl rfl) ?_⟩
      exact fun chain hs => by simp [(hi.running hrun).2.1] at hs
  | hold | push | file => exact ⟨hlive, fun hw => hw.congr rfl rfl id rfl rfl fun _ => id⟩
  | take _ hh | enter _ hh | prev _ hh | switch _ hh =>
      exact ⟨hlive, fun hw => hw.congr rfl rfl id rfl rfl fun chain hs => by simp [hh] at hs⟩
  | service _ hh => exact WakeStands.service hlive hh
  | @skip x _ _ hh hpending =>
      refine ⟨hlive, fun hw => hw.congr rfl rfl (fun hp => ?_) rfl rfl fun chain' hs => by simp [hh] at hs⟩
      have hx : t ≠ x := by
        rintro rfl
        simp [hp] at hpending
      simpa [Sched.takeRequests, hx] using hp
  | @serviced fold x chain _ hh =>
      have he := Sched.makeReady_eases hc.tidy fold x
      refine ⟨he.live t hlive, fun hw => hw.same hlive he (by simp) (wakeAt_of_eq rfl rfl) fun chain' hs hb => ?_⟩
      obtain ⟨rfl, -⟩ : x = t ∧ chain = chain' := by simpa [hh] using hs
      simp only [Sched.makeReady_state hc.tidy fold hlive] at hb
      cases hb
  | guard _ hh hs =>
      obtain ⟨hcons, hidle⟩ := hi.guarded hh
      have he := Sched.rescheduleGuarded_eases hcons hidle hs
      refine ⟨he.live t hlive, fun hw => hw.same hlive he (by simp) (wakeAt_of_eq rfl rfl) ?_⟩
      exact fun chain hs => by simp [hh] at hs
  | @claim x =>
      refine ⟨hlive, fun hw => hw.congr rfl rfl (fun hp => ?_) rfl rfl fun _ => id⟩
      by_cases hx : t = x
      · simp [hx]
      · simpa [hx] using hp

/-! ### The intake -/

/-- A local call of `global_ready_thread` for a live thread. -/
theorem clearing_wake {policy : Policy} (hlive : k.sched.Live t)
    (h : k.next (.wake t policy) = some k') : k'.Clearing t := by
  cases effect_of_next h with
  | refused _ hdone => exact absurd hdone (not_or.2 hlive)
  | wake hexec => exact ⟨policy, wakeAt_moveTo_self hexec⟩

/-- A call from another core. -/
theorem pending_remoteClaim (h : k.next (.remoteClaim t) = some k') : k'.sched.pending t = true := by
  cases effect_of_next h with
  | claimed hp => exact hp
  | claim => simp

omit [DecidableEq Tid] [Fintype Tid] in
theorem Posted.of_posted (hp : Posted k)
    (hpend : ∀ t, k'.sched.pending t = true →
      k.sched.pending t = true ∧ (t ∈ k.sched.intake → t ∈ k'.sched.intake))
    (hposting : k'.posting = k.posting) (hchain : k'.handler.chain = k.handler.chain) : Posted k' := by
  intro t ht
  obtain ⟨hbefore, hintake⟩ := hpend t ht
  rw [hposting, hchain]
  exact (hp t hbefore).imp_right (Or.imp_left hintake)

omit [Fintype Tid] in
theorem moveTo_posting (k : Core Tid) (w : WakePlace Tid) : (k.moveTo w).posting = k.posting := by
  unfold moveTo
  split
  · rfl
  · split <;> rfl

omit [Fintype Tid] in
/-- The thread met has no request left, and the others are where they were. -/
theorem Posted.takeRequests {x : Tid} {chain : List Tid} (hp : Posted k) (hh : k.handler = .draining (x :: chain))
    (ht : (k.sched.takeRequests x).pending t = true) : t ∈ k.posting ∨ t ∈ k.sched.intake ∨ t ∈ chain := by
  simp only [Sched.takeRequests, Function.update_apply] at ht
  split at ht
  · cases ht
  · next hx => simpa [hh, HandlerPlace.chain, hx] using hp t ht

/-- **A request is never without its thread on the way through the intake.** -/
theorem Posted.next {act : CoreAct Tid} (hi : Inv False k) (hp : Posted k) (h : k.next act = some k') :
    Posted k' := by
  obtain ⟨c, hc⟩ := hi.phase
  cases effect_of_next h with
  | refused | unparked | claimed | irqEnter | irqReturn | prepare | unprepare | exit | hold | file => exact hp
  | wake | clear | look =>
      exact hp.of_posted (by rw [moveTo_sched]; exact fun _ ht => ⟨ht, id⟩) (moveTo_posting _ _) (by rw [moveTo_handler])
  | @ready fold road x policy =>
      obtain ⟨he, -⟩ := setThreadReady_eases (x := x) hc.toConsistent fold policy road
      exact hp.of_posted he.posted (moveTo_posting _ _) (by simp)
  | park hrun hidle hprep => exact hp.of_posted (hi.park_eases hrun hidle hprep _).posted rfl rfl
  | yield hrun => exact hp.of_posted (hi.yield_eases hrun _).posted rfl rfl
  | enter _ hh | prev _ hh | switch _ hh =>
      exact hp.of_posted (fun _ ht => ⟨ht, id⟩) rfl (by simp [hh, HandlerPlace.chain])
  | take _ hh =>
      intro t ht
      rcases hp t ht with hpost | hint | hchain
      · exact Or.inl hpost
      · exact Or.inr (Or.inr (List.mem_reverse.mpr hint))
      · simp [hh, HandlerPlace.chain] at hchain
  | @service x chain _ hh =>
      have hrevoke : ((k.sched.takeRequests x).revokePrepared x).pending = (k.sched.takeRequests x).pending ∧
          ((k.sched.takeRequests x).revokePrepared x).intake = k.sched.intake := by
        unfold Sched.revokePrepared
        split <;> exact ⟨rfl, rfl⟩
      intro t ht
      simp only [hrevoke.1] at ht
      simpa only [hrevoke.2, HandlerPlace.chain] using hp.takeRequests hh ht
  | skip _ hh => exact fun t ht => hp.takeRequests hh ht
  | @serviced fold x chain _ hh =>
      exact hp.of_posted (Sched.makeReady_eases hc.tidy fold x).posted rfl (by simp [hh, HandlerPlace.chain])
  | guard _ hh hs =>
      obtain ⟨hcons, hidle⟩ := hi.guarded hh
      exact hp.of_posted (Sched.rescheduleGuarded_eases hcons hidle hs).posted rfl (by simp [hh, HandlerPlace.chain])
  | @claim x =>
      intro t ht
      by_cases hx : t = x
      · exact Or.inl (by simp [hx])
      · have hbefore : k.sched.pending t = true := by simpa [hx] using ht
        exact (hp t hbefore).imp_left (List.mem_cons_of_mem x)
  | @push x =>
      intro t ht
      by_cases hx : t = x
      · exact Or.inr (Or.inl (by simp [hx]))
      · exact (hp t ht).imp (List.mem_erase_of_ne hx).mpr (Or.imp_left (List.mem_cons_of_mem x))

theorem posted_boot (idle : Tid) (basePriority : Tid → Level) (threads : List Tid) :
    Posted (boot idle basePriority threads) := by
  intro t ht
  have hno := Sched.pending_boot idle basePriority threads t
  exact absurd (hno.symm.trans ht) Bool.false_ne_true

end Core

end Cyros.Kernel
