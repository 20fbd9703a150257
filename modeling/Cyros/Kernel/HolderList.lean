import Cyros.Kernel.HolderView
import Cyros.Kernel.WakeStands

/-!
# The holder list along a run

A holder gets into the matrix in one way only, when another core hands it a mutex while it is filed there.

* `keeps_next`: no step of the core hides a holder but the hand-over itself, and while it is hidden a wake
  of it that was under way still is.
* `not_hidden_of_delivers`: the wake finds it and moves it to the holder list.
* `listed_hold`: on the holder list are holders only.
-/

namespace Cyros.Kernel.Core

open Cyros.Lib Cyros.Lib.IntrusiveQueue Sched

variable {Tid : Type} [DecidableEq Tid] {k k' : Core Tid} {t : Tid}

/-- A step after which `t` is hidden: it was before, and every wake of it that was under way still is. -/
structure Keeps (k k' : Core Tid) (t : Tid) : Prop where
  hidden : k.sched.Hidden t
  live : k.sched.Live t → k'.sched.Live t
  clearing : k.Clearing t → k'.Clearing t ∨ k'.Late t
  pending : k.sched.Live t → k.sched.pending t = true →
    k'.sched.pending t = true ∨ ∃ chain, k'.handler = .servicing t chain
  late : k.sched.Live t → k.Late t → k'.Late t

theorem keeps_of_spares (hs : Spares k.sched k'.sched) (hh : k'.sched.Hidden t)
    (hclear : k.Clearing t → k'.Clearing t ∨ k'.Late t)
    (hlate : k.sched.Live t → k.Late t → k'.Late t) : Keeps k k' t := by
  refine ⟨hs.hidden hh, hs.live t, hclear, fun hl hp => ?_, hlate⟩
  rcases hs.pending t hl with heq | hnot
  · exact Or.inl (heq.trans hp)
  · exact absurd hh hnot

/-- A step that ends no wake. -/
theorem keeps_of_places (hs : Spares k.sched k'.sched) (hh : k'.sched.Hidden t)
    (hat : ∀ w, w ≠ .idle → k.WakeAt w → k'.WakeAt w)
    (hhandler : ∀ chain, k.handler = .servicing t chain → k.sched.Live t →
      ∃ chain, k'.handler = .servicing t chain) : Keeps k k' t :=
  keeps_of_spares hs hh (fun hc => Or.inl (hc.of_places hat)) fun hl =>
    Late.of_places hat fun chain hsv => hhandler chain hsv hl

/-- A step that moves no wake. -/
theorem keeps_of_same (hs : Spares k.sched k'.sched) (hh : k'.sched.Hidden t) (hirqs : k'.irqs = k.irqs)
    (hplace : k'.place = k.place)
    (hhandler : ∀ chain, k.handler = .servicing t chain → k.sched.Live t →
      ∃ chain, k'.handler = .servicing t chain) : Keeps k k' t :=
  keeps_of_places hs hh (wakeAt_of_eq hirqs hplace) hhandler

/-- A hidden thread is ready, so it is not the one that runs. -/
theorem ne_current_of_hidden {c : Tid} (hs : k.sched.Settled c) (hh : k.sched.isEnqueued t = true) : t ≠ c := by
  rintro rfl
  have hready := (hs.tidy.ready_of_enqueued hh).1
  rw [hs.running] at hready
  cases hready

/-- The bits of the thread met are taken, and every other thread keeps its own. -/
theorem keeps_of_bits {x : Tid} {chain : List Tid} {s : Sched Tid} {place : HandlerPlace Tid}
    (hh : k.handler = .draining (x :: chain)) (hnext : s.next = k.sched.next) (hheld : s.heldMask = k.sched.heldMask)
    (hpending : s.pending = (k.sched.takeRequests x).pending) (hlive : k.sched.Live t → s.Live t)
    (hplace : x = t → k.sched.pending t = true → ∃ chain, place = .servicing t chain) (hidden : s.Hidden t) :
    Keeps k { k with handler := place, sched := s } t := by
  refine ⟨?_, hlive, Or.inl, fun _ hp => ?_, fun _ hl => hl.imp_right ?_⟩
  · unfold Hidden isEnqueued at hidden
    rwa [hnext, hheld] at hidden
  · by_cases hx : x = t
    · exact Or.inr (hplace hx hp)
    · refine Or.inl ?_
      simp only [hpending]
      simpa [Sched.takeRequests, Ne.symm hx] using hp
  · simp [hh]

variable [Fintype Tid]

theorem spares_setThreadReady {s : Sched Tid} {c x : Tid} (hc : s.Consistent c) (fold : Tid → ℕ)
    (policy : Policy) (road : Road) : Spares s (setThreadReady s fold x policy road) ∧
      (s.Live x → ¬ (setThreadReady s fold x policy road).Hidden x) := by
  obtain ⟨htidy, hw⟩ := hc.tidy.makeReady fold x
  obtain ⟨hready, hdelivered⟩ := hc.tidy.spares_makeReady fold x
  unfold Core.setThreadReady
  dsimp only
  split
  · have hdec := (hc.woken htidy hw).spares_decide fold .preempted (by decide) (by simp)
    exact ⟨hready.trans hdec, fun hl hh => hdelivered hl (hdec.hidden hh)⟩
  · exact ⟨hready, hdelivered⟩

/-- **No step of the core hides a holder but a hand-over**, and none loses a wake on its way to one. -/
theorem keeps_next {act : CoreAct Tid} (hi : Inv True k) (hfile : ∀ mask, act ≠ .remoteFile t mask)
    (h : k.next act = some k') (hh : k'.sched.Hidden t) : Keeps k k' t := by
  obtain ⟨c, hc⟩ := hi.phase
  -- the running thread is not filed
  have hother : ∀ c', k.runningThread = some c' → k.sched.isEnqueued t = true → t ≠ c' := by
    intro c' hrun
    obtain ⟨-, hidle, hc'⟩ := hi.running hrun
    exact ne_current_of_hidden ⟨hc'.toConsistent, hc'.settled trivial (Or.inl hidle)⟩
  cases effect_of_next h with
  | refused | unparked | claimed => exact keeps_of_same (Spares.refl _) hh rfl rfl fun chain hs _ => ⟨chain, hs⟩
  | irqEnter => exact keeps_of_places (Spares.refl _) hh (wakeAt_irqEnter k) fun chain hs _ => ⟨chain, hs⟩
  | irqReturn hirqs => exact keeps_of_places (Spares.refl _) hh (wakeAt_irqReturn hirqs) fun chain hs _ => ⟨chain, hs⟩
  | wake hexec =>
      refine keeps_of_spares (by rw [moveTo_sched]; exact Spares.refl _) hh ?_ fun _ => ?_
      · exact fun hw => Or.inl (clearing_moveTo hexec (by simp) hw)
      · exact late_moveTo hexec (by simp) (by simp)
  | @clear x policy hexec =>
      have hexec' : ({ k with sched := k.sched.setDisposition x .none } : Core Tid).executing =
          some (.clear x policy) := hexec
      refine keeps_of_spares (by rw [moveTo_sched]; exact spares_setDisposition _ _) hh (fun hat => ?_) fun _ => ?_
      · by_cases hx : x = t
        · subst hx
          exact Or.inr (Or.inl ⟨policy, Or.inl (wakeAt_moveTo_self hexec')⟩)
        · exact Or.inl (clearing_moveTo hexec' (by simp [Ne.symm hx]) hat)
      · exact late_moveTo hexec' (by simp) (by simp)
  | @look x policy hexec =>
      rw [moveTo_sched] at hh
      refine keeps_of_spares (by rw [moveTo_sched]; exact Spares.refl _) (by rwa [moveTo_sched]) ?_ fun _ hl => ?_
      · exact fun hw => Or.inl (clearing_moveTo hexec (by simp) hw)
      by_cases hx : x = t
      · -- a hidden thread is ready, so the look does not end the wake
        subst hx
        have hready := (hc.tidy.ready_of_enqueued hh.1).1
        rw [if_neg (by rw [hready]; decide)]
        exact Or.inl ⟨policy, Or.inr (wakeAt_moveTo_self hexec)⟩
      · exact late_moveTo hexec (by simp [Ne.symm hx]) (by simp) hl
  | @ready fold road x policy hexec =>
      obtain ⟨hs, hdelivered⟩ := spares_setThreadReady (x := x) hc.toConsistent fold policy road
      refine keeps_of_spares hs hh (fun hw => Or.inl (clearing_moveTo hexec (by simp) hw)) fun hlive => ?_
      have hxt : t ≠ x := by
        rintro rfl
        exact hdelivered hlive hh
      exact late_moveTo hexec (by simp) (by simp [hxt])
  | @prepare c' hrun | @exit c' hrun =>
      have hct : t ≠ c' := hother c' hrun hh.1
      have hdisp : ∀ d, (k.sched.setDisposition c' d).disposition t = k.sched.disposition t :=
        fun d => Function.update_of_ne hct _ _
      exact ⟨hh, fun hl => ⟨hl.1, by simpa only [hdisp] using hl.2⟩, Or.inl, fun _ => Or.inl, fun _ => id⟩
  | unprepare => exact keeps_of_same (spares_setDisposition _ _) hh rfl rfl fun chain hs _ => ⟨chain, hs⟩
  | @park fold c' hrun hidle hprep =>
      obtain ⟨-, hhandler, hc'⟩ := hi.running hrun
      have hspares := hc'.toConsistent.spares_decide fold .parked (by decide) fun _ => ⟨hidle, by simp [hprep]⟩
      exact keeps_of_same hspares hh rfl rfl fun chain hs => by simp [hhandler] at hs
  | @yield fold c' hrun =>
      obtain ⟨-, hhandler, hc'⟩ := hi.running hrun
      have hspares := hc'.toConsistent.spares_decide fold .yielded (by decide) (by simp)
      exact keeps_of_same hspares hh rfl rfl fun chain hs => by simp [hhandler] at hs
  | @hold c' mask hrun =>
      have hct : t ≠ c' := hother c' hrun hh.1
      obtain ⟨henq, hheld⟩ := hh
      simp only [Function.update_of_ne hct] at hheld
      exact ⟨⟨henq, hheld⟩, id, Or.inl, fun _ => Or.inl, fun _ => id⟩
  | enter _ hplace | prev _ hplace | switch _ hplace =>
      exact keeps_of_same (Spares.refl _) hh rfl rfl fun chain hs => by simp [hplace] at hs
  | take _ hplace =>
      exact keeps_of_same (spares_of_same rfl rfl rfl rfl fun _ => id) hh rfl rfl
        fun chain hs => by simp [hplace] at hs
  | @service x chain _ hplace =>
      have hsame : ((k.sched.takeRequests x).revokePrepared x).next = k.sched.next ∧
          ((k.sched.takeRequests x).revokePrepared x).heldMask = k.sched.heldMask ∧
          ((k.sched.takeRequests x).revokePrepared x).pending = (k.sched.takeRequests x).pending := by
        unfold Sched.revokePrepared
        split <;> exact ⟨rfl, rfl, rfl⟩
      obtain ⟨ht₁, hw₁⟩ := hc.tidy.takeRequests x
      have hw := hw₁.trans (ht₁.revokePrepared x).2
      refine keeps_of_bits hplace hsame.1 hsame.2.1 hsame.2.2 (fun hl => ?_) (fun hx _ => ⟨chain, by rw [hx]⟩) hh
      exact ⟨fun hs => hl.1 ((hw.terminated_iff t).1 hs), fun hd => hl.2 ((hw.terminating_iff t).1 hd)⟩
  | skip _ hplace hpend =>
      exact keeps_of_bits hplace rfl rfl rfl id (fun hx hp => by simp [hx, hp] at hpend) hh
  | @serviced fold x chain _ hplace =>
      obtain ⟨hs, hdelivered⟩ := hc.tidy.spares_makeReady fold x
      refine keeps_of_same hs hh rfl rfl fun chain' hsv hlive => ?_
      obtain ⟨rfl, -⟩ : x = t ∧ chain = chain' := by simpa [hplace] using hsv
      exact absurd hh (hdelivered hlive)
  | guard _ hplace hs =>
      obtain ⟨hcons, hidle⟩ := hi.guarded hplace
      exact keeps_of_same (hcons.spares_rescheduleGuarded hidle hs) hh rfl rfl fun chain hs => by simp [hplace] at hs
  | @claim x =>
      refine ⟨hh, id, Or.inl, fun _ hpt => Or.inl ?_, fun _ => id⟩
      by_cases hx : t = x
      · simp [hx]
      · simpa [hx] using hpt
  | push =>
      exact keeps_of_same (spares_of_same rfl rfl rfl rfl fun _ => id) hh rfl rfl fun chain hs _ => ⟨chain, hs⟩
  | @file x mask =>
      have hx : t ≠ x := by
        rintro rfl
        exact hfile mask rfl
      obtain ⟨henq, hheld⟩ := hh
      simp only [Function.update_of_ne hx] at hheld
      exact ⟨⟨henq, hheld⟩, id, Or.inl, fun _ => Or.inl, fun _ => id⟩

/-- The step from `k` to `k'` delivers a wake to `t`: a local call reaches its `make_ready`, the handler
makes the `make_ready` of a request it has taken, or a decision takes the request in. -/
def Delivers (k k' : Core Tid) (t : Tid) : CoreAct Tid → Prop
  | .wakeReady _ _ => (∃ policy, k.executing = some (.ready t policy)) ∨
      (k.sched.pending t = true ∧ k'.sched.pending t = false)
  | .handlerReady _ => ∃ chain, k.handler = .servicing t chain
  | .yield _ | .commitToBlock _ => k.sched.pending t = true ∧ k'.sched.pending t = false
  | _ => False

/-- **A wake that is delivered finds the holder**: it is not in the matrix afterwards. -/
theorem not_hidden_of_delivers {act : CoreAct Tid} (hi : Inv True k) (hlive : k.sched.Live t)
    (h : k.next act = some k') (hd : Delivers k k' t act) : ¬ k'.sched.Hidden t := by
  intro hh
  -- a request that is gone, with the handler not serving it, has been taken in by a decision
  have htaken : (∀ mask, act ≠ .remoteFile t mask) → k.sched.pending t = true →
      k'.sched.pending t = false → (∀ chain, k'.handler ≠ .servicing t chain) → False := by
    intro hfile hp hp' hs
    rcases (keeps_next hi hfile h hh).pending hlive hp with hp'' | ⟨chain, hs'⟩
    · rw [hp'] at hp''
      cases hp''
    · exact hs chain hs'
  obtain ⟨c, hc⟩ := hi.phase
  cases effect_of_next h with
  | @ready fold road x policy hexec hopen =>
      rcases hd with ⟨policy', hx⟩ | ⟨hp, hp'⟩
      · rw [hexec] at hx
        cases hx
        exact (spares_setThreadReady hc.toConsistent fold policy road).2 hlive hh
      · by_cases hroad : road = .deferred
        · -- no decision is made here, and the wake itself takes no request in
          have hkept := (makeReady_requests hc.tidy fold x).1
          subst hroad
          change (setThreadReady k.sched fold x policy .deferred).pending t = false at hp'
          unfold setThreadReady at hp'
          dsimp only at hp'
          rw [if_neg fun hand => hand.2.2 rfl, hkept, hp] at hp'
          cases hp'
        · have hidle := handler_of_roadOpen hexec hopen hroad
          exact htaken (by simp) hp hp' (by simp [hidle])
  | serviced _ hplace =>
      obtain ⟨chain, hs⟩ := hd
      rw [hplace] at hs
      cases hs
      exact (hc.tidy.spares_makeReady _ t).2 hlive hh
  | yield hrun | park hrun | unparked hrun =>
      exact htaken (by simp) hd.1 hd.2 (by simp [(hi.running hrun).2.1])
  | _ => exact hd

/-! ### The holder list -/

/-- A step changes the mask of the running thread, which it holds and releases itself, or that of a thread
which is handed a mutex, or none. -/
theorem files_next {act : CoreAct Tid} (hi : Inv True k) (h : k.next act = some k') :
    Files k.sched k'.sched ∨
      (∃ c mask, k.sched.Settled c ∧ k'.sched =
        { k.sched with heldMask := Function.update k.sched.heldMask c mask }) ∨
      ∃ x mask, k'.sched =
        { k.sched with heldMask := Function.update k.sched.heldMask x (k.sched.heldMask x ||| mask) } := by
  obtain ⟨c, hc⟩ := hi.phase
  cases effect_of_next h with
  | @hold c' mask hrun =>
      obtain ⟨-, hidle, hc'⟩ := hi.running hrun
      exact Or.inr (Or.inl ⟨c', mask, ⟨hc'.toConsistent, hc'.settled trivial (Or.inl hidle)⟩, rfl⟩)
  | file => exact Or.inr (Or.inr ⟨_, _, rfl⟩)
  | wake | clear | look => exact Or.inl (by rw [moveTo_sched]; exact files_of_same rfl rfl rfl)
  | ready => exact Or.inl (spares_setThreadReady hc.toConsistent _ _ _).1.toFiles
  | park hrun hidle hprep =>
      exact Or.inl ((hi.running hrun).2.2.toConsistent.spares_decide _ .parked (by decide)
        fun _ => ⟨hidle, by simp [hprep]⟩).toFiles
  | yield => exact Or.inl (hc.toConsistent.spares_decide _ .yielded (by decide) (by simp)).toFiles
  | service =>
      unfold Sched.revokePrepared
      split <;> exact Or.inl (files_of_same rfl rfl rfl)
  | serviced => exact Or.inl (hc.tidy.spares_makeReady _ _).1.toFiles
  | guard _ hplace hs =>
      obtain ⟨hcons, hidle⟩ := hi.guarded hplace
      exact Or.inl (hcons.spares_rescheduleGuarded hidle hs).toFiles
  | _ => exact Or.inl (files_of_same rfl rfl rfl)

/-- Whoever is on the holder list holds something. -/
def ListedHold (s : Sched Tid) : Prop := ∀ t, s.isListedHolder t = true → s.heldMask t ≠ 0

/-- **Only a running thread stops holding**, so no listed thread does. -/
theorem ListedHold.next {act : CoreAct Tid} (hl : ListedHold k.sched) (hi : Inv True k)
    (h : k.next act = some k') : ListedHold k'.sched := by
  intro t ht
  obtain hfiles | ⟨c, mask, hs, heq⟩ | ⟨x, mask, heq⟩ := files_next hi h
  · rw [hfiles.heldMask]
    exact (hfiles.listed t ht).elim (hl t) id
  · rw [heq] at ht ⊢
    have htc : t ≠ c := by
      rintro rfl
      have hready : t ∈ k.sched.readySet := by
        rw [hs.tidy.filed.mem_iff, show k.sched.isListedHolder t = true from ht, Bool.or_true]
      rw [readySet, Set.mem_ofPred_eq, hs.running] at hready
      cases hready.1
    simpa only [Function.update_of_ne htc] using hl t ht
  · rw [heq] at ht ⊢
    have hold := hl t ht
    by_cases htx : t = x
    · subst htx
      simp only [Function.update_self]
      intro hzero
      exact hold (BitVec.or_eq_zero_iff.1 hzero).1
    · simpa only [Function.update_of_ne htx] using hold

/-- **On the holder list are holders**, in every run in which no wake readies the running thread. -/
theorem listed_hold (idle : Tid) (basePriority : Tid → Level) (threads : List Tid)
    (acts : List (CoreAct Tid))
    (hok : Meets Core.next ReadiesNoRunning (boot idle basePriority threads) acts)
    (h : run Core.next (boot idle basePriority threads) acts = some k) : ListedHold k.sched := by
  have hboot : ListedHold (boot idle basePriority threads).sched := by
    intro t ht
    have hnot := Sched.isListedHolder_boot idle basePriority threads t
    rw [show (Sched.boot idle basePriority threads).isListedHolder t = true from ht] at hnot
    cases hnot
  have hi := run_invariant_of_meets (I := fun k => Inv True k ∧ ListedHold k.sched)
    (fun _ _ _ hi hok h => ⟨hi.1.next (fun _ => hok) h, hi.2.next hi.1 h⟩)
    ⟨inv_boot idle basePriority threads, hboot⟩ hok h
  exact hi.2

/-- Thread 1 holds a mutex and is preempted. -/
def preemptedHolder : List (CoreAct (Fin 3)) :=
  [.prepare, .commitToBlock fun _ => 0, .hold 1, .irqEnter, .wake 2 .automatic, .wakeClear, .wakeLook,
    .wakeReady (fun _ => 5) .interrupt]

theorem listed_hold_preempted : ∃ k, run Core.next (boot 0 twoThreads [1, 2]) preemptedHolder = some k ∧
    k.sched.isListedHolder 1 = true ∧ ListedHold k.sched := by
  have hok : Meets Core.next ReadiesNoRunning (boot 0 twoThreads [1, 2]) preemptedHolder := by
    refine ⟨trivial, trivial, trivial, trivial, trivial, trivial, trivial, ?_, trivial⟩
    intro t policy hexec hrun
    cases hexec
    cases hrun
  exact ⟨_, rfl, rfl, listed_hold 0 twoThreads [1, 2] preemptedHolder hok rfl⟩

end Cyros.Kernel.Core
