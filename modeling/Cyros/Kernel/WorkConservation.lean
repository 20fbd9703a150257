import Cyros.Kernel.HolderView
import Cyros.Kernel.Pick

/-!
# Work conservation

A layer over the runs of one core: what is pended, and what the wakes under way still have to pend.  A
wake that readies a thread either decides at once or returns a hint.  The hints of a batch are gathered
(`wake_all`, `raise_all`), and `apply_reschedule_policy` pends a reschedule for them before the batch
returns, under every policy but `never`.  The reschedule handler is entered for what is pended.

* `Sched.Lone` says that no thread but the idle thread is ready.  Whenever a decision ends with the idle
  thread as the running one, it holds (`Turn`).
* `work_conserved`: while the idle thread runs at baseline and nothing is pended, it still holds, in every
  run in which a wake over the idle thread readies only threads more urgent than it.
* `woken_over_idle_waits`: a thread of the idle thread's own priority, woken over it, is left ready.
-/

namespace Cyros.Kernel

open Cyros.Lib Cyros.Lib.IntrusiveQueue

namespace Sched

variable {Tid : Type}

/-- No thread but the idle thread is ready. -/
def Lone (s : Sched Tid) : Prop := ∀ t, s.state t = .ready → t = s.idleThread

theorem Lone.congr {s s' : Sched Tid} (h : Lone s) (hstate : s'.state = s.state)
    (hidle : s'.idleThread = s.idleThread) : Lone s' := by
  intro t ht
  rw [hidle]
  apply h
  rw [← hstate]
  exact ht

/-- The core in the middle of a switch, with nobody running. -/
structure Vacated (s s' : Sched Tid) : Prop where
  tidy : Tidy s'
  vacant : ∀ t, s'.state t ≠ .running
  idleThread : s'.idleThread = s.idleThread
  basePriority : s'.basePriority = s.basePriority

variable [DecidableEq Tid] [Fintype Tid]

theorem Vacates.vacated {s s₁ : Sched Tid} {fold : Tid → ℕ} {joiners : List Tid} {c : Tid} {reason : Departure}
    (h : Vacates s fold joiners c reason s₁) : Vacated s s₁ := by
  cases h with
  | departs _ hdep => exact ⟨hdep.tidy, hdep.vacant, hdep.idleThread, hdep.basePriority⟩
  | nobody htidy hvacant => exact ⟨htidy, hvacant, rfl, rfl⟩

/-- A decision is a pick on a core on which nobody runs. -/
theorem Consistent.decide_eq {s : Sched Tid} {c : Tid} (h : Consistent s c) (fold : Tid → ℕ)
    (reason : Departure) (hreason : reason ≠ .exited)
    (hpark : reason = .parked → c ≠ s.idleThread ∧ s.disposition c ≠ .terminating) :
    ∃ s₁, Vacated s s₁ ∧ s.decide fold reason = s₁.runNext fold := by
  have hw := (h.tidy.drainIntake fold).2
  obtain ⟨s₁, hv, heq⟩ := h.decide_vacates fold hreason hpark
  obtain ⟨htidy, hvacant, hidle, hbase⟩ := hv.vacated
  exact ⟨s₁, ⟨htidy, hvacant, hidle.trans hw.idleThread, hbase.trans hw.basePriority⟩, heq⟩

/-- So is the guarded half of the handler. -/
theorem Consistent.rescheduleGuarded_eq {s s' : Sched Tid} {c : Tid} (h : Consistent s c)
    (hidle : s.disposition c = .terminating → c ≠ s.idleThread) {fold : Tid → ℕ}
    {joiners : List Tid} (hs : s.rescheduleGuarded fold joiners c = some s') :
    ∃ s₁, Vacated s s₁ ∧ s' = s₁.runNext fold := by
  obtain ⟨s₁, hv, heq⟩ := h.rescheduleGuarded_vacates hidle hs
  exact ⟨s₁, hv.vacated, heq⟩

/-- **The idle thread is picked only when nobody else is ready.** -/
theorem Tidy.runNext_lone {s : Sched Tid} (h : Tidy s) (fold : Tid → ℕ)
    (hfold : ∀ t, fold t ≤ s.basePriority t)
    (hcur : (s.runNext fold).currentThread = some s.idleThread) : Lone (s.runNext fold) := by
  obtain ⟨levels, hs, hf, hR⟩ := h.filed
  have hbound : ∀ x ∈ hs, s.urgency fold x < 0xFF := by
    intro x _
    have hlevel := (s.basePriority x).isLt
    have hle := hfold x
    unfold urgency
    split <;> omega
  obtain ⟨levels', hs', htakes, -, -⟩ := hf.takes_pickNext fold hbound
  have hspec := h.filed.pickNext fold
  unfold Sched.runNext at hcur ⊢
  cases heq : s.pickNext fold with
  | mk picked s₁ =>
    rw [heq] at htakes hspec hcur
    obtain ⟨hsame, hpick⟩ := hspec
    cases picked with
    | some t =>
        -- who is picked was filed, and the idle thread never is
        have ht : t = s.idleThread := Option.some.inj hcur
        exact absurd ht hpick.1.2
    | none =>
        intro t ht
        by_contra hne
        have hidle : (s₁.setThreadRunning s₁.idleThread).idleThread = s.idleThread := hsame.idleThread
        simp only [setThreadRunning, setState] at ht hne
        rw [Function.update_of_ne hne, hsame.state] at ht
        rw [hsame.idleThread] at hne
        cases htakes with
        | nobody hlevels hholders =>
            rcases (hR t).1 ⟨ht, hne⟩ with hmem | hmem
            · simp [hlevels] at hmem
            · simp [hholders] at hmem

theorem Vacated.runNext_lone {s s₁ : Sched Tid} (h : Vacated s s₁) {fold : Tid → ℕ}
    (hfold : ∀ t, fold t ≤ s.basePriority t)
    (hcur : (s₁.runNext fold).currentThread = some (s₁.runNext fold).idleThread) :
    Lone (s₁.runNext fold) := by
  obtain ⟨p, hp⟩ := h.tidy.runNext h.vacant fold
  apply h.tidy.runNext_lone fold
  · rw [h.basePriority]
    exact hfold
  · rw [hcur, hp.idleThread]

/-- A wake that readies a thread more urgent than the running one says so. -/
theorem Tidy.makeReady_warranted {s : Sched Tid} (h : Tidy s) {fold : Tid → ℕ} {t : Tid}
    (hready : s.state t ≠ .ready) (hterm : s.state t ≠ .terminated)
    (hdisp : s.disposition t ≠ .terminating)
    (hlt : s.urgency fold t < s.currentThreadUrgency fold) :
    (s.makeReady fold t).2 = .warranted := by
  have hfiled : ¬(s.isEnqueued t || s.isListedHolder t) = true := fun hf =>
    hready ((h.filed.mem_iff t).2 hf).1
  have hsame := sameTcbs_admitThread s t false
  unfold Sched.makeReady
  rw [if_neg (not_or.mpr ⟨hterm, hdisp⟩), if_neg hfiled]
  dsimp only
  have hurg : (s.admitThread t false).urgency fold = s.urgency fold := by
    funext x
    simp only [urgency, hsame.heldMask, hsame.basePriority, setState]
  have hcur : (s.admitThread t false).currentThreadUrgency fold = s.currentThreadUrgency fold := by
    unfold currentThreadUrgency
    rw [hurg, hsame.currentThread]
    rfl
  rw [hintFor, hurg, hcur, if_pos hlt]

theorem makeReady_ne_rescheduled (s : Sched Tid) (fold : Tid → ℕ) (t : Tid) :
    (s.makeReady fold t).2 ≠ .rescheduled := by
  have hhint : ∀ s : Sched Tid, s.hintFor fold t ≠ .rescheduled := by
    intro s
    unfold hintFor
    split <;> decide
  unfold Sched.makeReady
  split
  · simp
  · split
    · split
      · exact hhint _
      · simp
    · exact hhint _

/-- A wake adds nobody to the ready threads unless it admits a thread other than the idle thread. -/
theorem Tidy.lone_makeReady {s : Sched Tid} (h : Tidy s) (hl : Lone s) (fold : Tid → ℕ) (t : Tid) :
    Lone (s.makeReady fold t).1 ∨ (t ≠ s.idleThread ∧ s.state t ≠ .ready ∧
      s.state t ≠ .terminated ∧ s.disposition t ≠ .terminating) := by
  obtain ⟨-, heq⟩ | ⟨-, -, hsame⟩ | ⟨hterm, hdisp, hR, heq⟩ := h.filed.makeReady fold t
  · rw [heq]
    exact Or.inl hl
  · exact Or.inl (hl.congr hsame.state hsame.idleThread)
  · by_cases hti : t = s.idleThread
    · left
      rw [heq, hti, admitThread_idleThread]
      intro x hx
      by_contra hne
      have hx' : s.state x = .ready := by
        rw [← hx]
        exact (Function.update_of_ne hne _ _).symm
      exact hne (hl x hx')
    · exact Or.inr ⟨hti, fun hready => hR ⟨hready, hti⟩, hterm, hdisp⟩

/-- The core starts with the idle thread only if nobody else was registered. -/
theorem lone_boot (idle : Tid) (basePriority : Tid → Level) (threads : List Tid)
    (hcur : (boot idle basePriority threads).currentThread =
      some (boot idle basePriority threads).idleThread) : Lone (boot idle basePriority threads) := by
  intro t ht
  by_contra hne
  obtain ⟨c, hc⟩ := settled_boot idle basePriority threads
  obtain ⟨s, heq, htidy, hw⟩ := registered idle basePriority threads
  have hlisted := isListedHolder_boot idle basePriority threads t
  have hfiled := (hc.tidy.filed.mem_iff t).1 ⟨ht, hne⟩
  rw [hlisted, Bool.or_false] at hfiled
  rw [heq] at hcur ht hne hfiled
  obtain ⟨levels, hs, hf, hR⟩ := htidy.filed
  unfold Sched.start at hcur ht hne hfiled
  obtain ⟨hpop, hempty⟩ | ⟨p, x, xs, s', hpop, hlevel, -, -, hsame⟩ := hf.popBestThread
  · rw [hpop] at hfiled
    have hmem := (hf.isEnqueued_iff t).1 hfiled
    simp [hempty] at hmem
  · rw [hpop] at hcur
    have hx : x = s.idleThread := (Option.some.inj hcur).trans hsame.idleThread
    have hxs : x ∈ levels p := by simp [hlevel]
    exact ((hR x).2 (Or.inl (by rwa [hf.base p x hxs]))).2 hx

end Sched

namespace Core

variable {Tid : Type} [DecidableEq Tid] [Fintype Tid] {k k' : Core Tid}

/-! ### What a step does to the ready threads -/

/-- Every step but a wake's readying: it ends inside the handler, or it is a decision, or it leaves the
ready threads and the current thread as they are. -/
inductive Turn (k k' : Core Tid) : Prop
  | inside (hout : k'.handler ≠ .idle) (hswitch : k'.handler ≠ .switching)
  | decided (hlone : k'.sched.currentThread = some k'.sched.idleThread → k'.sched.Lone)
  | still (hcur : k'.sched.currentThread = k.sched.currentThread)
      (hidle : k'.sched.idleThread = k.sched.idleThread) (hstate : k'.sched.state = k.sched.state)
      (hhandler : k'.handler = k.handler ∨ k.handler = .switching)

theorem turn_decide {c : Tid} {fold : Tid → ℕ} {reason : Departure} (hc : k.sched.Consistent c)
    (hfold : ∀ t, fold t ≤ k.sched.basePriority t) (hreason : reason ≠ .exited)
    (hpark : reason = .parked → c ≠ k.sched.idleThread ∧ k.sched.disposition c ≠ .terminating) :
    Turn k { k with sched := k.sched.decide fold reason } := by
  obtain ⟨s₁, hvac, heq⟩ := hc.decide_eq fold reason hreason hpark
  apply Turn.decided
  dsimp only
  rw [heq]
  exact hvac.runNext_lone hfold

theorem setThreadReady_decides {s : Sched Tid} {fold : Tid → ℕ} {t : Tid} {policy : Policy} {road : Road}
    (h : (s.makeReady fold t).2 = .warranted ∧ policy ≠ .never ∧ road ≠ .deferred) :
    setThreadReady s fold t policy road = (s.makeReady fold t).1.decide fold .preempted := by
  unfold setThreadReady
  exact if_pos h

theorem setThreadReady_defers {s : Sched Tid} {fold : Tid → ℕ} {t : Tid} {policy : Policy} {road : Road}
    (h : ¬((s.makeReady fold t).2 = .warranted ∧ policy ≠ .never ∧ road ≠ .deferred)) :
    setThreadReady s fold t policy road = (s.makeReady fold t).1 := by
  unfold setThreadReady
  exact if_neg h

/-- **Every step of a core but a wake's readying is a turn.** -/
theorem turn_next {act : CoreAct Tid} (hi : Inv False k)
    (hready : ∀ fold road, act ≠ .wakeReady fold road)
    (hfold : FoldWithin k.sched.basePriority act) (h : k.next act = some k') : Turn k k' := by
  cases effect_of_next h with
  | irqEnter | irqReturn | refused | unparked | claimed | prepare | unprepare | exit | hold | claim | push | file =>
      exact .still rfl rfl rfl (Or.inl rfl)
  | wake | clear | look =>
      exact .still (by simp [Sched.setDisposition]) (by simp [Sched.setDisposition])
        (by simp [Sched.setDisposition]) (Or.inl (by simp))
  | ready => exact absurd rfl (hready _ _)
  | park hrun hidle hprep =>
      exact turn_decide (hi.running hrun).2.2.toConsistent (hfold _ rfl) (by decide)
        fun _ => ⟨hidle, by simp [hprep]⟩
  | yield hrun => exact turn_decide (hi.running hrun).2.2.toConsistent (hfold _ rfl) (by decide) (by simp)
  | enter | take | service | skip | serviced | prev => exact .inside (by simp) (by simp)
  | guard _ hh hs =>
      obtain ⟨hcons, hidle⟩ := hi.guarded hh
      obtain ⟨s₁, hvac, rfl⟩ := hcons.rescheduleGuarded_eq hidle hs
      exact .decided (hvac.runNext_lone (hfold _ rfl))
  | switch _ hh => exact .still rfl rfl rfl (Or.inr hh)

/-! ### Frames -/

omit [Fintype Tid] in
theorem moveTo_irqs_length (k : Core Tid) (w : WakePlace Tid) :
    (k.moveTo w).irqs.length = k.irqs.length := by
  unfold moveTo
  split
  · next hirqs => simp [hirqs]
  · next hirqs => split <;> simp [hirqs]

/-- Interrupts come and go by their own steps only. -/
theorem irqs_length_next {act : CoreAct Tid} (henter : act ≠ .irqEnter) (hreturn : act ≠ .irqReturn)
    (h : k.next act = some k') : k'.irqs.length = k.irqs.length := by
  cases effect_of_next h with
  | irqEnter => exact absurd rfl henter
  | irqReturn => exact absurd rfl hreturn
  | wake | clear | look | ready => exact moveTo_irqs_length _ _
  | _ => rfl

end Core

/-! ### What is pended -/

/-- A core with the reschedules pended on it. -/
structure Prompted (Tid : Type) where
  core : Core Tid
  /-- A reschedule is pended, and the handler has not been entered for it. -/
  pended : Bool
  /-- The hint each active interrupt has gathered and not yet applied, innermost first. -/
  irqHints : List Bool
  /-- The hint each thread has gathered and not yet applied. -/
  hints : Tid → Bool

inductive PromptAct (Tid : Type) where
  /-- A step of the core.  A port may count the pended reschedule as served by a switch that an
  interrupt's wake owes; `keeps` says that it does not. -/
  | core (act : CoreAct Tid) (keeps : Bool)
  /-- `apply_reschedule_policy`, for the hint gathered. -/
  | apply
  /-- A reschedule is pended for another reason: a slice, a repick, the policy `always`, an IPI. -/
  | pend

namespace Prompted

variable {Tid : Type} [DecidableEq Tid]

/-- The hint gathered by the executing interrupt or thread. -/
def gathered (k : Prompted Tid) : Bool :=
  match k.irqHints with
  | h :: _ => h
  | [] => match k.core.sched.currentThread with
    | some c => k.hints c
    | none => false

/-- The executing interrupt or thread gathers a hint, or drops what it has applied. -/
def setGathered (k : Prompted Tid) (b : Bool) : Prompted Tid :=
  match k.irqHints with
  | _ :: hs => { k with irqHints := b :: hs }
  | [] => match k.core.sched.currentThread with
    | some c => { k with hints := Function.update k.hints c b }
    | none => k

variable [Fintype Tid]

/-- What `set_thread_ready` returns to the wake in progress. -/
def wakeHint (k : Prompted Tid) (fold : Tid → ℕ) (road : Road) : Hint :=
  match k.core.executing with
  | some (.ready t policy) =>
      match (k.core.sched.makeReady fold t).2 with
      | .warranted => if policy ≠ .never ∧ road ≠ .deferred then .rescheduled else .warranted
      | hint => hint
  | _ => .unwarranted

/-- What a step of the core leaves pended and gathered. -/
def after (k : Prompted Tid) (act : CoreAct Tid) (keeps : Bool) (c : Core Tid) : Prompted Tid :=
  match act with
  | .irqEnter => { k with core := c, irqHints := false :: k.irqHints }
  | .irqReturn => { k with core := c, irqHints := k.irqHints.tail }
  | .wakeReady fold road => match k.wakeHint fold road with
    | .unwarranted => { k with core := c }
    | .warranted => { k.setGathered true with core := c }
    | .rescheduled => { k with core := c, pended := k.pended && (keeps || road == .baseline) }
  | .handlerEnter => { k with core := c, pended := false }
  | _ => { k with core := c }

/-- The steps that wait until the batch of wakes has returned. -/
def waitsForBatch : CoreAct Tid → Bool
  | .irqReturn | .prepare | .unprepare | .commitToBlock _ | .yield _ | .threadExit | .hold _ => true
  | _ => false

def next (k : Prompted Tid) : PromptAct Tid → Option (Prompted Tid)
  | .core act keeps =>
    if Core.FoldWithin k.core.sched.basePriority act ∧ ¬(waitsForBatch act ∧ k.gathered) then
      (k.core.next act).map (k.after act keeps)
    else none
  | .apply =>
    if k.core.executing = some .idle ∧ k.gathered then
      some { k.setGathered false with pended := true }
    else none
  | .pend => some { k with pended := true }

def boot (idle : Tid) (basePriority : Tid → Level) (threads : List Tid) : Prompted Tid where
  core := Core.boot idle basePriority threads
  pended := false
  irqHints := []
  hints := fun _ => false

/-! ### The invariant -/

/-- Something will have the core decide again: a reschedule is pended, or a hint of an interrupt or of
the idle thread is still to be applied. -/
def Prompt (k : Prompted Tid) : Prop :=
  k.pended = true ∨ true ∈ k.irqHints ∨ k.hints k.core.sched.idleThread = true

/-- While the idle thread is current and the handler will not pick, ready threads have a prompt. -/
structure Conserved (k : Prompted Tid) : Prop where
  core : Core.Inv False k.core
  frames : k.irqHints.length = k.core.irqs.length
  idle : k.core.sched.currentThread = some k.core.sched.idleThread →
    k.core.handler = .idle ∨ k.core.handler = .switching → ¬ k.core.sched.Lone → k.Prompt

/-- A wake over the idle thread that readies a thread readies one more urgent than it. -/
def BeatsIdle (k : Prompted Tid) : PromptAct Tid → Prop
  | .core (.wakeReady fold _) _ => ∀ t policy, k.core.executing = some (.ready t policy) →
      k.core.sched.currentThread = some k.core.sched.idleThread → t ≠ k.core.sched.idleThread →
      k.core.sched.state t ≠ .ready → k.core.sched.state t ≠ .terminated →
      k.core.sched.disposition t ≠ .terminating →
      k.core.sched.urgency fold t < k.core.sched.currentThreadUrgency fold
  | _ => True

variable {k k' : Prompted Tid}

omit [Fintype Tid] in
theorem setGathered_irqHints_length (k : Prompted Tid) (b : Bool) :
    (k.setGathered b).irqHints.length = k.irqHints.length := by
  unfold setGathered
  split
  · next hh => simp [hh]
  · next hh => split <;> simp [hh]

omit [Fintype Tid] in
@[simp] theorem setGathered_core (k : Prompted Tid) (b : Bool) : (k.setGathered b).core = k.core := by
  unfold setGathered
  split
  · rfl
  · split <;> rfl

omit [Fintype Tid] in
/-- Over the idle thread a gathered hint is a prompt, whoever gathers it. -/
theorem prompt_setGathered {c : Core Tid}
    (hcur : k.core.sched.currentThread = some k.core.sched.idleThread)
    (hidle : c.sched.idleThread = k.core.sched.idleThread) :
    Prompt { k.setGathered true with core := c } := by
  right
  unfold setGathered
  split
  · exact Or.inl (by simp)
  · rw [hcur]
    right
    simp [hidle]

@[simp] theorem after_core (k : Prompted Tid) (act : CoreAct Tid) (keeps : Bool) (c : Core Tid) :
    (k.after act keeps c).core = c := by
  cases act with
  | wakeReady fold road =>
      unfold after
      dsimp only
      split <;> rfl
  | _ => rfl

theorem core_step {act : CoreAct Tid} {keeps : Bool} (h : k.next (.core act keeps) = some k') :
    ∃ c, Core.FoldWithin k.core.sched.basePriority act ∧ ¬(waitsForBatch act ∧ k.gathered) ∧
      k.core.next act = some c ∧ k' = k.after act keeps c := by
  simp only [Prompted.next] at h
  split at h
  · next hguard =>
    obtain ⟨c, hc, rfl⟩ := Option.map_eq_some_iff.1 h
    exact ⟨c, hguard.1, hguard.2, hc, rfl⟩
  · cases h

theorem frames_after {act : CoreAct Tid} {keeps : Bool} {c : Core Tid}
    (hf : k.irqHints.length = k.core.irqs.length) (hc : k.core.next act = some c) :
    (k.after act keeps c).irqHints.length = c.irqs.length := by
  cases act with
  | irqEnter =>
      cases hc
      simp [after, hf]
  | irqReturn =>
      cases Core.effect_of_next hc with
      | irqReturn hirqs => simp [after, hf, hirqs]
  | wakeReady fold road =>
      rw [Core.irqs_length_next (by simp) (by simp) hc, ← hf]
      unfold after
      dsimp only
      split
      · rfl
      · exact setGathered_irqHints_length k true
      · rfl
  | _ =>
      rw [Core.irqs_length_next (by simp) (by simp) hc, ← hf]
      rfl

/-- A turn of the core keeps the prompt, unless the handler is entered for it. -/
theorem prompt_after {act : CoreAct Tid} {keeps : Bool} {c : Core Tid}
    (hready : ∀ fold road, act ≠ .wakeReady fold road) (henter : act ≠ .handlerEnter)
    (hbatch : ¬(waitsForBatch act ∧ k.gathered))
    (hidle : c.sched.idleThread = k.core.sched.idleThread) (hp : k.Prompt) :
    (k.after act keeps c).Prompt := by
  unfold Prompt at hp ⊢
  rw [after_core, hidle]
  cases act with
  | irqEnter =>
      simp only [after, List.mem_cons]
      tauto
  | irqReturn =>
      -- the interrupt has applied its own hint, so the prompt is another's
      simp only [after]
      rcases hp with hp | hp | hp
      · exact Or.inl hp
      · right
        left
        cases hh : k.irqHints with
        | nil => simp [hh] at hp
        | cons b bs =>
            have hb : b = false := by simpa [waitsForBatch, gathered, hh] using hbatch
            rw [hh, hb] at hp
            simpa using hp
      · exact Or.inr (Or.inr hp)
  | wakeReady fold road => exact absurd rfl (hready fold road)
  | handlerEnter => exact absurd rfl henter
  | _ => exact hp

/-- **A wake's readying** decides, or leaves a prompt for whom it readies over the idle thread. -/
theorem idle_wakeReady {fold : Tid → ℕ} {road : Road} {keeps : Bool} {c : Core Tid}
    (hi : k.Conserved) (hok : k.BeatsIdle (.core (.wakeReady fold road) keeps))
    (hfold : ∀ t, fold t ≤ k.core.sched.basePriority t)
    (hc : k.core.next (.wakeReady fold road) = some c)
    (hcur : c.sched.currentThread = some c.sched.idleThread)
    (hh : c.handler = .idle ∨ c.handler = .switching) (hlone : ¬ c.sched.Lone) :
    (k.after (.wakeReady fold road) keeps c).Prompt := by
  cases Core.effect_of_next hc
  next t policy hexec _ =>
    obtain ⟨cur, hphase⟩ := hi.core.phase
    have htidy := hphase.tidy
    simp only [Core.moveTo_handler] at hh
    -- a decision over the idle thread would have left nobody ready
    by_cases hdec : (k.core.sched.makeReady fold t).2 = .warranted ∧ policy ≠ .never ∧ road ≠ .deferred
    · rw [Core.setThreadReady_decides hdec] at hcur hlone
      obtain ⟨hready, hw⟩ := htidy.makeReady fold t
      obtain ⟨s₁, hvac, heq⟩ := (hphase.toConsistent.woken hready hw).decide_eq fold .preempted
        (by decide) (fun hr => by cases hr)
      rw [heq] at hcur hlone
      refine absurd (hvac.runNext_lone (fun x => ?_) hcur) hlone
      rw [hw.basePriority]
      exact hfold x
    · rw [Core.setThreadReady_defers hdec] at hcur hlone
      have hw := (htidy.makeReady fold t).2
      rw [hw.currentThread, hw.idleThread] at hcur
      have hhint : k.wakeHint fold road = (k.core.sched.makeReady fold t).2 := by
        unfold wakeHint
        rw [hexec]
        dsimp only
        split
        · next hwar => rw [if_neg fun hroad => hdec ⟨hwar, hroad⟩, hwar]
        · rfl
      by_cases hwar : (k.core.sched.makeReady fold t).2 = .warranted
      · simp only [after, hhint, hwar]
        exact prompt_setGathered hcur (by
          rw [Core.setThreadReady_defers hdec]
          exact hw.idleThread)
      · -- nobody was readied, so the prompt is the one there was
        have hun : (k.core.sched.makeReady fold t).2 = .unwarranted := by
          have := k.core.sched.makeReady_ne_rescheduled fold t
          cases hcase : (k.core.sched.makeReady fold t).2 <;> simp_all
        have hnot : ¬ k.core.sched.Lone := by
          intro hl
          rcases htidy.lone_makeReady hl fold t with hl' | ⟨hti, hready, hterm, hdisp⟩
          · exact hlone hl'
          · exact hwar (htidy.makeReady_warranted hready hterm hdisp
              (hok t policy hexec hcur hti hready hterm hdisp))
        have hp := hi.idle hcur hh hnot
        simp only [after, hhint, hun]
        unfold Prompt at hp ⊢
        dsimp only
        rw [Core.setThreadReady_defers hdec, hw.idleThread]
        exact hp

theorem Conserved.next {act : PromptAct Tid} (hi : k.Conserved) (hok : k.BeatsIdle act)
    (h : k.next act = some k') : k'.Conserved := by
  cases act with
  | core act keeps =>
      obtain ⟨c, hfold, hbatch, hc, rfl⟩ := core_step h
      have hcore : Core.Inv False c := hi.core.next nofun hc
      refine ⟨by rwa [after_core], ?_, ?_⟩
      · rw [after_core]
        exact frames_after hi.frames hc
      · rw [after_core]
        intro hcur hh hlone
        by_cases hready : ∃ fold road, act = .wakeReady fold road
        · obtain ⟨fold, road, rfl⟩ := hready
          exact idle_wakeReady hi hok (hfold fold rfl) hc hcur hh hlone
        · have hne : ∀ fold road, act ≠ .wakeReady fold road := fun fold road he =>
            hready ⟨fold, road, he⟩
          cases Core.turn_next hi.core hne hfold hc with
          | inside hout hswitch => exact absurd hh (not_or.mpr ⟨hout, hswitch⟩)
          | decided hdec => exact absurd (hdec hcur) hlone
          | still hcur' hidle hstate hhandler =>
              have henter : act ≠ .handlerEnter := by
                rintro rfl
                cases Core.effect_of_next hc
                simp at hh
              apply prompt_after hne henter hbatch hidle
              apply hi.idle
              · rw [← hcur', hcur, hidle]
              · rcases hhandler with heq | heq
                · rwa [← heq]
                · exact Or.inr heq
              · exact fun hl => hlone (hl.congr hstate hidle)
  | apply =>
      simp only [Prompted.next] at h
      split at h <;> cases h
      refine ⟨by simpa using hi.core, ?_, fun _ _ _ => Or.inl rfl⟩
      simpa [setGathered_irqHints_length] using hi.frames
  | pend =>
      cases h
      exact ⟨hi.core, hi.frames, fun _ _ _ => Or.inl rfl⟩

theorem conserved_boot (idle : Tid) (basePriority : Tid → Level) (threads : List Tid) :
    (boot idle basePriority threads).Conserved :=
  ⟨Core.inv_boot idle basePriority threads, rfl,
    fun hcur _ hlone => absurd (Sched.lone_boot idle basePriority threads hcur) hlone⟩

/-! ### The idle thread runs only when there is nothing to do -/

/-- The core executes thread `c` at baseline, outside a batch of wakes. -/
structure AtBaseline (k : Prompted Tid) (c : Tid) : Prop where
  current : k.core.sched.currentThread = some c
  irqs : k.core.irqs = []
  handler : k.core.handler = .idle
  hints : k.hints c = false

/-- **Work conservation.**  In every run in which a wake over the idle thread readies only threads more
urgent than it, whenever the idle thread runs at baseline with no reschedule pended, no other thread of the
core is ready. -/
theorem work_conserved (idle : Tid) (basePriority : Tid → Level) (threads : List Tid)
    (acts : List (PromptAct Tid)) (k : Prompted Tid)
    (hok : Meets next BeatsIdle (boot idle basePriority threads) acts)
    (h : run next (boot idle basePriority threads) acts = some k)
    (hbase : k.AtBaseline k.core.sched.idleThread) (hpend : k.pended = false) :
    ∀ t, k.core.sched.state t = .ready → t = k.core.sched.idleThread := by
  have hi : k.Conserved := run_invariant_of_meets (fun _ _ _ hi hok h => hi.next hok h)
    (conserved_boot idle basePriority threads) hok h
  have hframes : k.irqHints = [] := by
    apply List.length_eq_zero_iff.mp
    rw [hi.frames, hbase.irqs]
    rfl
  by_contra hlone
  rcases hi.idle hbase.current (Or.inl hbase.handler) hlone with hp | hp | hp
  · simp [hpend] at hp
  · simp [hframes] at hp
  · simp [hbase.hints] at hp

/-- The idle thread and one other thread, which parks and is then woken by an interrupt. -/
def parksAndWakes : List (PromptAct (Fin 2)) :=
  [.core .prepare true, .core (.commitToBlock fun _ => 0) true, .core .irqEnter true,
    .core (.wake 1 .automatic) true, .core .wakeClear true, .core .wakeLook true,
    .core (.wakeReady (fun _ => 0) .interrupt) true, .core .irqReturn true]

/-- **A thread of the idle thread's own priority is left waiting.**  The wake over the idle thread readies
it, finds it no more urgent, and neither decides nor pends; the idle thread goes on. -/
theorem woken_over_idle_waits :
    ∃ k, run next (boot (0 : Fin 2) (fun _ => 31) [1]) parksAndWakes = some k ∧
      k.AtBaseline k.core.sched.idleThread ∧ k.pended = false ∧ k.core.sched.state 1 = .ready ∧
      k.core.sched.intake = [] := by
  refine ⟨_, rfl, ⟨rfl, rfl, rfl, rfl⟩, rfl, rfl, rfl⟩

/-- A thread more urgent than the idle thread runs at once, and when it has parked again nobody is ready. -/
theorem work_conserved_parked :
    ∃ k, run next (boot (0 : Fin 2) (fun t => if t = 0 then 31 else 30) [1])
        (parksAndWakes ++ [.core .prepare true, .core (.commitToBlock fun _ => 0) true]) = some k ∧
      k.core.sched.currentThread = some 0 ∧
      ∀ t, k.core.sched.state t = .ready → t = k.core.sched.idleThread := by
  have hrun : (run next (boot (0 : Fin 2) (fun t => if t = 0 then 31 else 30) [1])
      (parksAndWakes ++ [.core .prepare true, .core (.commitToBlock fun _ => 0) true])).map
        (fun k => (k.core.sched.currentThread, k.core.sched.idleThread, k.core.irqs, k.core.handler,
          k.hints 0, k.pended)) = some (some 0, 0, [], .idle, false, false) := rfl
  obtain ⟨k, hk, hfields⟩ := Option.map_eq_some_iff.mp hrun
  simp only [Prod.mk.injEq] at hfields
  obtain ⟨hcur, hidle, hirqs, hhandler, hhints, hpend⟩ := hfields
  refine ⟨k, hk, hcur, work_conserved 0 (fun t => if t = 0 then 31 else 30) [1] _ k ?_ hk ?_ hpend⟩
  · refine ⟨trivial, trivial, trivial, trivial, trivial, trivial, ?_, trivial, trivial, trivial, trivial⟩
    intro t policy hexec _ _ _ _ _
    cases hexec
    decide
  · rw [hidle]
    exact ⟨hcur, hirqs, hhandler, hhints⟩

end Prompted

end Cyros.Kernel
