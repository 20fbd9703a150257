import Cyros.Kernel.CoreRun

/-!
# Termination

`this_thread::thread_exit` stores the disposition `terminating` and then yields to the handler, which
retires the thread.  Wakes refuse a terminating thread, so no wake brings it back.  An interrupt's wake
of *another* thread can: between the store and the yield it may decide a preemption, and the decision
departs the running thread as preempted without asking for its disposition.

`exit_preempted_is_filed` is that run.  `termination_kept` says that it is the only way, besides a wake
that readies the running thread: in every other run a thread that is terminating stays the running
thread until the handler retires it, and its termination is raised exactly once.
-/

namespace Cyros.Kernel.Core

open Cyros.Lib

variable {Tid : Type} [DecidableEq Tid]

/-- In `thread_exit`, not yet departed. -/
def Leaving (s : Sched Tid) (t : Tid) : Prop :=
  s.state t = .running ∧ s.disposition t = .terminating ∧ s.raised.count t = 0

/-- Retired, its termination raised once. -/
def Gone (s : Sched Tid) (t : Tid) : Prop :=
  s.state t = .terminated ∧ s.raised.count t = 1

/-- Every thread in `thread_exit` is leaving or gone, and no other thread is done. -/
structure ExitOk (s : Sched Tid) (exiting : Tid → Bool) : Prop where
  marked : ∀ t, s.disposition t = .terminating → exiting t = true
  done : ∀ t, exiting t = true → Leaving s t ∨ Gone s t
  fresh : ∀ t, exiting t = false → s.state t ≠ .terminated ∧ s.raised.count t = 0

structure ExitInv (k : Core Tid) : Prop extends Inv True k where
  exits : ExitOk k.sched k.exiting
  /-- An interrupt past the test for a thread that is done has tested a thread that was not. -/
  frames : ∀ t policy, .clear t policy ∈ k.irqs → k.exiting t = true → k.sched.state t = .terminated

section ExitOk

variable {s s' : Sched Tid} {exiting : Tid → Bool}

theorem ExitOk.kept (h : ExitOk s exiting) (hk : s.Kept s')
    (hrun : ∀ t, exiting t = true → s.state t = .running → s'.state t = .running) : ExitOk s' exiting := by
  refine ⟨fun t ht => h.marked t ((hk.terminating t).1 ht), fun t ht => ?_, fun t ht => ?_⟩
  · rcases h.done t ht with ⟨hs, hd, hc⟩ | ⟨hs, hc⟩
    · exact Or.inl ⟨hrun t ht hs, (hk.terminating t).2 hd, by rw [hk.raised, hc]⟩
    · exact Or.inr ⟨(hk.terminated t).2 hs, by rw [hk.raised, hc]⟩
  · obtain ⟨hs, hc⟩ := h.fresh t ht
    exact ⟨fun ht' => hs ((hk.terminated t).1 ht'), by rw [hk.raised, hc]⟩

/-- The retirement of the running thread, which was terminating. -/
theorem ExitOk.retired {c : Tid} (h : ExitOk s exiting) (honly : ∀ t, s.state t = .running → t = c)
    (hc : s.state c = .running) (hd : s.disposition c = .terminating) (hr : s.Retired s' c) : ExitOk s' exiting := by
  have hexit := h.marked c hd
  refine ⟨fun t ht => h.marked t ((hr.terminating t).1 ht), fun t ht => Or.inr ?_, fun t ht => ?_⟩
  · refine ⟨(hr.terminated t).2 ?_, ?_⟩
    · rcases h.done t ht with ⟨hs, -, -⟩ | ⟨hs, -⟩
      · exact Or.inl (honly t hs)
      · exact Or.inr hs
    · rw [hr.raised, List.count_cons]
      rcases h.done t ht with ⟨hs, -, hcount⟩ | ⟨hs, hcount⟩
      · obtain rfl := honly t hs
        simp [hcount]
      · have htc : c ≠ t := fun he => by rw [← he, hc] at hs; cases hs
        simp [hcount, htc]
  · have htc : c ≠ t := fun he => by rw [← he, hexit] at ht; cases ht
    obtain ⟨hs, hcount⟩ := h.fresh t ht
    refine ⟨fun hs' => ?_, ?_⟩
    · rcases (hr.terminated t).1 hs' with he | hs'
      · exact htc he.symm
      · exact hs hs'
    · rw [hr.raised, List.count_cons]
      simp [hcount, htc]

/-- Nothing of a thread's end is read from the other fields. -/
theorem ExitOk.transfer (h : ExitOk s exiting) (hstate : s'.state = s.state) (hraised : s'.raised = s.raised)
    (hdisp : s'.disposition = s.disposition) : ExitOk s' exiting := by
  refine ⟨?_, ?_, ?_⟩
  · rw [hdisp]
    exact h.marked
  · unfold Leaving Gone
    rw [hstate, hraised, hdisp]
    exact h.done
  · rw [hstate, hraised]
    exact h.fresh

/-- A disposition other than `terminating` is stored only for a thread that is not leaving. -/
theorem ExitOk.setDisposition {t : Tid} {d : Disposition} (h : ExitOk s exiting) (hd : d ≠ .terminating)
    (hgone : exiting t = true → s.state t = .terminated) : ExitOk (s.setDisposition t d) exiting := by
  refine ⟨fun x hx => ?_, fun x hx => ?_, h.fresh⟩
  · simp only [Sched.setDisposition, Function.update_apply] at hx
    split at hx
    · exact absurd hx hd
    · exact h.marked x hx
  · refine (h.done x hx).imp_left ?_
    rintro ⟨hs, hterm, hcount⟩
    have hxt : x ≠ t := by
      rintro rfl
      simp [hgone hx] at hs
    exact ⟨hs, by simpa [Sched.setDisposition, hxt] using hterm, hcount⟩

theorem ExitOk.woken (h : ExitOk s exiting) (hw : s.Woken s') : ExitOk s' exiting := by
  refine h.kept hw.kept fun t ht hrun => ?_
  rcases hw.state t with hs | ⟨-, hst, hd⟩
  · rwa [hs]
  · -- a wake refuses a thread in `thread_exit`
    rcases h.done t ht with ⟨-, hterm, -⟩ | ⟨hterm, -⟩
    · exact absurd hterm hd
    · exact absurd hterm hst

/-- A decision on a core whose running thread is not in `thread_exit`. -/
theorem ExitOk.decide [Fintype Tid] {c : Tid} {fold : Tid → ℕ} {reason : Departure} (h : ExitOk s exiting)
    (hc : s.Consistent c) (hexit : exiting c = false) (hk : s.Kept (s.decide fold reason)) :
    ExitOk (s.decide fold reason) exiting :=
  h.kept hk fun t ht hrun => by
    rw [hc.only t hrun, hexit] at ht
    cases ht

end ExitOk

/-! ### Steps -/

section Steps

variable {k k' : Core Tid}

@[simp] theorem moveTo_exiting (k : Core Tid) (w : WakePlace Tid) : (k.moveTo w).exiting = k.exiting := by
  unfold moveTo
  split
  · rfl
  · split <;> rfl

theorem mem_moveTo_irqs {w w' : WakePlace Tid} (h : w' ∈ (k.moveTo w).irqs) : w' = w ∨ w' ∈ k.irqs := by
  unfold moveTo at h
  split at h
  · next ws hirqs =>
    rw [hirqs]
    rcases List.mem_cons.1 h with h | h
    · exact Or.inl h
    · exact Or.inr (List.mem_cons_of_mem _ h)
  · next hirqs =>
    split at h <;> exact Or.inr h

theorem executing_thread {w : WakePlace Tid} (h : k.executing = some w) (hirqs : k.irqs = []) :
    ∃ c, k.sched.currentThread = some c ∧ k.exiting c = false := by
  unfold executing at h
  rw [hirqs] at h
  dsimp only at h
  split at h
  · split at h
    · next c hcur =>
      split at h
      · cases h
      · next hc => exact ⟨c, hcur, by simpa using hc⟩
    · cases h
  · cases h

/-- Who clears a disposition does not clear that of a thread in `thread_exit` which is still there. -/
theorem ExitInv.clear_gone (hi : ExitInv k) {t : Tid} {policy : Policy}
    (hexec : k.executing = some (.clear t policy)) (ht : k.exiting t = true) : k.sched.state t = .terminated := by
  cases hirqs : k.irqs with
  | cons w ws =>
      obtain rfl : w = .clear t policy := by simpa [executing, hirqs] using hexec
      exact hi.frames t policy (by simp [hirqs]) ht
  | nil =>
      -- the running thread itself: had it been the one leaving, it would not be in a wake
      obtain ⟨c, hcur, hexit⟩ := executing_thread hexec hirqs
      obtain ⟨c', hc⟩ := hi.phase
      obtain rfl : c = c' := Option.some.inj (hcur.symm.trans hc.currentThread)
      rcases hi.exits.done t ht with ⟨hs, -, -⟩ | ⟨hs, -⟩
      · rw [hc.only t hs, hexit] at ht
        cases ht
      · exact hs

/-- One step: the invariant again, and nobody comes back from `thread_exit` or from retirement. -/
structure ExitStep (k k' : Core Tid) : Prop where
  inv : ExitInv k'
  exiting : ∀ t, k.exiting t = true → k'.exiting t = true
  terminated : ∀ t, k.sched.state t = .terminated → k'.sched.state t = .terminated

theorem ExitStep.refl (hi : ExitInv k) : ExitStep k k :=
  ⟨hi, fun _ h => h, fun _ h => h⟩

/-- The steps that leave interrupts and exits alone, and every retired thread retired. -/
theorem ExitInv.of_sched (hi : ExitInv k) (hinv : Inv True k')
    (hexits : ExitOk k'.sched k.exiting) (hexiting : k'.exiting = k.exiting)
    (hirqs : ∀ t policy, .clear t policy ∈ k'.irqs → .clear t policy ∈ k.irqs)
    (hterm : ∀ t, k.sched.state t = .terminated → k'.sched.state t = .terminated) :
    ExitStep k k' := by
  refine ⟨⟨hinv, by rwa [hexiting], fun t policy hmem ht => hterm t ?_⟩,
    fun t ht => by rwa [hexiting], hterm⟩
  rw [hexiting] at ht
  exact hi.frames t policy (hirqs t policy hmem) ht

variable [Fintype Tid]

/-- The condition on an interrupt's wake: it decides no preemption while the running thread is
terminating. -/
def SparesExit (k : Core Tid) : CoreAct Tid → Prop
  | .wakeReady fold .interrupt => ∀ t policy c, k.executing = some (.ready t policy) →
      k.sched.currentThread = some c → k.sched.disposition c = .terminating →
      (k.sched.makeReady fold t).2 = .warranted → policy = .never
  | _ => True

/-- The running thread that a wake's decision departs is not in `thread_exit`. -/
theorem ExitInv.decided_not_exiting (hi : ExitInv k) {t c : Tid} {policy : Policy}
    {fold : Tid → ℕ} {road : Road} (hexec : k.executing = some (.ready t policy))
    (hopen : k.roadOpen road = true) (hspare : SparesExit k (.wakeReady fold road))
    (hroad : road ≠ .deferred) (hhint : (k.sched.makeReady fold t).2 = .warranted)
    (hpolicy : policy ≠ .never) (hc : k.sched.Settled c) : k.exiting c = false := by
  cases road with
  | baseline =>
      simp only [roadOpen, List.isEmpty_iff] at hopen
      obtain ⟨c', hcur, hc'⟩ := executing_thread hexec hopen
      obtain rfl : c = c' := Option.some.inj (hc.currentThread.symm.trans hcur)
      exact hc'
  | interrupt =>
      by_contra he
      rcases hi.exits.done c (by simpa using he) with ⟨-, hd, -⟩ | ⟨hs, -⟩
      · exact hpolicy (hspare t policy c hexec hc.currentThread hd hhint)
      · rw [hc.running] at hs
        cases hs
  | deferred => exact absurd rfl hroad

/-- A wake, with the decision it warrants. -/
theorem ExitInv.setThreadReady (hi : ExitInv k) {t : Tid} {policy : Policy} {fold : Tid → ℕ} {road : Road}
    (hexec : k.executing = some (.ready t policy)) (hopen : k.roadOpen road = true)
    (hspare : SparesExit k (.wakeReady fold road)) :
    ExitOk (setThreadReady k.sched fold t policy road) k.exiting := by
  obtain ⟨htidy, hw⟩ := hi.tidy.makeReady fold t
  have hready := hi.exits.woken hw
  unfold Core.setThreadReady
  dsimp only
  split
  · next hdec =>
    obtain ⟨c, hc⟩ := hi.settled (handler_of_roadOpen hexec hopen hdec.2.2)
    have hc₁ := hc.toConsistent.woken htidy hw
    obtain ⟨p, -, hkept⟩ := hc₁.decide fold .preempted (by decide) (by simp)
    have hexit := hi.decided_not_exiting hexec hopen hspare hdec.2.2 hdec.1 hdec.2.1 hc
    exact hready.decide hc₁ hexit hkept
  · exact hready

/-- A decision the running thread makes for itself. -/
theorem ExitInv.threadDecide (hi : ExitInv k) {c : Tid} {fold : Tid → ℕ} {reason : Departure}
    (hrun : k.runningThread = some c) (hreason : reason ≠ .exited)
    (hpark : reason = .parked → c ≠ k.sched.idleThread ∧ k.sched.disposition c ≠ .terminating)
    (hinv : Inv True { k with sched := k.sched.decide fold reason }) :
    ExitStep k { k with sched := k.sched.decide fold reason } := by
  have hexit := (runningThread_eq_some hrun).2.2.2.1
  have hc := (hi.toInv.running hrun).2.2.toConsistent
  obtain ⟨p, -, hkept⟩ := hc.decide fold reason hreason hpark
  exact hi.of_sched hinv (hi.exits.decide hc hexit hkept) rfl (fun _ _ => id) fun x => (hkept.terminated x).2

omit [Fintype Tid] in
/-- The running thread stores its end. -/
theorem ExitOk.exit {c : Tid} (h : ExitOk k.sched k.exiting) (hexit : k.exiting c = false)
    (hrun : k.sched.state c = .running) :
    ExitOk (k.sched.setDisposition c .terminating) (Function.update k.exiting c true) := by
  refine ⟨fun x hx => ?_, fun x hx => ?_, fun x hx => ?_⟩
  · simp only [Sched.setDisposition, Function.update_apply] at hx ⊢
    split at hx
    · next he => simp [he]
    · next he => simpa [he] using h.marked x hx
  · by_cases hxc : x = c
    · subst hxc
      exact Or.inl ⟨hrun, by simp [Sched.setDisposition], (h.fresh x hexit).2⟩
    · simp only [Function.update_of_ne hxc] at hx
      simp only [Leaving, Gone, Sched.setDisposition, Function.update_of_ne hxc]
      exact h.done x hx
  · have hxc : x ≠ c := fun he => by simp [he] at hx
    simp only [Function.update_of_ne hxc] at hx
    exact h.fresh x hx

/-- The condition of the results below: no wake readies the running thread, and no interrupt's wake
decides while the running thread is terminating. -/
def ExitUndisturbed (k : Core Tid) (act : CoreAct Tid) : Prop :=
  ReadiesNoRunning k act ∧ SparesExit k act

/-- **One step keeps the invariant**, provided it meets the condition. -/
theorem ExitInv.next {act : CoreAct Tid} (hi : ExitInv k) (hok : ExitUndisturbed k act)
    (h : k.next act = some k') : ExitStep k k' := by
  have hinv := hi.toInv.next (fun _ => hok.1) h
  obtain ⟨c, hc⟩ := hi.phase
  cases effect_of_next h with
  | refused | unparked | claimed => exact ExitStep.refl hi
  | irqEnter => exact hi.of_sched hinv hi.exits rfl (fun _ _ hmem => by simpa using hmem) fun _ => id
  | irqReturn hirqs =>
      exact hi.of_sched hinv hi.exits rfl (fun _ _ hmem => hirqs ▸ List.mem_cons_of_mem _ hmem) fun _ => id
  | @wake t policy _ hlive =>
      refine ⟨⟨hinv, by simpa using hi.exits, fun x p hmem hx => ?_⟩, by simp, by simp⟩
      simp only [moveTo_sched, moveTo_exiting] at hx ⊢
      rcases mem_moveTo_irqs hmem with he | hmem
      · cases he
        rcases hi.exits.done t hx with ⟨-, hd, -⟩ | ⟨hs, -⟩
        · exact absurd (Or.inr hd) hlive
        · exact hs
      · exact hi.frames x p hmem hx
  | clear hexec =>
      refine hi.of_sched hinv ?_ (by simp) (fun x p hmem => (mem_moveTo_irqs hmem).resolve_left (by simp))
        fun x hx => by simpa [Sched.setDisposition] using hx
      rw [moveTo_sched]
      exact hi.exits.setDisposition (by decide) (hi.clear_gone hexec)
  | look =>
      refine hi.of_sched hinv (by simpa using hi.exits) (by simp) (fun x p hmem => ?_) fun x hx => by simpa using hx
      exact (mem_moveTo_irqs hmem).resolve_left (by split <;> simp)
  | @ready fold road t policy hexec hopen =>
      obtain ⟨-, hkept⟩ := hc.setThreadReady fold policy road (handler_of_roadOpen hexec hopen)
        fun _ => hok.1 t policy hexec
      exact hi.of_sched hinv (hi.setThreadReady hexec hopen hok.2) (by simp)
        (fun x p hmem => (mem_moveTo_irqs hmem).resolve_left (by simp)) fun x => (hkept.terminated x).2
  | prepare hrun | unprepare hrun =>
      have hexit := (runningThread_eq_some hrun).2.2.2.1
      exact hi.of_sched hinv (hi.exits.setDisposition (by decide) (by simp [hexit])) rfl (fun _ _ => id) fun _ => id
  | park hrun hidle hprep => exact hi.threadDecide hrun (by decide) (fun _ => ⟨hidle, by simp [hprep]⟩) hinv
  | yield hrun => exact hi.threadDecide hrun (by decide) (by simp) hinv
  | @exit c' hrun =>
      obtain ⟨hirqs, hh, hc'⟩ := hi.toInv.running hrun
      have hstore := hi.exits.exit (runningThread_eq_some hrun).2.2.2.1 (hc'.settled trivial (Or.inl hh))
      refine ⟨⟨hinv, hstore, fun x p hmem => by simp [hirqs] at hmem⟩, fun x hx => ?_, fun _ => id⟩
      simp only [Function.update_apply]
      split
      · rfl
      · exact hx
  | hold | take | claim | push | file =>
      exact hi.of_sched hinv (hi.exits.transfer rfl rfl rfl) rfl (fun _ _ => id) fun _ => id
  | enter | prev | switch => exact hi.of_sched hinv hi.exits rfl (fun _ _ => id) fun _ => id
  | @service t =>
      obtain ⟨ht, hw⟩ := hi.tidy.takeRequests t
      have hw' := hw.trans (ht.revokePrepared t).2
      exact hi.of_sched hinv (hi.exits.woken hw') rfl (fun _ _ => id) fun x => (hw'.terminated_iff x).2
  | @skip t =>
      obtain ⟨-, hw⟩ := hi.tidy.takeRequests t
      exact hi.of_sched hinv (hi.exits.woken hw) rfl (fun _ _ => id) fun x => (hw.terminated_iff x).2
  | @serviced fold t =>
      obtain ⟨-, hw⟩ := hi.tidy.makeReady fold t
      exact hi.of_sched hinv (hi.exits.woken hw) rfl (fun _ _ => id) fun x => (hw.terminated_iff x).2
  | guard _ hh hs =>
      obtain ⟨hcons, hidle⟩ := hi.guarded hh
      obtain ⟨p, -, hdone⟩ := hcons.rescheduleGuarded hidle hs
      rcases hdone with ⟨hrun, hd, hret⟩ | ⟨hnot, hkept⟩
      · exact hi.of_sched hinv (hi.exits.retired hcons.only hrun hd hret) rfl (fun _ _ => id)
          fun x hx => (hret.terminated x).2 (Or.inr hx)
      · -- a thread that is leaving would have been found running and terminating
        refine hi.of_sched hinv (hi.exits.kept hkept fun t ht hrun => ?_) rfl (fun _ _ => id)
          fun x => (hkept.terminated x).2
        obtain rfl := hcons.only t hrun
        rcases hi.exits.done t ht with ⟨-, hd, -⟩ | ⟨hs', -⟩
        · exact absurd ⟨hrun, hd⟩ hnot
        · rw [hrun] at hs'
          cases hs'

theorem exitInv_boot (idle : Tid) (basePriority : Tid → Level) (threads : List Tid) :
    ExitInv (boot idle basePriority threads) := by
  have hkept := Sched.kept_boot idle basePriority threads
  refine ⟨inv_boot idle basePriority threads, ⟨fun t ht => ?_, fun t ht => ?_, fun t _ => ⟨fun ht => ?_, ?_⟩⟩,
    fun t p hmem => ?_⟩
  · have := (hkept.terminating t).1 ht
    simp [Sched.initialise] at this
  · simp [boot] at ht
  · have := (hkept.terminated t).1 ht
    simp only [Sched.initialise, Function.update_apply] at this
    split at this <;> cases this
  · rw [show (boot idle basePriority threads).sched.raised = [] from hkept.raised]
    rfl
  · simp [boot] at hmem

theorem exitInv_run {k₁ k₂ : Core Tid} {acts : List (CoreAct Tid)} (hi : ExitInv k₁)
    (hok : Meets Core.next ExitUndisturbed k₁ acts) (h : run Core.next k₁ acts = some k₂) :
    ExitStep k₁ k₂ := by
  refine run_invariant_of_meets (I := fun k => ExitStep k₁ k) (fun k act k' hk hact hnext => ?_)
    (ExitStep.refl hi) hok h
  have hstep := hk.inv.next hact hnext
  exact ⟨hstep.inv, fun t ht => hstep.exiting t (hk.exiting t ht),
    fun t ht => hstep.terminated t (hk.terminated t ht)⟩

end Steps

/-! ### The end of a thread -/

variable [Fintype Tid]

/-- **Termination is kept.**  In every run that meets the condition, a thread that is terminating in
some state `k₁` is in no later state `k₂` filed anywhere: it has stayed the running thread since, or it
has been retired, with its termination raised once. -/
theorem termination_kept (idle : Tid) (basePriority : Tid → Level) (threads : List Tid)
    (acts₁ acts₂ : List (CoreAct Tid)) (k₁ k₂ : Core Tid) (t : Tid)
    (hok : Meets Core.next ExitUndisturbed (boot idle basePriority threads) (acts₁ ++ acts₂))
    (h₁ : run Core.next (boot idle basePriority threads) acts₁ = some k₁)
    (h₂ : run Core.next k₁ acts₂ = some k₂) (ht : k₁.sched.disposition t = .terminating) :
    k₂.sched.isEnqueued t = false ∧ k₂.sched.isListedHolder t = false ∧
      ((k₁.sched.state t = .running ∧ k₂.sched.state t = .running ∧
          k₂.sched.currentThread = some t ∧ k₂.sched.raised.count t = 0) ∨
        (k₂.sched.state t = .terminated ∧ k₂.sched.raised.count t = 1)) := by
  obtain ⟨hok₁, hok₂⟩ := (meets_append h₁).1 hok
  have hi₁ := (exitInv_run (exitInv_boot idle basePriority threads) hok₁ h₁).inv
  have hstep := exitInv_run hi₁ hok₂ h₂
  have hexit₁ := hi₁.exits.marked t ht
  have hdone := hstep.inv.exits.done t (hstep.exiting t hexit₁)
  have hnot : t ∉ k₂.sched.readySet := fun hr => by
    rcases hdone with ⟨hs, -, -⟩ | ⟨hs, -⟩ <;> exact absurd (hs.symm.trans hr.1) (by decide)
  rw [hstep.inv.tidy.filed.mem_iff, Bool.not_eq_true, Bool.or_eq_false_iff] at hnot
  refine ⟨hnot.1, hnot.2, hdone.imp (fun ⟨hs, _, hc⟩ => ?_) id⟩
  obtain ⟨c, hcur⟩ := hstep.inv.phase
  refine ⟨?_, hs, by rw [hcur.currentThread, hcur.only t hs], hc⟩
  rcases hi₁.exits.done t hexit₁ with ⟨hs₁, -, -⟩ | ⟨hs₁, -⟩
  · exact hs₁
  · rw [hstep.terminated t hs₁] at hs
    cases hs

/-- Thread 2 parks, and thread 1 enters `thread_exit`. -/
def exitBegun : List (CoreAct (Fin 3)) := [.prepare, .commitToBlock fun _ => 0, .threadExit]

/-- Before thread 1 yields, an interrupt wakes thread 2, which is the more urgent. -/
def exitPreempted : List (CoreAct (Fin 3)) :=
  [.irqEnter, .wake 2 .automatic, .wakeClear, .wakeLook, .wakeReady (fun _ => 0) .interrupt, .irqReturn]

/-- Thread 1 yields to the handler. -/
def exitServed : List (CoreAct (Fin 3)) :=
  [.handlerEnter, .handlerTake, .handlerPrev, .handlerGuard (fun _ => 0) [], .handlerSwitch]

/-- Then thread 2 parks again. -/
def exitResumed : List (CoreAct (Fin 3)) := [.prepare, .commitToBlock fun _ => 0]

/-- **A terminating thread can be filed**, and become the running thread again once the other parks. -/
theorem exit_preempted_is_filed :
    (run Core.next (boot 0 twoThreads [1, 2]) exitBegun).map (fun k => k.sched.disposition 1) =
        some .terminating ∧
      (run Core.next (boot 0 twoThreads [1, 2]) (exitBegun ++ exitPreempted)).map
        (fun k => (k.sched.disposition 1, k.sched.state 1, k.sched.isEnqueued 1)) =
        some (.terminating, .ready, true) ∧
      (run Core.next (boot 0 twoThreads [1, 2]) (exitBegun ++ exitPreempted ++ exitResumed)).map
        (fun k => (k.sched.currentThread, k.sched.state 1, k.sched.raised)) =
        some (some 1, .running, []) :=
  ⟨rfl, rfl, rfl⟩

theorem termination_kept_served :
    ∃ k₁ k₂, run Core.next (boot 0 twoThreads [1, 2]) exitBegun = some k₁ ∧
      run Core.next k₁ exitServed = some k₂ ∧ k₂.sched.isEnqueued 1 = false ∧
      k₂.sched.state 1 = .terminated ∧ k₂.sched.raised.count 1 = 1 := by
  have hbegun : (run Core.next (boot 0 twoThreads [1, 2]) exitBegun).map
      (fun k => k.sched.disposition 1) = some .terminating := rfl
  have hserved : (run Core.next (boot 0 twoThreads [1, 2]) (exitBegun ++ exitServed)).map
      (fun k => k.sched.state 1) = some .terminated := rfl
  obtain ⟨k₁, h₁, hd⟩ := Option.map_eq_some_iff.1 hbegun
  obtain ⟨k₂, h₁₂, hs⟩ := Option.map_eq_some_iff.1 hserved
  rw [run_append, h₁] at h₁₂
  have hok : Meets Core.next ExitUndisturbed (boot 0 twoThreads [1, 2]) (exitBegun ++ exitServed) :=
    ⟨⟨trivial, trivial⟩, ⟨trivial, trivial⟩, ⟨trivial, trivial⟩, ⟨trivial, trivial⟩,
      ⟨trivial, trivial⟩, ⟨trivial, trivial⟩, ⟨trivial, trivial⟩, ⟨trivial, trivial⟩, trivial⟩
  have h := termination_kept 0 twoThreads [1, 2] exitBegun exitServed k₁ k₂ 1 hok h₁ h₁₂ hd
  refine ⟨k₁, k₂, h₁, h₁₂, h.1, ?_⟩
  rcases h.2.2 with ⟨-, hrun, -⟩ | hdone
  · rw [hs] at hrun
    cases hrun
  · exact hdone

end Cyros.Kernel.Core
