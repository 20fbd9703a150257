import Cyros.Kernel.CoreRun

/-!
# What a port sees of the kernel

A port switches stacks; of the kernel it depends on `current_thread`, on which threads are terminated, and
on where `reschedule` stands.  Most steps of the core change none of that (`next_quiet`).  The decisions
of `set_thread_ready`, `yield` and `park` change the current thread (`next_decides`), and so does the
guarded half of `reschedule`, which may also retire a thread (`next_guard`).
-/

namespace Cyros.Kernel.Core

open Cyros.Lib Cyros.Lib.IntrusiveQueue

variable {Tid : Type} [DecidableEq Tid] [Fintype Tid]

/-- The steps that neither decide nor enter or leave the scheduler. -/
def isQuiet : CoreAct Tid → Bool
  | .irqEnter | .irqReturn | .wakeReady .. | .commitToBlock _ | .yield _ | .handlerEnter | .handlerGuard ..
  | .handlerSwitch => false
  | _ => true

/-- The same current thread, and nobody terminated. -/
structure SameThreads (s s' : Sched Tid) : Prop where
  currentThread : s'.currentThread = s.currentThread
  terminated : ∀ t, s'.state t = .terminated ↔ s.state t = .terminated

/-- The handler moves between its own steps, outside the guard and the switch. -/
def HandlerMoves (h h' : HandlerPlace Tid) : Prop :=
  h' = h ∨ (h ≠ .idle ∧ h ≠ .switching) ∧ h' ≠ .idle ∧ h' ≠ .switching

omit [DecidableEq Tid] [Fintype Tid] in
theorem SameThreads.of_woken {s s' : Sched Tid} (h : s.Woken s') : SameThreads s s' :=
  ⟨h.currentThread, h.terminated_iff⟩

omit [DecidableEq Tid] [Fintype Tid] in
theorem SameThreads.of_state {s s' : Sched Tid} (hcur : s'.currentThread = s.currentThread)
    (hstate : s'.state = s.state) : SameThreads s s' :=
  ⟨hcur, fun t => by rw [hstate]⟩

omit [Fintype Tid] in
theorem moveTo_irqs_eq_nil (k : Core Tid) (w : WakePlace Tid) : (k.moveTo w).irqs = [] ↔ k.irqs = [] := by
  unfold moveTo
  split
  · next hirqs => simp [hirqs]
  · next hirqs => split <;> simp [hirqs]

variable {k k' : Core Tid}

/-- A step that decides nothing leaves the port nothing to do. -/
theorem next_quiet {act : CoreAct Tid} (hi : Inv False k) (hact : isQuiet act = true)
    (h : k.next act = some k') :
    SameThreads k.sched k'.sched ∧ HandlerMoves k.handler k'.handler ∧ (k'.irqs = [] ↔ k.irqs = []) := by
  cases effect_of_next h with
  | refused | claimed | prepare | unprepare | exit | hold | claim | push | file =>
      exact ⟨.of_state rfl rfl, Or.inl rfl, Iff.rfl⟩
  | wake | clear | look =>
      exact ⟨.of_state (by simp [Sched.setDisposition]) (by simp [Sched.setDisposition]), Or.inl (by simp),
        moveTo_irqs_eq_nil _ _⟩
  | take _ hh | prev _ hh => exact ⟨.of_state rfl rfl, Or.inr ⟨by simp [hh], by simp⟩, Iff.rfl⟩
  | @service t _ _ hh =>
      obtain ⟨htidy, hw⟩ := hi.tidy.takeRequests t
      exact ⟨.of_woken (hw.trans (htidy.revokePrepared t).2), Or.inr ⟨by simp [hh], by simp⟩, Iff.rfl⟩
  | @skip t _ _ hh => exact ⟨.of_woken (hi.tidy.takeRequests t).2, Or.inr ⟨by simp [hh], by simp⟩, Iff.rfl⟩
  | @serviced fold t _ _ hh =>
      exact ⟨.of_woken (hi.tidy.makeReady fold t).2, Or.inr ⟨by simp [hh], by simp⟩, Iff.rfl⟩
  | _ => cases hact

/-- A wake's last step, wherever the port says it stands, keeps the terminated threads and the places. -/
theorem next_wakeReady {fold : Tid → ℕ} {road : Road} (hi : Inv False k)
    (h : k.next (.wakeReady fold road) = some k') :
    (∀ t, k'.sched.state t = .terminated ↔ k.sched.state t = .terminated) ∧
      k'.handler = k.handler ∧ (k'.irqs = [] ↔ k.irqs = []) ∧
      (road = .deferred → k'.sched.currentThread = k.sched.currentThread) := by
  obtain ⟨c, hc⟩ := hi.phase
  cases effect_of_next h with
  | @ready _ _ t policy hexec hopen =>
      obtain ⟨-, hkept⟩ := hc.setThreadReady fold policy road
        (handler_of_roadOpen hexec hopen) fun hstrong => hstrong.elim
      refine ⟨hkept.terminated, by simp, moveTo_irqs_eq_nil k _, fun hroad => ?_⟩
      simp only [setThreadReady, hroad, ne_eq, not_true_eq_false, and_false, if_false]
      exact (hc.tidy.makeReady fold t).2.currentThread

/-- The running thread yields or parks. -/
theorem next_threadDecides {act : CoreAct Tid} (hi : Inv False k)
    (hact : (∃ fold, act = .yield fold) ∨ ∃ fold, act = .commitToBlock fold) (h : k.next act = some k') :
    (∀ t, k'.sched.state t = .terminated ↔ k.sched.state t = .terminated) ∧
      k'.handler = k.handler ∧ k'.irqs = k.irqs := by
  rcases hact with ⟨fold, rfl⟩ | ⟨fold, rfl⟩
  · cases effect_of_next h with
    | yield hrun =>
        obtain ⟨p, -, hkept⟩ := (hi.running hrun).2.2.toConsistent.decide fold .yielded (by decide) (by simp)
        exact ⟨hkept.terminated, rfl, rfl⟩
  · cases effect_of_next h with
    | unparked => exact ⟨fun _ => Iff.rfl, rfl, rfl⟩
    | park hrun hidle hprep =>
        obtain ⟨p, -, hkept⟩ := (hi.running hrun).2.2.toConsistent.decide fold .parked (by decide)
          fun _ => ⟨hidle, by simp [hprep]⟩
        exact ⟨hkept.terminated, rfl, rfl⟩

/-- `reschedule` retires the thread it read, rather than filing it. -/
def retires (s : Sched Tid) (prev : Tid) : Bool :=
  s.state prev == .running && s.departureOf prev == .exited

/-- The guarded half of `reschedule`: the thread it read is the current one, and is terminated exactly if it
was to be retired. -/
theorem next_guard {fold : Tid → ℕ} {joiners : List Tid} {prev : Tid} (hi : Inv False k)
    (hh : k.handler = .guard prev) (h : k.next (.handlerGuard fold joiners) = some k') :
    k.sched.currentThread = some prev ∧ k'.handler = .switching ∧ k'.irqs = k.irqs ∧
      ∀ t, k'.sched.state t = .terminated ↔
        k.sched.state t = .terminated ∨ t = prev ∧ retires k.sched prev = true := by
  cases effect_of_next h with
  | guard _ hh' hs =>
      rw [hh] at hh'
      cases hh'
      obtain ⟨hc, hidle⟩ := hi.guarded hh
      obtain ⟨p, -, hdone⟩ := hc.rescheduleGuarded hidle hs
      have hret : retires k.sched prev = true ↔
          k.sched.state prev = .running ∧ k.sched.disposition prev = .terminating := by
        rw [retires, Bool.and_eq_true, beq_iff_eq, beq_iff_eq, Sched.departureOf_eq_exited_iff]
      refine ⟨hc.currentThread, rfl, rfl, fun t => ?_⟩
      rw [hret]
      rcases hdone with ⟨hrun, hterm, hretired⟩ | ⟨hnot, hkept⟩
      · rw [hretired.terminated t]
        simp [hrun, hterm, or_comm]
      · rw [hkept.terminated t]
        simp [hnot]

theorem next_handlerEnter (h : k.next .handlerEnter = some k') : k' = { k with handler := .entered } := by
  cases effect_of_next h
  rfl

theorem next_handlerSwitch (h : k.next .handlerSwitch = some k') :
    k.handler = .switching ∧ k' = { k with handler := .idle } := by
  cases effect_of_next h with
  | switch _ hh => exact ⟨hh, rfl⟩

end Cyros.Kernel.Core
