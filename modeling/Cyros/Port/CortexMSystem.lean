import Cyros.Port.CortexMKernel
import Mathlib.Data.Sigma.Basic

/-!
# The Cortex-M cores of one system

Every core runs its own kernel core over its own registers; the thread contexts lie in memory all cores
share.  A step of the system is a step of one core (`Ported.step`), so a run is any interleaving.

* `Agreement` is what the kernel and the port agree on in a state: whose frame a save stores, what the
  reschedule handler finds, whom PendSV returns to.
* ARMv7-M and ARMv8-M agree in every state of every run.
* ARMv6-M answers `interrupted_at_baseline` inside PendSV as well.  A wake decided there, past PendSV's
  masked look, changes the current thread under `reschedule`, which `armv6m_decides_inside` runs to its
  end.  In the runs without such a decision the agreement holds.
-/

namespace Cyros.Port.CortexM

open Cyros.Lib Cyros.Kernel

/-- The cores, each with the threads pinned to it. -/
structure System {n : ℕ} (T : Fin n → Type) where
  kernel : ∀ c, Core (T c)
  picked : ∀ c, Option (Option (T c) × T c)
  cpu : Fin n → Cpu (Σ c, T c)
  contexts : (Σ c, T c) → Context (Σ c, T c)
  resumedOn : (Σ c, T c) → Option ℕ

namespace System

variable {n : ℕ} {T : Fin n → Type}

/-- What one core sees. -/
def view (S : System T) (c : Fin n) : Ported (Σ c, T c) (T c) where
  contexts := S.contexts
  cpu := S.cpu c
  kernel := S.kernel c
  picked := S.picked c
  resumedOn := S.resumedOn

/-- One core moved. -/
def put (S : System T) (c : Fin n) (q : Ported (Σ c, T c) (T c)) : System T where
  kernel := Function.update S.kernel c q.kernel
  picked := Function.update S.picked c q.picked
  cpu := Function.update S.cpu c q.cpu
  contexts := q.contexts
  resumedOn := q.resumedOn

@[simp] theorem view_put_self (S : System T) (c : Fin n) (q : Ported (Σ c, T c) (T c)) :
    (S.put c q).view c = q := by
  simp [view, put]

theorem view_put_of_ne (S : System T) {c d : Fin n} (q : Ported (Σ c, T c) (T c)) (hd : d ≠ c) :
    (S.put c q).view d = { S.view d with contexts := q.contexts, resumedOn := q.resumedOn } := by
  simp [view, put, hd]

variable [∀ c, DecidableEq (T c)] [∀ c, Fintype (T c)]

/-- A step of core `act.1`. -/
def next (arch : Arch) (S : System T) (act : Σ c, PortedAct (T c)) : Option (System T) :=
  ((S.view act.1).step ⟨arch, n⟩ act.1 (Sigma.mk act.1) act.2).map (S.put act.1)

/-- Every core past `cyros_port_start_first`, every other context as `cyros_port_context_init` left it. -/
def boot (idle : ∀ c, T c) (basePriority : ∀ c, T c → Level)
    (threads : ∀ c, List (T c)) (stackLimit : (Σ c, T c) → ℕ) : System T :=
  let kernel := fun c => Core.boot (idle c) (basePriority c) (threads c)
  let first := fun c => (kernel c).sched.currentThread
  { kernel := kernel
    picked := fun _ => none
    cpu := fun c =>
      { psp := (first c).map (Sigma.mk c)
        currentTls := 0
        guard := (first c).elim 0 fun t => stackLimit ⟨c, t⟩
        owed := ⟨none, none, false⟩
        pending := false
        primask := false
        preempt := 0
        deferred := false
        pendsv := .idle }
    contexts := fun x => ⟨some x, 0, stackLimit x, if first x.1 = some x.2 then x.1 else 0⟩
    resumedOn := fun x => if first x.1 = some x.2 then some x.1 else none }

/-! ### Agreement -/

/-- The thread the kernel counts as running on a core, by its context. -/
def currentContext (S : System T) (c : Fin n) : Option (Σ c, T c) :=
  (S.kernel c).sched.currentThread.map (Sigma.mk c)

/-- **What the kernel and the port agree on.** -/
structure Agreement (arch : Arch) (S : System T) : Prop where
  /-- A save goes into the context of the thread whose frame the stack pointer holds. -/
  saves : ∀ c act S' x, S.next arch ⟨c, act⟩ = some S' →
    (S.view c).savesInto arch (Sigma.mk c) act = some x → (S.cpu c).psp = some x
  /-- The reschedule handler, from its call to its pick, runs on the current thread's frame. -/
  handler : ∀ c, (S.kernel c).handler ≠ .idle → (S.kernel c).handler ≠ .switching →
    (S.cpu c).psp = S.currentContext c
  /-- So does PendSV as it returns. -/
  returns : ∀ c, (S.cpu c).pendsv = .returning → (S.cpu c).psp = S.currentContext c
  running : ∀ c t, (S.kernel c).sched.state t = .running → (S.kernel c).sched.currentThread = some t
  /-- A live thread's context names the core that last resumed it.  ARMv6-M's has no such field. -/
  named : arch = .mainline → ∀ c t core, (S.kernel c).sched.state t ≠ .terminated →
    S.resumedOn ⟨c, t⟩ = some core → (S.contexts ⟨c, t⟩).core = core

/-- Every core's invariant. -/
def Inv (arch : Arch) (S : System T) : Prop :=
  ∀ c, (S.view c).Inv ⟨arch, n⟩ c (Sigma.mk c)

omit [∀ c, DecidableEq (T c)] [∀ c, Fintype (T c)] in
theorem current_eq {arch : Arch} {S : System T} (hi : Inv arch S) (c : Fin n) :
    ∃ cur, (S.kernel c).sched.currentThread = some cur ∧ S.currentContext c = some ⟨c, cur⟩ ∧
      (∀ t, (S.kernel c).sched.state t = .running → t = cur) := by
  obtain ⟨cur, hcur, -, honly, -⟩ := (hi c).current
  have hcur' : (S.kernel c).sched.currentThread = some cur := hcur
  exact ⟨cur, hcur', by simp [currentContext, hcur'], honly⟩

theorem Inv.agreement {arch : Arch} {S : System T} (hi : Inv arch S) : S.Agreement arch where
  saves c act S' x h hx := by
    obtain ⟨q, hq, -⟩ := Option.map_eq_some_iff.mp h
    exact (hi c).psp_of_savesInto hq hx
  handler c hbusy hswitching := by
    obtain ⟨cur, hcur, heq, -⟩ := current_eq hi c
    have hplace := (hi c).handler hbusy
    rw [heq]
    exact (((hi c).agrees cur hcur).of_served (by simp [hplace, Dispatch.Served]) hswitching).2
  returns c hplace := by
    obtain ⟨cur, hcur, heq, -⟩ := current_eq hi c
    rw [heq]
    exact ((hi c).psp_of_returning hplace hcur).2
  running c t ht := by
    obtain ⟨cur, hcur, -, honly⟩ := current_eq hi c
    rw [hcur, honly t ht]
  named harch c t core hlive hres := by
    rw [(hi c).stacked.resumed t core hres]
    refine (hi c).stacked.named harch t hlive (Or.inl fun hnone => ?_)
    cases hres.symm.trans hnone

/-- A step of one core, by its invariant and by what it leaves alone. -/
theorem Inv.next {arch : Arch} {S S' : System T} {act : Σ c, PortedAct (T c)} (hi : Inv arch S)
    (hok : (S.view act.1).DecidesOutside arch act.2) (h : S.next arch act = some S') : Inv arch S' := by
  obtain ⟨c, act⟩ := act
  obtain ⟨q, hq, rfl⟩ := Option.map_eq_some_iff.mp h
  have hinjective : Function.Injective (Sigma.mk c : T c → Σ c, T c) := sigma_mk_injective
  intro d
  by_cases hd : d = c
  · subst hd
    rw [view_put_self]
    exact (hi d).step hinjective d.isLt hok hq
  · rw [view_put_of_ne S q hd]
    have hsame := fun t => (hi c).step_sameElsewhere hq ⟨d, t⟩ fun t' heq => hd (congrArg Sigma.fst heq)
    exact (hi d).elsewhere (fun t => (hsame t).1) fun t => (hsame t).2

theorem inv_boot (arch : Arch) (idle : ∀ c, T c) (basePriority : ∀ c, T c → Level)
    (threads : ∀ c, List (T c)) (stackLimit : (Σ c, T c) → ℕ) :
    Inv arch (boot idle basePriority threads stackLimit) := by
  intro c
  have hkernel : Core.Inv False (Core.boot (idle c) (basePriority c) (threads c)) :=
    Core.inv_boot (idle c) (basePriority c) (threads c)
  obtain ⟨first, hfirst⟩ := hkernel.phase
  have hcur := hfirst.currentThread
  have hpsp : (((boot idle basePriority threads stackLimit).view c).cpu).psp = some ⟨c, first⟩ :=
    congrArg (Option.map (Sigma.mk c)) hcur
  refine ⟨hkernel, fun _ => rfl, fun _ h => absurd rfl h, fun h => absurd rfl h, fun cur hcur' => ?_, ?_⟩
  · obtain rfl : first = cur := Option.some.inj (hcur.symm.trans hcur')
    exact .awaiting (Or.inl rfl) (Or.inl ⟨rfl, hpsp⟩)
  · refine ⟨⟨first, hpsp, if_pos hcur⟩, fun _ _ => rfl, fun t k hk => ?_, fun _ t _ hres => ?_⟩
    · obtain ⟨-, hk⟩ := Option.ite_none_right_eq_some.mp hk
      exact (Option.some.inj hk).symm
    · by_cases ht : (Core.boot (idle c) (basePriority c) (threads c)).sched.currentThread = some t
      · exact if_pos ht
      · -- a context that no switch has loaded yet names core 0
        rcases hres with hres | hone
        · exact absurd (if_neg ht) hres
        · have hzero : (c : ℕ) = 0 := by have := c.isLt; simp only at hone; omega
          rw [hzero]
          exact if_neg ht

/-! ### ARMv7-M and ARMv8-M -/

/-- **On ARMv7-M and ARMv8-M the kernel and the port agree** in every state of every run, with interrupts
nested to any depth and landing between any two steps. -/
theorem mainline_agreement (idle : ∀ c, T c) (basePriority : ∀ c, T c → Level)
    (threads : ∀ c, List (T c)) (stackLimit : (Σ c, T c) → ℕ) {acts : List (Σ c, PortedAct (T c))}
    {S : System T} (hrun : run (next .mainline) (boot idle basePriority threads stackLimit) acts = some S) :
    S.Agreement .mainline := by
  refine Inv.agreement (run_invariant (I := Inv .mainline) (fun S act S' hi h => ?_)
    (inv_boot .mainline idle basePriority threads stackLimit) hrun)
  exact hi.next (Ported.decidesOutside_mainline _ act.2) h

/-- Two cores with an idle thread and two others each, the second of them the more urgent. -/
def twoCores : System fun _ : Fin 2 => Fin 3 :=
  boot (fun _ => 0) (fun _ => Core.twoThreads) (fun _ => [1, 2]) fun _ => 0

/-- The steps taken by core 1. -/
def onCoreOne (acts : List (PortedAct (Fin 3))) : List (Σ _ : Fin 2, PortedAct (Fin 3)) :=
  acts.map (Sigma.mk 1)

/-- PendSV carries out an owed switch. -/
def servesOwed : Arch → List (PortedAct (Fin 3))
  | .mainline => [.pendSvEnter, .dispatch, .dispatch, .dispatch, .dispatch]
  | .armv6m => [.pendSvEnter, .dispatch]

/-- Thread 2 parks, and PendSV makes the switch to thread 1. -/
def secondParks (arch : Arch) : List (PortedAct (Fin 3)) :=
  [.kernel .prepare, .commitToBlock fun _ => 0] ++ servesOwed arch ++ [.pendSvReturn]

/-- An interrupt wakes thread 2. -/
def wakesSecond : List (PortedAct (Fin 3)) :=
  [.irqEnter, .kernel (.wake 2 .automatic), .kernel .wakeClear, .kernel .wakeLook,
    .wakeReady fun _ => 0, .irqReturn]

/-- The interrupt's wake is decided, and PendSV is about to return to thread 2. -/
theorem mainline_agreement_woken :
    ∃ S, run (next .mainline) twoCores
        (onCoreOne (secondParks .mainline ++ wakesSecond ++ servesOwed .mainline)) = some S ∧
      (S.cpu 1).psp = some ⟨1, 2⟩ ∧ S.Agreement .mainline := by
  have hrun : (run (next .mainline) twoCores
      (onCoreOne (secondParks .mainline ++ wakesSecond ++ servesOwed .mainline))).map
        (fun S => (S.cpu 1).psp) = some (some ⟨1, 2⟩) := rfl
  obtain ⟨S, hS, hpsp⟩ := Option.map_eq_some_iff.mp hrun
  exact ⟨S, hS, hpsp, mainline_agreement _ _ _ _ hS⟩

/-! ### ARMv6-M -/

/-- **On ARMv6-M the kernel and the port agree** in every state of every run in which no interrupt's wake
is decided inside PendSV past its look at the owed switch. -/
theorem armv6m_agreement (idle : ∀ c, T c) (basePriority : ∀ c, T c → Level)
    (threads : ∀ c, List (T c)) (stackLimit : (Σ c, T c) → ℕ) {acts : List (Σ c, PortedAct (T c))}
    {S : System T}
    (hok : Meets (next .armv6m) (fun S act => (S.view act.1).DecidesOutside .armv6m act.2)
      (boot idle basePriority threads stackLimit) acts)
    (hrun : run (next .armv6m) (boot idle basePriority threads stackLimit) acts = some S) :
    S.Agreement .armv6m :=
  Inv.agreement (run_invariant_of_meets (I := Inv .armv6m) (fun _ _ _ hi hok h => hi.next hok h)
    (inv_boot .armv6m idle basePriority threads stackLimit) hok hrun)

/-- The same wake on ARMv6-M, before PendSV is taken. -/
theorem armv6m_agreement_woken :
    ∃ S, run (next .armv6m) twoCores
        (onCoreOne (secondParks .armv6m ++ wakesSecond ++ servesOwed .armv6m)) = some S ∧
      (S.cpu 1).psp = some ⟨1, 2⟩ ∧ S.Agreement .armv6m := by
  have hrun : (run (next .armv6m) twoCores
      (onCoreOne (secondParks .armv6m ++ wakesSecond ++ servesOwed .armv6m))).map
        (fun S => (S.cpu 1).psp) = some (some ⟨1, 2⟩) := rfl
  obtain ⟨S, hS, hpsp⟩ := Option.map_eq_some_iff.mp hrun
  refine ⟨S, hS, hpsp, armv6m_agreement _ _ _ _ ?_ hS⟩
  exact ⟨trivial, trivial, trivial, trivial, trivial, trivial, trivial, trivial, trivial,
    fun _ _ _ _ _ _ => Or.inl rfl, trivial, trivial, trivial, trivial⟩

/-- Thread 2 is parked and thread 1 runs.  A reschedule is pended, and PendSV calls the handler, which
takes the intake. -/
def handlerCalled : List (PortedAct (Fin 3)) :=
  secondParks .armv6m ++
    [.pendSet, .pendSvEnter, .dispatch, .dispatch, .dispatch, .callHandler, .kernel .handlerTake]

/-- `reschedule` picks and switches. -/
def handlerSwitches : List (PortedAct (Fin 3)) := [.handlerGuard (fun _ => 0) [], .handlerSwitch]

/-- The wake lands after `reschedule` has read the current thread, and PendSV runs once more for the
switch it owes. -/
def wokenAfterRead : List (PortedAct (Fin 3)) :=
  handlerCalled ++ .kernel .handlerPrev :: wakesSecond ++ handlerSwitches ++
    [.handlerReturn, .pendSvReturn] ++ servesOwed .armv6m

/-- The wake lands just before. -/
def wokenBeforeRead : List (PortedAct (Fin 3)) :=
  handlerCalled ++ wakesSecond ++ .kernel .handlerPrev :: handlerSwitches

/-- **A wake decided inside PendSV parts the kernel and the port.**  After the read, PendSV is left
returning to thread 2 with thread 1 current and thread 2 running.  Before it, thread 1's frame is saved
into thread 2's context. -/
theorem armv6m_decides_inside :
    (run (next .armv6m) twoCores (onCoreOne wokenAfterRead)).map (fun S =>
        ((S.cpu 1).pendsv, (S.cpu 1).psp, (S.kernel 1).sched.currentThread, (S.kernel 1).sched.state 2)) =
      some (.returning, some ⟨1, 2⟩, some 1, .running) ∧
    (run (next .armv6m) twoCores (onCoreOne wokenBeforeRead)).map (fun S => (S.contexts ⟨1, 2⟩).sp) =
      some (some ⟨1, 1⟩) :=
  ⟨rfl, rfl⟩

end System

end Cyros.Port.CortexM
