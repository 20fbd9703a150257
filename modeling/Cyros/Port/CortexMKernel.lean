import Cyros.Kernel.PortView
import Cyros.Port.CortexM

/-!
# The kernel on a Cortex-M core

One core of the kernel (`Kernel.Core`) over one core of the port (`Machine`): the kernel's decisions, made
by threads, by interrupts nested to any depth and by `reschedule` inside PendSV, and the switches the port
makes for them later.  A step is one access outside a mask, or one masked section.

* The port says where a wake stands (`road`); a decision that changes the current thread is recorded as
  owed, by `direct_switch` on the thread's road and by `owe_switch` in an interrupt (`decided`).
* `reschedule` keeps the context to save and the thread to resume in local variables, from its guard to
  `cyros_port_switch` (`picked`).
* The stores of a pend, to `owed.reschedule` and to PENDSVSET, land at any moment.

`Agrees` says at each place of PendSV which thread's frame the process stack pointer holds.  `Inv.step` is
the step lemma, for every step of ARMv7-M and ARMv8-M and, on ARMv6-M, for every step but an interrupt's
decision inside PendSV past its look at the owed switch (`DecidesOutside`).
-/

namespace Cyros.Port.CortexM

open Cyros.Lib Cyros.Kernel

/-- A core of the kernel on a core of the port. -/
structure Ported (Ctx Tid : Type) extends Machine Ctx where
  kernel : Core Tid
  /-- `capture_context` and `next_thread` of `reschedule`, once it has picked. -/
  picked : Option (Option Tid × Tid)
  /-- The core that last resumed the context. -/
  resumedOn : Ctx → Option ℕ

inductive PortedAct (Tid : Type) where
  /-- A step of the kernel that decides nothing. -/
  | kernel (act : CoreAct Tid)
  | irqEnter
  | irqReturn
  | wakeReady (fold : Tid → ℕ)
  | yield (fold : Tid → ℕ)
  | commitToBlock (fold : Tid → ℕ)
  /-- The thread masks, unmasks, or sets its preempt grade. -/
  | mask
  | unmask
  | preempt (grade : ℕ)
  | pendFlag
  | pendSet
  | pendSvEnter
  | dispatch
  | callHandler
  | handlerGuard (fold : Tid → ℕ) (joiners : List Tid)
  | handlerSwitch
  | handlerReturn
  | pendSvReturn

/-- PendSV is past the owed switch. -/
def Dispatch.Served {Ctx : Type} : Dispatch Ctx → Prop
  | .idle | .entered | .switching _ | .clearing => False
  | _ => True

namespace Ported

variable {Ctx Tid : Type} [DecidableEq Ctx] [DecidableEq Tid]

/-- No interrupt is active and PendSV neither is nor is about to be: a thread executes. -/
def threadRuns (arch : Arch) (q : Ported Ctx Tid) : Bool :=
  q.kernel.irqs.isEmpty && q.cpu.pendsv == .idle && !q.cpu.takesPendSv arch

/-- An interrupt or a thread executes. -/
def wakes (arch : Arch) (q : Ported Ctx Tid) : Bool := !q.kernel.irqs.isEmpty || q.threadRuns arch

/-- `cyros_port_masked_from_baseline` and `cyros_port_interrupted_at_baseline`. -/
def road (arch : Arch) (q : Ported Ctx Tid) : Road :=
  if q.kernel.irqs.isEmpty then
    if q.cpu.primask = false ∧ q.cpu.preempt = 0 then .baseline else .deferred
  else if q.cpu.interruptedAtBaseline arch then .interrupt else .deferred

/-- `core_of`: the core a running thread's context names. -/
def coreOf (b : Build) (core : ℕ) (q : Ported Ctx Tid) (running : Ctx) : ℕ :=
  match b.arch with
  | .mainline => if b.coreCount = 1 then 0 else (q.contexts running).core
  | .armv6m => core

/-- The kernel is now `k`: a new current thread has the port record the switch.  `direct_switch` writes
the slot of the core its thread names, which another core's would not be. -/
def decided (b : Build) (core : ℕ) (e : Tid → Ctx) (q : Ported Ctx Tid) (k : Core Tid) :
    Option (Ported Ctx Tid) :=
  match q.kernel.sched.currentThread, k.sched.currentThread with
  | some prev, some next =>
      if next = prev then some { q with kernel := k }
      else if q.kernel.irqs.isEmpty then
        if q.coreOf b core (e prev) = core then
          some { q with kernel := k, cpu := q.cpu.directSwitch (e prev) (e next) }
        else none
      else some { q with kernel := k, cpu := q.cpu.oweSwitch (e prev) (e next) }
  | _, _ => none

/-- The kernel's steps that decide nothing, by whoever executes them. -/
def kernelStep [Fintype Tid] (arch : Arch) (q : Ported Ctx Tid) (act : CoreAct Tid) : Option (Core Tid) :=
  match act with
  | .wake .. | .wakeClear | .wakeLook => if q.wakes arch then q.kernel.next act else none
  | .prepare | .unprepare | .threadExit | .hold _ => if q.threadRuns arch then q.kernel.next act else none
  | .handlerTake | .handlerBits | .handlerReady _ | .handlerPrev =>
      if q.cpu.pendsv = .handling then q.kernel.next act else none
  | .remoteClaim _ | .remotePush _ | .remoteFile .. => q.kernel.next act
  | _ => none

/-- The last step of a wake: `set_thread_ready`, on the road the port says. -/
def wakeReadyStep [Fintype Tid] (b : Build) (core : ℕ) (e : Tid → Ctx) (q : Ported Ctx Tid)
    (fold : Tid → ℕ) : Option (Ported Ctx Tid) :=
  match q.kernel.executing with
  | some (.ready t policy) =>
      if q.wakes b.arch then
        q.decided b core e { q.kernel.moveTo .idle with
          sched := Core.setThreadReady q.kernel.sched fold t policy (q.road b.arch) }
      else none
  | _ => none

/-- The running thread's own decisions, which require baseline. -/
def threadDecides [Fintype Tid] (b : Build) (core : ℕ) (e : Tid → Ctx) (q : Ported Ctx Tid)
    (act : CoreAct Tid) : Option (Ported Ctx Tid) :=
  if q.threadRuns b.arch ∧ q.cpu.primask = false ∧ q.cpu.preempt = 0 then
    (q.kernel.next act).bind (q.decided b core e)
  else none

/-- The context a step of the dispatch resumes. -/
def loads (arch : Arch) (q : Ported Ctx Tid) : Option Ctx :=
  match arch, q.cpu.pendsv with
  | .mainline, .switching dest => some dest
  | .armv6m, .entered => q.cpu.owed.dest
  | _, _ => none

def resume (q : Ported Ctx Tid) (core : ℕ) : Option Ctx → Ported Ctx Tid
  | some dest => { q with resumedOn := Function.update q.resumedOn dest (some core) }
  | none => q

/-- The guarded half of `reschedule`, inside PendSV.  A thread it retires has its context destroyed, and
nothing is to be saved. -/
def guardStep [Fintype Tid] (e : Tid → Ctx) (q : Ported Ctx Tid) (fold : Tid → ℕ) (joiners : List Tid) :
    Option (Ported Ctx Tid) :=
  match q.kernel.handler with
  | .guard prev =>
      (q.kernel.next (.handlerGuard fold joiners)).bind fun k => k.sched.currentThread.map fun next =>
        if Core.retires q.kernel.sched prev then
          { q with
            kernel := k
            picked := some (none, next)
            contexts := Function.update q.contexts (e prev) (Context.destroyed Ctx) }
        else { q with kernel := k, picked := some (some prev, next) }
  | _ => none

/-- `cyros_port_switch`, at the end of `reschedule`. -/
def switchStep [Fintype Tid] (b : Build) (core : ℕ) (e : Tid → Ctx) (q : Ported Ctx Tid) :
    Option (Ported Ctx Tid) :=
  match q.picked with
  | some (capture, next) =>
      if (capture.elim core fun prev => q.coreOf b core (e prev)) = core then
        (q.kernel.next .handlerSwitch).map fun k =>
          { q with
            kernel := k
            picked := none
            toMachine := q.toMachine.switchStacks b core (capture.map e) (e next) }.resume core
              (some (e next))
      else none
  | none => none

/-- One step of the core. -/
def step [Fintype Tid] (b : Build) (core : ℕ) (e : Tid → Ctx) (q : Ported Ctx Tid) :
    PortedAct Tid → Option (Ported Ctx Tid)
  | .kernel act => (q.kernelStep b.arch act).map fun k => { q with kernel := k }
  | .irqEnter =>
      if q.cpu.primask then none else (q.kernel.next .irqEnter).map fun k => { q with kernel := k }
  | .irqReturn => (q.kernel.next .irqReturn).map fun k => { q with kernel := k }
  | .wakeReady fold => q.wakeReadyStep b core e fold
  | .yield fold => q.threadDecides b core e (.yield fold)
  | .commitToBlock fold => q.threadDecides b core e (.commitToBlock fold)
  | .mask => if q.threadRuns b.arch then some { q with cpu := { q.cpu with primask := true } } else none
  | .unmask => if q.threadRuns b.arch then some { q with cpu := { q.cpu with primask := false } } else none
  | .preempt grade =>
      if q.threadRuns b.arch then some { q with cpu := { q.cpu with preempt := grade } } else none
  | .pendFlag => some { q with cpu := q.cpu.askReschedule }
  | .pendSet => some { q with cpu := q.cpu.pendSvSet }
  | .pendSvEnter =>
      if q.kernel.irqs.isEmpty ∧ q.cpu.pendsv = .idle ∧ q.cpu.takesPendSv b.arch then
        some { q with cpu := { q.cpu with pending := false, pendsv := .entered } }
      else none
  | .dispatch =>
      if q.kernel.irqs.isEmpty then
        (q.toMachine.dispatch b core).map fun m => { q with toMachine := m }.resume core (q.loads b.arch)
      else none
  | .callHandler =>
      if q.cpu.pendsv = .calling then
        (q.kernel.next .handlerEnter).map fun k => { q with kernel := k, toMachine := q.toMachine.moveTo .handling }
      else none
  | .handlerGuard fold joiners => if q.cpu.pendsv = .handling then q.guardStep e fold joiners else none
  | .handlerSwitch => if q.cpu.pendsv = .handling then q.switchStep b core e else none
  | .handlerReturn =>
      if q.kernel.irqs.isEmpty ∧ q.cpu.pendsv = .handling ∧ q.kernel.handler = .idle then
        some { q with toMachine := q.toMachine.moveTo .returning }
      else none
  | .pendSvReturn =>
      if q.kernel.irqs.isEmpty ∧ q.cpu.pendsv = .returning then
        some { q with toMachine := q.toMachine.moveTo .idle }
      else none

/-- The context a step stores the process stack pointer into. -/
def savesInto (arch : Arch) (e : Tid → Ctx) (q : Ported Ctx Tid) : PortedAct Tid → Option Ctx
  | .dispatch => (q.loads arch).bind fun _ => q.cpu.owed.source
  | .handlerSwitch => (q.picked.bind Prod.fst).map e
  | _ => none

/-! ### The invariant -/

/-- Before PendSV looks: no switch is owed and the current thread is on the core, or the switch to the
current thread is owed, from the thread that is. -/
def Awaits (e : Tid → Ctx) (p : Cpu Ctx) (cur : Tid) : Prop :=
  (p.owed.dest = none ∧ p.psp = some (e cur)) ∨ (p.owed.dest = some (e cur) ∧ p.owed.source = p.psp)

/-- Whose frame the process stack pointer holds, with `cur` the kernel's current thread. -/
inductive Agrees (e : Tid → Ctx) (q : Ported Ctx Tid) (cur : Tid) : Prop where
  | awaiting (place : q.cpu.pendsv = .idle ∨ q.cpu.pendsv = .entered) (awaits : Awaits e q.cpu cur)
  /-- ARMv7-M, with the owed switch read and not made, and made and not cleared. -/
  | switching (place : q.cpu.pendsv = .switching (e cur)) (source : q.cpu.owed.source = q.cpu.psp)
  | clearing (place : q.cpu.pendsv = .clearing) (psp : q.cpu.psp = some (e cur))
  /-- Past the owed switch, up to the return, but for the end of `reschedule`. -/
  | served (place : q.cpu.pendsv.Served) (handler : q.kernel.handler ≠ .switching)
      (dest : q.cpu.owed.dest = none) (psp : q.cpu.psp = some (e cur))
  /-- `reschedule` has picked `cur` and not switched. -/
  | picked (place : q.cpu.pendsv = .handling) (handler : q.kernel.handler = .switching)
      (dest : q.cpu.owed.dest = none) (capture : Option Tid) (picked : q.picked = some (capture, cur))
      (psp : ∀ prev, capture = some prev → q.cpu.psp = some (e prev))

/-- Every context of a live thread holds that thread's frame, and names this core once it has run on it;
the stack pointer holds the frame of a thread of this core. -/
structure Stacks (b : Build) (core : ℕ) (e : Tid → Ctx) (m : Machine Ctx) (resumedOn : Ctx → Option ℕ)
    (live : Tid → Prop) : Prop where
  stack : ∃ t, m.cpu.psp = some (e t) ∧ resumedOn (e t) = some core
  saved : ∀ t, live t → (m.contexts (e t)).sp = some (e t)
  resumed : ∀ t k, resumedOn (e t) = some k → k = core
  named : b.arch = .mainline → ∀ t, live t → resumedOn (e t) ≠ none ∨ b.coreCount = 1 →
    (m.contexts (e t)).core = core

structure Inv (b : Build) (core : ℕ) (e : Tid → Ctx) (q : Ported Ctx Tid) : Prop where
  kernel : q.kernel.Inv False
  unmasked : q.kernel.irqs ≠ [] ∨ q.cpu.pendsv ≠ .idle → q.cpu.primask = false
  owing : q.cpu.pendsv = .idle → q.cpu.owed.dest ≠ none →
    q.cpu.pending = true ∧ q.cpu.primask = false ∧ q.cpu.preempt = 0
  handler : q.kernel.handler ≠ .idle → q.cpu.pendsv = .handling
  agrees : ∀ cur, q.kernel.sched.currentThread = some cur → q.Agrees e cur
  stacked : Stacks b core e q.toMachine q.resumedOn fun t => q.kernel.sched.state t ≠ .terminated

section Inv

variable {b : Build} {core : ℕ} {e : Tid → Ctx} {q : Ported Ctx Tid}

omit [DecidableEq Ctx] [DecidableEq Tid] in
/-- The stacks depend on the stack pointer, the contexts and who is live. -/
theorem Stacks.congr {m m' : Machine Ctx} {resumedOn : Ctx → Option ℕ} {live live' : Tid → Prop}
    (h : Stacks b core e m resumedOn live) (hpsp : m'.cpu.psp = m.cpu.psp)
    (hcontexts : m'.contexts = m.contexts) (hlive : ∀ t, live' t → live t) :
    Stacks b core e m' resumedOn live' := by
  refine ⟨by rw [hpsp]; exact h.stack, ?_, h.resumed, ?_⟩
  · rw [hcontexts]
    exact fun t ht => h.saved t (hlive t ht)
  · rw [hcontexts]
    exact fun harch t ht => h.named harch t (hlive t ht)

omit [DecidableEq Tid] in
/-- A switch from the thread on the core, or from a retired one, to a live thread. -/
theorem Stacks.switch {m : Machine Ctx} {resumedOn : Ctx → Option ℕ} {live : Tid → Prop}
    (h : Stacks b core e m resumedOn live) (he : Function.Injective e) (hcore : core < b.coreCount)
    {source : Option Ctx} {next : Tid} (hsource : ∀ s, source = some s → m.cpu.psp = some s)
    (hnext : live next) :
    Stacks b core e (m.switchStacks b core source (e next))
      (Function.update resumedOn (e next) (some core)) live := by
  refine ⟨⟨next, ?_, by simp⟩, fun t ht => ?_, fun t k hk => ?_, fun harch t ht hres => ?_⟩
  · exact Machine.switchStacks_psp b core hsource (h.saved next hnext)
  · exact Machine.switchStacks_sp b core hsource (h.saved t ht)
  · by_cases ht : t = next
    · subst ht
      simpa [eq_comm] using hk
    · rw [Function.update_of_ne (fun heq => ht (he heq))] at hk
      exact h.resumed t k hk
  · rw [Machine.switchStacks_core]
    split
    · rfl
    · next hrec =>
      refine h.named harch t ht ?_
      by_cases heq : t = next
      · -- the incoming thread's context is not written: there is one core
        subst heq
        simp only [harch, true_and] at hrec
        exact Or.inr (by omega)
      · rwa [Function.update_of_ne (fun hc => heq (he hc))] at hres

omit [DecidableEq Tid] in
/-- A retired thread's context may hold anything. -/
theorem Stacks.destroy {m : Machine Ctx} {resumedOn : Ctx → Option ℕ} {live live' : Tid → Prop}
    (h : Stacks b core e m resumedOn live) (he : Function.Injective e) {prev : Tid}
    (hlive : ∀ t, live' t → live t ∧ t ≠ prev) (x : Context Ctx) :
    Stacks b core e { m with contexts := Function.update m.contexts (e prev) x } resumedOn live' := by
  have hctx : ∀ t, live' t → Function.update m.contexts (e prev) x (e t) = m.contexts (e t) :=
    fun t ht => Function.update_of_ne (fun heq => (hlive t ht).2 (he heq)) _ _
  refine ⟨h.stack, fun t ht => ?_, h.resumed, fun harch t ht hres => ?_⟩
  · simp only [hctx t ht]
    exact h.saved t (hlive t ht).1
  · simp only [hctx t ht]
    exact h.named harch t (hlive t ht).1 hres

omit [DecidableEq Ctx] [DecidableEq Tid] in
theorem Agrees.awaits {cur : Tid} (h : q.Agrees e cur)
    (hplace : q.cpu.pendsv = .idle ∨ q.cpu.pendsv = .entered) : Awaits e q.cpu cur := by
  cases h with
  | awaiting _ awaits => exact awaits
  | switching place | clearing place | picked place => simp [place] at hplace
  | served place => rcases hplace with hp | hp <;> simp [hp, Dispatch.Served] at place

omit [DecidableEq Ctx] [DecidableEq Tid] in
theorem Agrees.of_switching {cur : Tid} {dest : Ctx} (h : q.Agrees e cur)
    (hplace : q.cpu.pendsv = .switching dest) : dest = e cur ∧ q.cpu.owed.source = q.cpu.psp := by
  cases h with
  | awaiting place => simp [hplace] at place
  | switching place source =>
      rw [hplace, Dispatch.switching.injEq] at place
      exact ⟨place, source⟩
  | clearing place | picked place => simp [hplace] at place
  | served place => simp [hplace, Dispatch.Served] at place

omit [DecidableEq Ctx] [DecidableEq Tid] in
theorem Agrees.of_clearing {cur : Tid} (h : q.Agrees e cur) (hplace : q.cpu.pendsv = .clearing) :
    q.cpu.psp = some (e cur) := by
  cases h with
  | awaiting place | switching place | picked place => simp [hplace] at place
  | clearing _ psp => exact psp
  | served place => simp [hplace, Dispatch.Served] at place

omit [DecidableEq Ctx] [DecidableEq Tid] in
theorem Agrees.of_served {cur : Tid} (h : q.Agrees e cur) (hplace : q.cpu.pendsv.Served)
    (hhandler : q.kernel.handler ≠ .switching) :
    q.cpu.owed.dest = none ∧ q.cpu.psp = some (e cur) := by
  cases h with
  | awaiting place => rcases place with hp | hp <;> simp [hp, Dispatch.Served] at hplace
  | switching place | clearing place => simp [place, Dispatch.Served] at hplace
  | served _ _ dest psp => exact ⟨dest, psp⟩
  | picked _ handler => exact absurd handler hhandler

omit [DecidableEq Tid] in
theorem threadRuns_iff {arch : Arch} : q.threadRuns arch = true ↔
    q.kernel.irqs = [] ∧ q.cpu.pendsv = .idle ∧ q.cpu.takesPendSv arch = false := by
  simp [threadRuns, and_assoc]

omit [DecidableEq Tid] in
/-- While a thread executes, no switch is owed: PendSV would be taken first. -/
theorem Inv.dest_of_threadRuns (hi : Inv b core e q) (h : q.threadRuns b.arch = true) :
    q.cpu.owed.dest = none := by
  obtain ⟨-, hidle, htakes⟩ := threadRuns_iff.mp h
  by_contra hd
  obtain ⟨hpending, hprimask, hpreempt⟩ := hi.owing hidle hd
  simp [Cpu.takesPendSv, hpending, hprimask, hpreempt] at htakes

omit [DecidableEq Ctx] [DecidableEq Tid] in
theorem Inv.current (hi : Inv b core e q) :
    ∃ cur, q.kernel.sched.currentThread = some cur ∧ q.kernel.sched.state cur ≠ .terminated ∧
      (∀ t, q.kernel.sched.state t = .running → t = cur) ∧ q.Agrees e cur := by
  obtain ⟨cur, hcur⟩ := hi.kernel.phase
  refine ⟨cur, hcur.currentThread, ?_, hcur.only, hi.agrees cur hcur.currentThread⟩
  rcases hcur.live with h | h <;> simp [h]

omit [DecidableEq Ctx] [DecidableEq Tid] in
/-- The kernel moves without changing its current thread. -/
theorem Inv.quiet {k : Core Tid} (hi : Inv b core e q) (hk : k.Inv False)
    (hs : Core.SameThreads q.kernel.sched k.sched) (hh : Core.HandlerMoves q.kernel.handler k.handler)
    (hmask : k.irqs ≠ [] → q.cpu.primask = false) : Inv b core e { q with kernel := k } := by
  have hlive : ∀ t, k.sched.state t ≠ .terminated → q.kernel.sched.state t ≠ .terminated :=
    fun t ht h => ht ((hs.terminated t).mpr h)
  refine ⟨hk, ?_, hi.owing, ?_, ?_, hi.stacked.congr rfl rfl hlive⟩
  · rintro (h | h)
    · exact hmask h
    · exact hi.unmasked (Or.inr h)
  · intro hne
    refine hi.handler fun hidle => ?_
    rcases hh with h | h
    · exact hne (h.trans hidle)
    · exact h.1.1 hidle
  · intro cur hcur
    cases hi.agrees cur (hs.currentThread ▸ hcur) with
    | awaiting place awaits => exact .awaiting place awaits
    | switching place source => exact .switching place source
    | clearing place psp => exact .clearing place psp
    | served place handler dest psp =>
        refine .served place ?_ dest psp
        rcases hh with h | h
        · rwa [h]
        · exact h.2.2
    | picked place handler dest capture picked psp =>
        refine .picked place ?_ dest capture picked psp
        rcases hh with h | h
        · rwa [h]
        · exact absurd handler h.1.2

omit [DecidableEq Ctx] [DecidableEq Tid] in
/-- The masks and the requests move, and no stack. -/
theorem Inv.setCpu {p : Cpu Ctx} (hi : Inv b core e q) (hpsp : p.psp = q.cpu.psp)
    (hpendsv : p.pendsv = q.cpu.pendsv) (hdest : p.owed.dest = q.cpu.owed.dest)
    (hsource : p.owed.source = q.cpu.owed.source)
    (hunmasked : q.kernel.irqs ≠ [] ∨ q.cpu.pendsv ≠ .idle → p.primask = false)
    (howing : q.cpu.pendsv = .idle → q.cpu.owed.dest ≠ none →
      p.pending = true ∧ p.primask = false ∧ p.preempt = 0) : Inv b core e { q with cpu := p } := by
  refine ⟨hi.kernel, ?_, ?_, ?_, ?_, hi.stacked.congr hpsp rfl fun _ => id⟩
  · rw [hpendsv]
    exact hunmasked
  · rw [hpendsv, hdest]
    exact howing
  · rw [hpendsv]
    exact hi.handler
  · intro cur hcur
    cases hi.agrees cur hcur with
    | awaiting place awaits =>
        refine .awaiting (by rwa [hpendsv]) ?_
        simpa only [Awaits, hdest, hpsp, hsource] using awaits
    | switching place source => exact .switching (by rw [hpendsv, place]) (by rw [hsource, hpsp, source])
    | clearing place psp => exact .clearing (by rw [hpendsv, place]) (by rw [hpsp, psp])
    | served place handler dest psp =>
        exact .served (by rwa [hpendsv]) handler (by rw [hdest, dest]) (by rw [hpsp, psp])
    | picked place handler dest capture picked psp =>
        refine .picked (by rw [hpendsv, place]) handler (by rw [hdest, dest]) capture picked ?_
        rwa [hpsp]

/-- What a decision needs of the place it is made at. -/
structure MayDecide (arch : Arch) (q : Ported Ctx Tid) : Prop where
  place : q.cpu.pendsv = .idle ∨ q.kernel.irqs ≠ [] ∧ q.cpu.pendsv = .entered
  runs : q.kernel.irqs = [] → q.threadRuns arch = true ∧ q.cpu.primask = false
  open' : q.cpu.preempt = 0

omit [DecidableEq Ctx] [DecidableEq Tid] in
/-- A new current thread, with the switch to it owed from the thread on the core. -/
theorem Inv.owes {k : Core Tid} {p : Cpu Ctx} {next : Tid} (hi : Inv b core e q) (hk : k.Inv False)
    (hterm : ∀ t, k.sched.state t = .terminated ↔ q.kernel.sched.state t = .terminated)
    (hh : k.handler = q.kernel.handler) (hcur : k.sched.currentThread = some next)
    (hpsp : p.psp = q.cpu.psp) (hpendsv : p.pendsv = q.cpu.pendsv)
    (hplace : q.cpu.pendsv = .idle ∨ q.cpu.pendsv = .entered)
    (howed : p.owed.dest = some (e next) ∧ p.owed.source = q.cpu.psp)
    (hready : p.pending = true ∧ p.primask = false ∧ p.preempt = 0) :
    Inv b core e { q with kernel := k, cpu := p } := by
  have hlive : ∀ t, k.sched.state t ≠ .terminated → q.kernel.sched.state t ≠ .terminated :=
    fun t ht h => ht ((hterm t).mpr h)
  refine ⟨hk, fun _ => hready.2.1, fun _ _ => hready, ?_, fun cur hcur' => ?_,
    hi.stacked.congr hpsp rfl hlive⟩
  · rw [hh, hpendsv]
    exact hi.handler
  · obtain rfl : next = cur := Option.some.inj (hcur.symm.trans hcur')
    exact .awaiting (by rwa [hpendsv]) (Or.inr ⟨howed.1, by rw [howed.2, hpsp]⟩)

/-- A decision, and the switch the port records for it. -/
theorem Inv.decided {k : Core Tid} {q' : Ported Ctx Tid} (hi : Inv b core e q) (hk : k.Inv False)
    (hterm : ∀ t, k.sched.state t = .terminated ↔ q.kernel.sched.state t = .terminated)
    (hh : k.handler = q.kernel.handler) (hirqs : k.irqs = [] ↔ q.kernel.irqs = [])
    (hmay : k.sched.currentThread ≠ q.kernel.sched.currentThread → MayDecide b.arch q)
    (h : q.decided b core e k = some q') : Inv b core e q' := by
  unfold Ported.decided at h
  split at h
  · next prev next hprev hnext =>
    split at h
    · next heq =>
      cases h
      refine hi.quiet hk ⟨?_, hterm⟩ (Or.inl hh) fun hne => hi.unmasked (Or.inl fun h => hne (hirqs.mpr h))
      rw [hprev, hnext, heq]
    · next hne =>
      obtain ⟨hplace, hruns, hopen⟩ := hmay (by simp [hprev, hnext, hne])
      have hplace' := hplace.imp_right And.right
      have hawaits := (hi.agrees prev hprev).awaits hplace'
      split at h
      · next hempty =>
        split at h <;> cases h
        obtain ⟨hthread, hprimask⟩ := hruns (by simpa using hempty)
        have hdest := hi.dest_of_threadRuns hthread
        have hpsp : q.cpu.psp = some (e prev) := by simpa [Awaits, hdest] using hawaits
        exact hi.owes hk hterm hh hnext rfl rfl hplace' ⟨rfl, hpsp.symm⟩ ⟨rfl, rfl, hopen⟩
      · next hirq =>
        cases h
        have hprimask := hi.unmasked (Or.inl (by simpa using hirq))
        refine hi.owes hk hterm hh hnext rfl rfl hplace' ⟨rfl, ?_⟩ ⟨rfl, hprimask, hopen⟩
        -- the first decision records the thread on the core, and a later one keeps it
        rcases hawaits with ⟨hdest, hpsp⟩ | ⟨hdest, hsource⟩
        · simp [Cpu.oweSwitch, Cpu.pendSvSet, hdest, hpsp]
        · simp [Cpu.oweSwitch, Cpu.pendSvSet, hdest, hsource]
  · cases h

omit [DecidableEq Tid] in
theorem road_eq_interrupt {arch : Arch} : q.road arch = .interrupt ↔
    q.kernel.irqs ≠ [] ∧ q.cpu.interruptedAtBaseline arch = true := by
  unfold road
  by_cases hirqs : q.kernel.irqs = []
  · by_cases hbase : q.cpu.primask = false ∧ q.cpu.preempt = 0 <;> simp [hirqs, hbase]
  · by_cases hbase : q.cpu.interruptedAtBaseline arch = true <;> simp [hirqs, hbase]

omit [DecidableEq Tid] in
theorem road_eq_baseline {arch : Arch} : q.road arch = .baseline ↔
    q.kernel.irqs = [] ∧ q.cpu.primask = false ∧ q.cpu.preempt = 0 := by
  unfold road
  by_cases hirqs : q.kernel.irqs = []
  · by_cases hbase : q.cpu.primask = false ∧ q.cpu.preempt = 0 <;> simp [hirqs, hbase]
  · by_cases hbase : q.cpu.interruptedAtBaseline arch = true <;> simp [hirqs, hbase]

/-- The condition on a decision of an interrupt's wake: it is made outside PendSV, or before PendSV has
looked at the owed switch.  ARMv7-M and ARMv8-M make no other. -/
def DecidesOutside [Fintype Tid] (arch : Arch) (q : Ported Ctx Tid) : PortedAct Tid → Prop
  | .wakeReady fold => ∀ t policy, q.kernel.executing = some (.ready t policy) →
      q.road arch = .interrupt → (q.kernel.sched.makeReady fold t).2 = .warranted → policy ≠ .never →
        q.cpu.pendsv = .idle ∨ q.cpu.pendsv = .entered
  | _ => True

variable [Fintype Tid]

theorem decidesOutside_mainline (q : Ported Ctx Tid) (act : PortedAct Tid) :
    q.DecidesOutside .mainline act := by
  cases act with
  | wakeReady fold =>
      intro t policy _ hroad _ _
      obtain ⟨-, hbase⟩ := road_eq_interrupt.mp hroad
      simp only [Cpu.interruptedAtBaseline, Bool.and_eq_true, beq_iff_eq] at hbase
      exact Or.inl hbase.2
  | _ => trivial

omit [DecidableEq Ctx] in
theorem setThreadReady_deferred {s : Sched Tid} {fold : Tid → ℕ} {t : Tid} {policy : Policy} {road : Road}
    (h : ¬ ((s.makeReady fold t).2 = .warranted ∧ policy ≠ .never)) :
    Core.setThreadReady s fold t policy road = Core.setThreadReady s fold t policy .deferred := by
  simp only [Core.setThreadReady]
  rw [if_neg fun hd => h ⟨hd.1, hd.2.1⟩, if_neg fun hd => h ⟨hd.1, hd.2.1⟩]

/-- A wake's last step is one of the kernel, on a road that is open to it. -/
theorem wakeReady_road {fold : Tid → ℕ} {t : Tid} {policy : Policy} (hi : Inv b core e q)
    (hok : q.DecidesOutside b.arch (.wakeReady fold)) (hexec : q.kernel.executing = some (.ready t policy))
    (hwakes : q.wakes b.arch = true) :
    ∃ road, q.kernel.next (.wakeReady fold road) = some { q.kernel.moveTo .idle with
        sched := Core.setThreadReady q.kernel.sched fold t policy (q.road b.arch) } ∧
      (road ≠ .deferred → MayDecide b.arch q) := by
  have hnext : ∀ road, q.kernel.roadOpen road = true → q.kernel.next (.wakeReady fold road) =
      some { q.kernel.moveTo .idle with
        sched := Core.setThreadReady q.kernel.sched fold t policy road } := by
    intro road hopen
    simp [Core.next, Core.wakeStep, hexec, hopen]
  cases hroad : q.road b.arch with
  | deferred => exact ⟨.deferred, hnext _ rfl, fun h => absurd rfl h⟩
  | baseline =>
      obtain ⟨hirqs, hprimask, hopen⟩ := road_eq_baseline.mp hroad
      have hruns : q.threadRuns b.arch = true := by simpa [wakes, hirqs] using hwakes
      refine ⟨.baseline, hnext _ (by simp [Core.roadOpen, hirqs]), fun _ => ⟨?_, ?_, hopen⟩⟩
      · exact Or.inl (threadRuns_iff.mp hruns).2.1
      · exact fun _ => ⟨hruns, hprimask⟩
  | interrupt =>
      obtain ⟨hirqs, hbase⟩ := road_eq_interrupt.mp hroad
      by_cases hdec : (q.kernel.sched.makeReady fold t).2 = .warranted ∧ policy ≠ .never
      · have hplace := hok t policy hexec hroad hdec.1 hdec.2
        have hidle : q.kernel.handler = .idle := by
          by_contra hh
          simp [hi.handler hh] at hplace
        refine ⟨.interrupt, hnext _ (by simp [Core.roadOpen, hirqs, hidle]), fun _ => ⟨?_, ?_, ?_⟩⟩
        · exact hplace.imp_right fun h => ⟨hirqs, h⟩
        · exact fun h => absurd h hirqs
        · cases harch : b.arch <;> simp [Cpu.interruptedAtBaseline, harch] at hbase <;> tauto
      · rw [setThreadReady_deferred hdec]
        exact ⟨.deferred, hnext _ rfl, fun h => absurd rfl h⟩

theorem Inv.wakeReadyStep {fold : Tid → ℕ} {q' : Ported Ctx Tid} (hi : Inv b core e q)
    (hok : q.DecidesOutside b.arch (.wakeReady fold)) (h : q.wakeReadyStep b core e fold = some q') :
    Inv b core e q' := by
  unfold Ported.wakeReadyStep at h
  split at h
  · next t policy hexec =>
    obtain ⟨hwakes, hdecided⟩ := Option.ite_none_right_eq_some.1 h
    obtain ⟨road, hnext, hmay⟩ := wakeReady_road hi hok hexec hwakes
    obtain ⟨hterm, hh, hirqs, hcur⟩ := Core.next_wakeReady hi.kernel hnext
    refine hi.decided (hi.kernel.next False.elim hnext) hterm hh hirqs (fun hne => hmay ?_) hdecided
    exact fun hroad => hne (hcur hroad)
  · cases h

theorem Inv.threadDecides {act : CoreAct Tid} {q' : Ported Ctx Tid} (hi : Inv b core e q)
    (hact : (∃ fold, act = .yield fold) ∨ ∃ fold, act = .commitToBlock fold)
    (h : q.threadDecides b core e act = some q') : Inv b core e q' := by
  obtain ⟨⟨hruns, hprimask, hopen⟩, hbind⟩ := Option.ite_none_right_eq_some.1 h
  obtain ⟨k, hk, hdecided⟩ := Option.bind_eq_some_iff.mp hbind
  obtain ⟨hterm, hh, hirqs⟩ := Core.next_threadDecides hi.kernel hact hk
  exact hi.decided (hi.kernel.next False.elim hk) hterm hh (by rw [hirqs])
    (fun _ => ⟨Or.inl (threadRuns_iff.mp hruns).2.1, fun _ => ⟨hruns, hprimask⟩, hopen⟩) hdecided

theorem Inv.kernelStep {act : CoreAct Tid} {k : Core Tid} (hi : Inv b core e q)
    (h : q.kernelStep b.arch act = some k) : Inv b core e { q with kernel := k } := by
  have hnext : Core.isQuiet act = true ∧ q.kernel.next act = some k := by
    cases act <;> simp [Ported.kernelStep, Core.isQuiet] at h ⊢ <;> tauto
  obtain ⟨hs, hh, hirqs⟩ := Core.next_quiet hi.kernel hnext.1 hnext.2
  refine hi.quiet (hi.kernel.next False.elim hnext.2) hs hh fun hne => ?_
  exact hi.unmasked (Or.inl fun h => hne (hirqs.mpr h))

omit [DecidableEq Ctx] [DecidableEq Tid] [Fintype Tid] in
/-- With PendSV in its own code the kernel's handler does not run. -/
theorem Inv.handler_idle (hi : Inv b core e q) (h : q.cpu.pendsv ≠ .handling) :
    q.kernel.handler = .idle := by
  by_contra hne
  exact h (hi.handler hne)

omit [DecidableEq Ctx] [DecidableEq Tid] [Fintype Tid] in
/-- PendSV moves, outside the kernel's handler, to a place where the stack pointer is the current
thread's. -/
theorem Inv.moves {m : Machine Ctx} {resumedOn : Ctx → Option ℕ} (hi : Inv b core e q)
    (hprimask : m.cpu.primask = false) (hplace : m.cpu.pendsv ≠ .idle)
    (hhandler : q.kernel.handler = .idle)
    (hag : ∀ cur, q.kernel.sched.currentThread = some cur →
      Agrees e { q with toMachine := m, resumedOn := resumedOn } cur)
    (hst : Stacks b core e m resumedOn fun t => q.kernel.sched.state t ≠ .terminated) :
    Inv b core e { q with toMachine := m, resumedOn := resumedOn } :=
  ⟨hi.kernel, fun _ => hprimask, fun h => absurd h hplace, fun h => absurd hhandler h, hag, hst⟩

omit [DecidableEq Tid] [Fintype Tid] in
theorem Inv.dispatch {m : Machine Ctx} (hi : Inv b core e q) (he : Function.Injective e)
    (hcore : core < b.coreCount) (hd : Machine.Dispatches b core q.toMachine m) :
    Inv b core e ({ q with toMachine := m }.resume core (q.loads b.arch)) := by
  obtain ⟨cur, hcur, hlive, -, hag⟩ := hi.current
  have hhandler := hi.handler_idle hd.places.1.2
  have hne : q.kernel.handler ≠ .switching := by simp [hhandler]
  have hprimask := hi.unmasked (Or.inr hd.places.1.1)
  -- the steps that load no stack: it is enough that the current thread's frame is where it was
  have hstays : ∀ m' : Machine Ctx, q.loads b.arch = none → m'.cpu.primask = q.cpu.primask →
      m'.cpu.psp = q.cpu.psp → m'.contexts = q.contexts → m'.cpu.pendsv ≠ .idle →
      Agrees e { q with toMachine := m' } cur →
      Inv b core e ({ q with toMachine := m' }.resume core (q.loads b.arch)) := by
    intro m' hloads hpm hpsp hctx hplace hag'
    rw [hloads]
    refine hi.moves (hpm.trans hprimask) hplace hhandler (fun cur' hcur' => ?_)
      (hi.stacked.congr hpsp hctx fun _ => id)
    obtain rfl : cur = cur' := Option.some.inj (hcur.symm.trans hcur')
    exact hag'
  -- the steps that carry out the owed switch
  have hcarried : ∀ m' : Machine Ctx, q.loads b.arch = some (e cur) → q.cpu.owed.source = q.cpu.psp →
      m'.cpu.primask = q.cpu.primask →
      m'.cpu.psp = (q.toMachine.switchStacks b core q.cpu.owed.source (e cur)).cpu.psp →
      m'.contexts = (q.toMachine.switchStacks b core q.cpu.owed.source (e cur)).contexts →
      m'.cpu.pendsv ≠ .idle →
      (m'.cpu.psp = some (e cur) → ∀ r, Agrees e { q with toMachine := m', resumedOn := r } cur) →
      Inv b core e ({ q with toMachine := m' }.resume core (q.loads b.arch)) := by
    intro m' hloads hsource hpm hpsp hctx hplace hag'
    have hfrom : ∀ s, q.cpu.owed.source = some s → q.cpu.psp = some s := fun s h => hsource ▸ h
    have hpsp' := Machine.switchStacks_psp b core hfrom (hi.stacked.saved cur hlive)
    rw [hloads]
    refine hi.moves (hpm.trans hprimask) hplace hhandler (fun cur' hcur' => ?_)
      ((hi.stacked.switch he hcore hfrom hlive).congr hpsp hctx fun _ => id)
    obtain rfl : cur = cur' := Option.some.inj (hcur.symm.trans hcur')
    exact hag' (hpsp.trans hpsp') _
  cases hd with
  | read arch place dest owed =>
      refine hstays _ (by simp [loads, arch, place]) rfl rfl rfl (by rintro ⟨⟩) ?_
      rcases hag.awaits (Or.inr place) with ⟨hnone, -⟩ | ⟨hdest, hsource⟩
      · simp [owed] at hnone
      · obtain rfl : dest = e cur := Option.some.inj (owed.symm.trans hdest)
        exact .switching rfl hsource
  | call arch place owed =>
      refine hstays _ (by simp [loads, arch, place]) rfl rfl rfl (by rintro ⟨⟩) ?_
      rcases hag.awaits (Or.inr place) with ⟨hnone, hpsp⟩ | ⟨hdest, -⟩
      · exact .served trivial hne owed hpsp
      · simp [owed] at hdest
  | switch arch dest place =>
      obtain ⟨rfl, hsource⟩ := hag.of_switching place
      refine hcarried _ (by simp [loads, arch, place]) hsource ?_ rfl rfl (by rintro ⟨⟩) fun hpsp r => ?_
      · simp [Machine.moveTo, Machine.switchStacks_cpu]
      · exact .clearing rfl hpsp
  | clear arch place =>
      refine hstays _ (by simp [loads, arch, place]) rfl rfl rfl (by rintro ⟨⟩) ?_
      exact .served trivial hne rfl (hag.of_clearing place)
  | look arch place =>
      obtain ⟨hdest, hpsp⟩ := hag.of_served (by simp [place, Dispatch.Served]) hne
      refine hstays _ (by simp [loads, arch, place]) rfl rfl rfl ?_ (.served ?_ hne hdest hpsp) <;>
        · simp only [Machine.moveTo]
          split <;> simp [Dispatch.Served]
  | unflag arch place =>
      obtain ⟨hdest, hpsp⟩ := hag.of_served (by simp [place, Dispatch.Served]) hne
      exact hstays _ (by simp [loads, arch, place]) rfl rfl rfl (by rintro ⟨⟩) (.served trivial hne hdest hpsp)
  | serve arch place dest owed =>
      rcases hag.awaits (Or.inr place) with ⟨hnone, -⟩ | ⟨hdest, hsource⟩
      · simp [owed] at hnone
      · obtain rfl : dest = e cur := Option.some.inj (owed.symm.trans hdest)
        refine hcarried _ (by simp [loads, arch, place, owed]) hsource ?_ rfl rfl ?_ fun hpsp r =>
          .served ?_ hne rfl hpsp
        · simp [Machine.moveTo, Machine.setOwed, Machine.switchStacks_cpu]
        · simp only [Machine.moveTo]
          split <;> simp
        · simp only [Machine.moveTo]
          split <;> simp [Dispatch.Served]
  | check arch place owed =>
      refine hstays _ (by simp [loads, arch, place, owed]) rfl rfl rfl (by rintro ⟨⟩) ?_
      rcases hag.awaits (Or.inr place) with ⟨hnone, hpsp⟩ | ⟨hdest, -⟩
      · exact .served trivial hne owed hpsp
      · simp [owed] at hdest
  | depth arch place =>
      obtain ⟨hdest, hpsp⟩ := hag.of_served (by simp [place, Dispatch.Served]) hne
      refine hstays _ (by simp [loads, arch, place]) rfl rfl rfl ?_ (.served ?_ hne hdest hpsp) <;>
        · simp only [Machine.moveTo]
          split <;> simp [Dispatch.Served]
  | defer arch place =>
      obtain ⟨hdest, hpsp⟩ := hag.of_served (by simp [place, Dispatch.Served]) hne
      exact hstays _ (by simp [loads, arch, place]) rfl rfl rfl (by rintro ⟨⟩) (.served trivial hne hdest hpsp)
  | undefer arch place =>
      obtain ⟨hdest, hpsp⟩ := hag.of_served (by simp [place, Dispatch.Served]) hne
      exact hstays _ (by simp [loads, arch, place]) rfl rfl rfl (by rintro ⟨⟩) (.served trivial hne hdest hpsp)

omit [DecidableEq Ctx] [DecidableEq Tid] [Fintype Tid] in
theorem Agrees.of_picked {cur : Tid} (h : q.Agrees e cur) (hhandler : q.kernel.handler = .switching)
    (hplace : q.cpu.pendsv = .handling) :
    q.cpu.owed.dest = none ∧ ∃ capture, q.picked = some (capture, cur) ∧
      ∀ prev, capture = some prev → q.cpu.psp = some (e prev) := by
  cases h with
  | awaiting place | switching place | clearing place => simp [hplace] at place
  | served _ handler => exact absurd hhandler handler
  | picked _ _ dest capture picked psp => exact ⟨dest, capture, picked, psp⟩

theorem Inv.guardStep {fold : Tid → ℕ} {joiners : List Tid} {q' : Ported Ctx Tid} (hi : Inv b core e q)
    (he : Function.Injective e) (hplace : q.cpu.pendsv = .handling)
    (h : q.guardStep e fold joiners = some q') : Inv b core e q' := by
  unfold Ported.guardStep at h
  split at h
  · next prev hguard =>
    obtain ⟨k, hk, h⟩ := Option.bind_eq_some_iff.mp h
    obtain ⟨next, hnext, h⟩ := Option.map_eq_some_iff.mp h
    obtain ⟨hprev, hh, hirqs, hterm⟩ := Core.next_guard hi.kernel hguard hk
    have hkernel := hi.kernel.next False.elim hk
    have hunmasked := hi.unmasked (Or.inr (by simp [hplace]))
    have hne : q.kernel.handler ≠ .switching := by simp [hguard]
    obtain ⟨hdest, hpsp⟩ := (hi.agrees prev hprev).of_served (by simp [hplace, Dispatch.Served]) hne
    split at h
    · next hret =>
      subst h
      refine ⟨hkernel, fun _ => hunmasked, ?_, fun _ => hplace, fun cur hcur => ?_, ?_⟩
      · simp [hplace]
      · obtain rfl : next = cur := Option.some.inj (hnext.symm.trans hcur)
        exact .picked hplace hh hdest none rfl (by simp)
      · refine hi.stacked.destroy he (fun t ht => ?_) _
        rw [ne_eq, hterm t, not_or] at ht
        exact ⟨ht.1, fun heq => ht.2 ⟨heq, hret⟩⟩
    · subst h
      refine ⟨hkernel, fun _ => hunmasked, ?_, fun _ => hplace, fun cur hcur => ?_, ?_⟩
      · simp [hplace]
      · obtain rfl : next = cur := Option.some.inj (hnext.symm.trans hcur)
        refine .picked hplace hh hdest (some prev) rfl fun prev' heq => ?_
        cases heq
        exact hpsp
      · exact hi.stacked.congr rfl rfl fun t ht hs => ht ((hterm t).mpr (Or.inl hs))
  · cases h

/-- `cyros_port_switch` is called with the thread `reschedule` picked, which is current, and, unless that
was retired, the thread whose frame the stack pointer holds. -/
theorem Inv.switchStep_eq {q' : Ported Ctx Tid} (hi : Inv b core e q) (hplace : q.cpu.pendsv = .handling)
    (h : q.switchStep b core e = some q') : ∃ capture next,
      q.picked = some (capture, next) ∧ q.kernel.sched.currentThread = some next ∧
      q.kernel.sched.state next ≠ .terminated ∧ q.cpu.owed.dest = none ∧
      (∀ s, capture.map e = some s → q.cpu.psp = some s) ∧
      Core.Inv False { q.kernel with handler := .idle } ∧
      ({ q with
        kernel := { q.kernel with handler := .idle }
        picked := none
        toMachine := q.toMachine.switchStacks b core (capture.map e) (e next) }.resume core
          (some (e next)) : Ported Ctx Tid) = q' := by
  unfold Ported.switchStep at h
  split at h
  · next capture next hpicked =>
    split at h
    · obtain ⟨k, hk, hq'⟩ := Option.map_eq_some_iff.mp h
      have hkernel := hi.kernel.next False.elim hk
      obtain ⟨hswitching, rfl⟩ := Core.next_handlerSwitch hk
      obtain ⟨cur, hcur, hlive, -, hag⟩ := hi.current
      obtain ⟨hdest, capture', hpicked', hpsp⟩ := hag.of_picked hswitching hplace
      obtain ⟨rfl, rfl⟩ : capture = capture' ∧ next = cur := by
        simpa [hpicked] using hpicked'
      refine ⟨capture, next, hpicked, hcur, hlive, hdest, fun s hs => ?_, hkernel, hq'⟩
      obtain ⟨prev, hprev, rfl⟩ := Option.map_eq_some_iff.mp hs
      exact hpsp prev hprev
    · cases h
  · cases h

theorem Inv.switchStep {q' : Ported Ctx Tid} (hi : Inv b core e q) (he : Function.Injective e)
    (hcore : core < b.coreCount) (hplace : q.cpu.pendsv = .handling)
    (h : q.switchStep b core e = some q') : Inv b core e q' := by
  obtain ⟨capture, next, -, hcur, hlive, hdest, hsource, hkernel, rfl⟩ := hi.switchStep_eq hplace h
  have hcpu := Machine.switchStacks_cpu b core (capture.map e) (e next) q.toMachine
  have hunmasked := hi.unmasked (Or.inr (by simp [hplace]))
  refine ⟨hkernel, fun _ => ?_, ?_, fun h => absurd rfl h, fun cur' hcur' => ?_, ?_⟩
  · simpa [resume, hcpu] using hunmasked
  · simp [resume, hcpu, hplace]
  · obtain rfl : next = cur' := Option.some.inj (hcur.symm.trans hcur')
    refine .served ?_ (by rintro ⟨⟩) ?_ (Machine.switchStacks_psp b core hsource (hi.stacked.saved next hlive))
    · simp [resume, hcpu, hplace, Dispatch.Served]
    · simpa [resume, hcpu] using hdest
  · exact (hi.stacked.switch he hcore hsource hlive).congr rfl rfl fun _ => id

omit [DecidableEq Ctx] [DecidableEq Tid] [Fintype Tid] in
theorem Inv.pendSvEnter (hi : Inv b core e q) (hidle : q.cpu.pendsv = .idle)
    (htakes : q.cpu.takesPendSv b.arch = true) :
    Inv b core e { q with cpu := { q.cpu with pending := false, pendsv := .entered } } := by
  simp only [Cpu.takesPendSv, Bool.and_eq_true, Bool.not_eq_true'] at htakes
  refine hi.moves htakes.1.2 (by simp) (hi.handler_idle (by simp [hidle])) (fun cur hcur => ?_)
    (hi.stacked.congr rfl rfl fun _ => id)
  exact .awaiting (Or.inr rfl) ((hi.agrees cur hcur).awaits (Or.inl hidle))

omit [DecidableEq Ctx] in
theorem Inv.callHandler {k : Core Tid} (hi : Inv b core e q) (hcalling : q.cpu.pendsv = .calling)
    (hk : q.kernel.next .handlerEnter = some k) :
    Inv b core e { q with kernel := k, toMachine := q.toMachine.moveTo .handling } := by
  have hkernel := hi.kernel.next False.elim hk
  obtain rfl := Core.next_handlerEnter hk
  have hidle := hi.handler_idle (by simp [hcalling])
  have hunmasked := hi.unmasked (Or.inr (by simp [hcalling]))
  refine ⟨hkernel, fun _ => hunmasked, by rintro ⟨⟩, fun _ => rfl, fun cur hcur => ?_,
    hi.stacked.congr rfl rfl fun _ => id⟩
  obtain ⟨hdest, hpsp⟩ := (hi.agrees cur hcur).of_served (by simp [hcalling, Dispatch.Served])
    (by simp [hidle])
  exact .served trivial (by simp) hdest hpsp

omit [DecidableEq Ctx] [DecidableEq Tid] [Fintype Tid] in
theorem Inv.handlerReturn (hi : Inv b core e q) (hplace : q.cpu.pendsv = .handling)
    (hidle : q.kernel.handler = .idle) :
    Inv b core e { q with toMachine := q.toMachine.moveTo .returning } := by
  have hunmasked := hi.unmasked (Or.inr (by simp [hplace]))
  refine hi.moves hunmasked (by rintro ⟨⟩) hidle (fun cur hcur => ?_) (hi.stacked.congr rfl rfl fun _ => id)
  obtain ⟨hdest, hpsp⟩ := (hi.agrees cur hcur).of_served (by simp [hplace, Dispatch.Served])
    (by simp [hidle])
  exact .served trivial (by simp [hidle]) hdest hpsp

omit [DecidableEq Ctx] [DecidableEq Tid] [Fintype Tid] in
/-- PendSV returns: nothing is owed, and the thread it returns to is the current one. -/
theorem Inv.psp_of_returning (hi : Inv b core e q) (hplace : q.cpu.pendsv = .returning) {cur : Tid}
    (hcur : q.kernel.sched.currentThread = some cur) :
    q.cpu.owed.dest = none ∧ q.cpu.psp = some (e cur) := by
  refine (hi.agrees cur hcur).of_served (by simp [hplace, Dispatch.Served]) ?_
  simp [hi.handler_idle (by simp [hplace])]

omit [DecidableEq Ctx] [DecidableEq Tid] [Fintype Tid] in
theorem Inv.pendSvReturn (hi : Inv b core e q) (hplace : q.cpu.pendsv = .returning) :
    Inv b core e { q with toMachine := q.toMachine.moveTo .idle } := by
  have hunmasked := hi.unmasked (Or.inr (by simp [hplace]))
  obtain ⟨cur, hcur, -⟩ := hi.current
  have hnone := (hi.psp_of_returning hplace hcur).1
  refine ⟨hi.kernel, fun _ => hunmasked, fun _ h => absurd hnone h, fun h => ?_, fun cur' hcur' => ?_,
    hi.stacked.congr rfl rfl fun _ => id⟩
  · exact absurd (hi.handler_idle (by simp [hplace])) h
  · exact .awaiting (Or.inl rfl) (Or.inl (hi.psp_of_returning hplace hcur'))

/-- **One step keeps the kernel and the port in agreement.** -/
theorem Inv.step {act : PortedAct Tid} {q' : Ported Ctx Tid} (hi : Inv b core e q)
    (he : Function.Injective e) (hcore : core < b.coreCount) (hok : q.DecidesOutside b.arch act)
    (h : q.step b core e act = some q') : Inv b core e q' := by
  cases act with
  | kernel act =>
      obtain ⟨k, hk, rfl⟩ := Option.map_eq_some_iff.mp h
      exact hi.kernelStep hk
  | irqEnter =>
      obtain ⟨hmask, hk⟩ := Option.ite_none_left_eq_some.1 h
      cases hk
      exact hi.quiet ⟨hi.kernel.phase, hi.kernel.idle⟩ ⟨rfl, fun _ => Iff.rfl⟩ (Or.inl rfl)
        fun _ => by simpa using hmask
  | irqReturn =>
      obtain ⟨k, hk, rfl⟩ := Option.map_eq_some_iff.mp h
      have hkernel := hi.kernel.next False.elim hk
      simp only [Core.next] at hk
      split at hk
      · next ws hirqs =>
        cases hk
        exact hi.quiet hkernel ⟨rfl, fun _ => Iff.rfl⟩ (Or.inl rfl)
          fun _ => hi.unmasked (Or.inl (by simp [hirqs]))
      · cases hk
  | wakeReady fold => exact hi.wakeReadyStep hok h
  | yield fold => exact hi.threadDecides (Or.inl ⟨fold, rfl⟩) h
  | commitToBlock fold => exact hi.threadDecides (Or.inr ⟨fold, rfl⟩) h
  | mask | unmask | preempt =>
      obtain ⟨hruns, rfl⟩ := of_guard h
      obtain ⟨hirqs, hidle, -⟩ := threadRuns_iff.mp hruns
      refine hi.setCpu rfl rfl rfl rfl (by simp [hirqs, hidle]) ?_
      exact fun _ hd => absurd (hi.dest_of_threadRuns hruns) hd
  | pendFlag =>
      cases h
      exact hi.setCpu rfl rfl rfl rfl hi.unmasked hi.owing
  | pendSet =>
      cases h
      exact hi.setCpu rfl rfl rfl rfl hi.unmasked fun hidle hd => ⟨rfl, (hi.owing hidle hd).2⟩
  | pendSvEnter =>
      obtain ⟨⟨-, hidle, htakes⟩, rfl⟩ := of_guard h
      exact hi.pendSvEnter hidle htakes
  | dispatch =>
      obtain ⟨-, hmap⟩ := Option.ite_none_right_eq_some.1 h
      obtain ⟨m, hm, rfl⟩ := Option.map_eq_some_iff.mp hmap
      exact hi.dispatch he hcore (Machine.dispatch_cases hm)
  | callHandler =>
      obtain ⟨hcalling, hmap⟩ := Option.ite_none_right_eq_some.1 h
      obtain ⟨k, hk, rfl⟩ := Option.map_eq_some_iff.mp hmap
      exact hi.callHandler hcalling hk
  | handlerGuard fold joiners =>
      obtain ⟨hplace, hguard⟩ := Option.ite_none_right_eq_some.1 h
      exact hi.guardStep he hplace hguard
  | handlerSwitch =>
      obtain ⟨hplace, hswitch⟩ := Option.ite_none_right_eq_some.1 h
      exact hi.switchStep he hcore hplace hswitch
  | handlerReturn =>
      obtain ⟨⟨-, hplace, hidle⟩, rfl⟩ := of_guard h
      exact hi.handlerReturn hplace hidle
  | pendSvReturn =>
      obtain ⟨⟨-, hplace⟩, rfl⟩ := of_guard h
      exact hi.pendSvReturn hplace

/-- A step that stores the stack pointer stores it into the context of the thread whose frame it holds. -/
theorem Inv.psp_of_savesInto {act : PortedAct Tid} {q' : Ported Ctx Tid} {x : Ctx} (hi : Inv b core e q)
    (h : q.step b core e act = some q') (hx : q.savesInto b.arch e act = some x) : q.cpu.psp = some x := by
  obtain ⟨cur, hcur, -, -, hag⟩ := hi.current
  cases act with
  | dispatch =>
      obtain ⟨dest, hloads, hsource⟩ := Option.bind_eq_some_iff.mp hx
      suffices hpsp : q.cpu.owed.source = q.cpu.psp by rw [← hpsp, hsource]
      unfold loads at hloads
      split at hloads
      · next place => exact (hag.of_switching place).2
      · next place =>
        rcases hag.awaits (Or.inr place) with ⟨hnone, -⟩ | ⟨-, hsrc⟩
        · simp [hnone] at hloads
        · exact hsrc
      · cases hloads
  | handlerSwitch =>
      obtain ⟨hplace, hswitch⟩ := Option.ite_none_right_eq_some.1 h
      obtain ⟨capture, next, hpicked, -, -, -, hsource, -, -⟩ := hi.switchStep_eq hplace hswitch
      exact hsource x (by simpa [savesInto, hpicked] using hx)
  | _ => cases hx

/-! ### What a step leaves alone -/

omit [DecidableEq Tid] [Fintype Tid] in
/-- The memory another core may look at, kept outside this core's threads. -/
def SameElsewhere (e : Tid → Ctx) (q q' : Ported Ctx Tid) : Prop :=
  ∀ x, (∀ t, x ≠ e t) → q'.contexts x = q.contexts x ∧ q'.resumedOn x = q.resumedOn x

omit [DecidableEq Ctx] [DecidableEq Tid] [Fintype Tid] in
theorem sameElsewhere_of_eq {q' : Ported Ctx Tid} (hcontexts : q'.contexts = q.contexts)
    (hresumed : q'.resumedOn = q.resumedOn) : SameElsewhere e q q' :=
  fun x _ => ⟨congrFun hcontexts x, congrFun hresumed x⟩

omit [DecidableEq Ctx] [Fintype Tid] in
theorem decided_sameElsewhere {k : Core Tid} {q' : Ported Ctx Tid} (h : q.decided b core e k = some q') :
    SameElsewhere e q q' := by
  unfold decided at h
  split at h
  · split_ifs at h <;> cases h <;> exact sameElsewhere_of_eq rfl rfl
  · cases h

omit [DecidableEq Tid] [Fintype Tid] in
/-- A switch between two threads of this core. -/
theorem switch_sameElsewhere (b : Build) (core : ℕ) {source : Option Ctx} (next : Tid)
    {q' : Ported Ctx Tid} (hsource : ∀ s, source = some s → ∃ t, s = e t)
    (hcontexts : q'.contexts = (q.toMachine.switchStacks b core source (e next)).contexts)
    (hresumed : q'.resumedOn = Function.update q.resumedOn (e next) (some core)) :
    SameElsewhere e q q' := by
  intro x hx
  constructor
  · rw [hcontexts]
    refine Machine.switchStacks_contexts_of_ne (fun hs => ?_) (hx next)
    obtain ⟨t, ht⟩ := hsource x hs
    exact hx t ht
  · rw [hresumed, Function.update_of_ne (hx next)]

omit [DecidableEq Tid] [Fintype Tid] in
theorem Inv.dispatch_sameElsewhere {m : Machine Ctx} (hi : Inv b core e q)
    (h : Machine.Dispatches b core q.toMachine m) :
    SameElsewhere e q ({ q with toMachine := m }.resume core (q.loads b.arch)) := by
  obtain ⟨cur, hcur, -, -, hag⟩ := hi.current
  obtain ⟨t, ht, -⟩ := hi.stacked.stack
  have hpsp : q.cpu.owed.source = q.cpu.psp → ∀ s, q.cpu.owed.source = some s → ∃ t, s = e t :=
    fun heq s hs => ⟨t, Option.some.inj (hs.symm.trans (heq.trans ht))⟩
  cases h with
  | switch arch dest place =>
      obtain ⟨rfl, hsource⟩ := hag.of_switching place
      refine switch_sameElsewhere b core cur (hpsp hsource) ?_ ?_
      · simp [loads, arch, place, resume, Machine.moveTo]
      · simp [loads, arch, place, resume]
  | serve arch place dest owed =>
      rcases hag.awaits (Or.inr place) with ⟨hnone, -⟩ | ⟨hdest, hsource⟩
      · simp [hnone] at owed
      · obtain rfl : e cur = dest := Option.some.inj (hdest.symm.trans owed)
        refine switch_sameElsewhere b core cur (hpsp hsource) ?_ ?_
        · simp [loads, arch, place, owed, resume, Machine.moveTo, Machine.setOwed]
        · simp [loads, arch, place, owed, resume]
  | check arch place owed =>
      refine sameElsewhere_of_eq ?_ ?_ <;> simp [loads, arch, place, owed, resume, Machine.moveTo]
  | read arch place | call arch place | clear arch place | look arch place | unflag arch place
  | depth arch place | defer arch place | undefer arch place =>
      refine sameElsewhere_of_eq ?_ ?_ <;>
        simp [loads, arch, place, resume, Machine.moveTo, Machine.setOwed, Machine.setDeferred]

theorem guardStep_sameElsewhere {fold : Tid → ℕ} {joiners : List Tid} {q' : Ported Ctx Tid}
    (h : q.guardStep e fold joiners = some q') : SameElsewhere e q q' := by
  unfold guardStep at h
  split at h
  · next prev _ =>
    obtain ⟨k, -, h⟩ := Option.bind_eq_some_iff.mp h
    obtain ⟨next, -, h⟩ := Option.map_eq_some_iff.mp h
    split at h
    · subst h
      exact fun x hx => ⟨Function.update_of_ne (hx prev) _ _, rfl⟩
    · subst h
      exact sameElsewhere_of_eq rfl rfl
  · cases h

/-- **A step writes its own core's contexts only.** -/
theorem Inv.step_sameElsewhere {act : PortedAct Tid} {q' : Ported Ctx Tid} (hi : Inv b core e q)
    (h : q.step b core e act = some q') : SameElsewhere e q q' := by
  cases act with
  | kernel | irqReturn =>
      obtain ⟨k, -, rfl⟩ := Option.map_eq_some_iff.mp h
      exact sameElsewhere_of_eq rfl rfl
  | irqEnter =>
      obtain ⟨k, -, rfl⟩ := Option.map_eq_some_iff.mp (Option.ite_none_left_eq_some.1 h).2
      exact sameElsewhere_of_eq rfl rfl
  | wakeReady fold =>
      simp only [Ported.step, Ported.wakeReadyStep] at h
      split at h
      · exact decided_sameElsewhere (Option.ite_none_right_eq_some.1 h).2
      · cases h
  | yield fold | commitToBlock fold =>
      obtain ⟨k, -, hk⟩ := Option.bind_eq_some_iff.mp (Option.ite_none_right_eq_some.1 h).2
      exact decided_sameElsewhere hk
  | mask | unmask | preempt | pendSvEnter | handlerReturn | pendSvReturn =>
      obtain ⟨-, rfl⟩ := of_guard h
      exact sameElsewhere_of_eq rfl rfl
  | pendFlag | pendSet =>
      cases h
      exact sameElsewhere_of_eq rfl rfl
  | dispatch =>
      obtain ⟨m, hm, rfl⟩ := Option.map_eq_some_iff.mp (Option.ite_none_right_eq_some.1 h).2
      exact hi.dispatch_sameElsewhere (Machine.dispatch_cases hm)
  | callHandler =>
      obtain ⟨k, -, rfl⟩ := Option.map_eq_some_iff.mp (Option.ite_none_right_eq_some.1 h).2
      exact sameElsewhere_of_eq rfl rfl
  | handlerGuard fold joiners => exact guardStep_sameElsewhere (Option.ite_none_right_eq_some.1 h).2
  | handlerSwitch =>
      obtain ⟨hplace, hswitch⟩ := Option.ite_none_right_eq_some.1 h
      obtain ⟨capture, next, -, -, -, -, -, -, rfl⟩ := hi.switchStep_eq hplace hswitch
      refine switch_sameElsewhere b core next (fun s hs => ?_) rfl rfl
      obtain ⟨prev, -, rfl⟩ := Option.map_eq_some_iff.mp hs
      exact ⟨prev, rfl⟩

omit [DecidableEq Ctx] [DecidableEq Tid] [Fintype Tid] in
/-- The invariant looks at this core's threads only. -/
theorem Inv.elsewhere {contexts : Ctx → Context Ctx} {resumedOn : Ctx → Option ℕ} (hi : Inv b core e q)
    (hc : ∀ t, contexts (e t) = q.contexts (e t)) (hr : ∀ t, resumedOn (e t) = q.resumedOn (e t)) :
    Inv b core e { q with contexts := contexts, resumedOn := resumedOn } := by
  obtain ⟨hkernel, hunmasked, howing, hhandler, hagrees, hstacked⟩ := hi
  refine ⟨hkernel, hunmasked, howing, hhandler, fun cur hcur => ?_, ?_⟩
  · cases hagrees cur hcur with
    | awaiting place awaits => exact .awaiting place awaits
    | switching place source => exact .switching place source
    | clearing place psp => exact .clearing place psp
    | served place handler dest psp => exact .served place handler dest psp
    | picked place handler dest capture picked psp => exact .picked place handler dest capture picked psp
  · obtain ⟨⟨t, hpsp, hres⟩, hsaved, hresumed, hnamed⟩ := hstacked
    refine ⟨⟨t, hpsp, (hr t).trans hres⟩, fun t ht => ?_, fun t k hk => ?_, fun harch t ht hres => ?_⟩
    · have hsp := hsaved t ht
      rwa [← hc t] at hsp
    · exact hresumed t k ((hr t).symm.trans hk)
    · have hcore := hnamed harch t ht (hres.imp_left ((hr t).symm ▸ ·))
      rwa [← hc t] at hcore

end Inv

end Ported

end Cyros.Port.CortexM
