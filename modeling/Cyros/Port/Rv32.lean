import Cyros.Kernel.PortView

/-!
# The RV32 hart: traps, owed switches and the soft interrupt

The RV32 core layer switches threads in one trap path.  A reschedule is the machine software interrupt,
or a call into the same path (`cyros_port_yield_entry`).  Every handler runs with `mstatus.MIE` clear, so
traps do not nest, and what comes between two steps of the path is another core: it raises this core's
soft interrupt, or posts to the kernel's intake.

* A switch decided by a thread is made at once, by `cyros_port_direct_switch`; one decided in an interrupt
  is owed to the trap's exit.
* The exit of an interrupt takes a pended reschedule along, and carries out the owed switch before it.

A frame is modelled by the thread whose registers it holds, `none` for the null pointer.
-/

namespace Cyros.Port.Rv32

open Cyros.Lib Cyros.Kernel

/-- `cyros_port_context`: where the frame is, and `pmpaddr0` for the thread's guard. -/
structure Context (Tid : Type) where
  frame : Option Tid
  guard : ℕ

/-- What `cyros_port_context_destroy` leaves. -/
def Context.destroyed (Tid : Type) : Context Tid := ⟨none, 0⟩

/-- Where the hart stands in its trap path. -/
inductive Trap where
  /-- No trap: a thread executes. -/
  | none
  /-- In the target's timer or external interrupt. -/
  | handler
  /-- `take_pended_reschedule` has seen the soft interrupt raised and not lowered it. -/
  | lowering
  /-- Before the look at the owed switch, with what `take_pended_reschedule` said. -/
  | leaving (asked : Bool)
  /-- Before `cyros_port_owed_switch_dispatch`. -/
  | owed (asked : Bool)
  /-- The soft interrupt's trap, before it lowers it. -/
  | softIrq
  /-- Before `reschedule_from`, and inside the kernel's handler. -/
  | calling
  | rescheduling
  /-- At the trap's exit, with a whole frame to resume. -/
  | resuming
  deriving DecidableEq, Repr

/-- A hart, with the kernel core it runs. -/
structure Hart (Tid : Type) where
  kernel : Core Tid
  /-- `capture_context` and `next_thread` of `reschedule`, once it has picked. -/
  picked : Option (Option Tid × Tid)
  contexts : Tid → Context Tid
  /-- The thread whose registers are on the hart: in a trap, in the frame its path hands on in `a0`. -/
  held : Option Tid
  /-- `core_state::frame`. -/
  frame : Option Tid
  trapDepth : ℕ
  inReschedule : Bool
  owedFrom : Option Tid
  owedTo : Option Tid
  /-- The interrupt bit of `mcause`. -/
  interruptCause : Bool
  /-- `mstatus.MIE` of the thread, and `mie.MSIE`, its preempt grade. -/
  mie : Bool
  msie : Bool
  /-- The soft interrupt. -/
  raised : Bool
  pmpaddr0 : ℕ
  trap : Trap

inductive HartAct (Tid : Type) where
  /-- A step of the kernel that decides nothing. -/
  | kernel (act : CoreAct Tid)
  | wakeReady (fold : Tid → ℕ)
  | yield (fold : Tid → ℕ)
  | commitToBlock (fold : Tid → ℕ)
  /-- `cyros_port_thread_yield` and `cyros_port_pend_reschedule`. -/
  | threadYield
  | pendReschedule
  /-- Another core's raise of this core's soft interrupt. -/
  | remoteRaise
  /-- The thread writes MIE, or MSIE. -/
  | setMie (enabled : Bool)
  | setMsie (enabled : Bool)
  | irqEnter
  /-- The target's handler returns; a raise may not be `visible` in `mip` yet. -/
  | irqReturn (visible : Bool)
  | lower
  | leave
  | owedSwitch
  | softIrqEnter
  | softIrqLower
  | callHandler
  | handlerGuard (fold : Tid → ℕ) (joiners : List Tid)
  | handlerSwitch
  | handlerReturn
  | resume

/-- The calls and stores that ask for a reschedule. -/
def HartAct.IsRequest {Tid : Type} : HartAct Tid → Prop
  | .threadYield | .pendReschedule | .remoteRaise => True
  | _ => False

namespace Hart

variable {Tid : Type}

/-- The thread the hart runs is at baseline. -/
def atBaseline (q : Hart Tid) : Bool := q.trap == .none && q.mie && q.msie

/-- `cyros_port_interrupted_at_baseline`. -/
def interruptedAtBaseline (q : Hart Tid) : Bool :=
  q.trapDepth == 1 && !q.inReschedule && q.interruptCause && q.msie

/-- What the port says of the place of a wake. -/
def road (q : Hart Tid) : Road :=
  if q.kernel.irqs.isEmpty then if q.mie && q.msie then .baseline else .deferred
  else if q.interruptedAtBaseline then .interrupt else .deferred

/-- `cyros_port_owe_switch`: a second decision keeps the first one's source. -/
def oweSwitch (q : Hart Tid) (source dest : Tid) : Hart Tid :=
  { q with
    owedFrom := if q.owedTo = none then some source else q.owedFrom
    owedTo := some dest }

variable [DecidableEq Tid]

/-- A store of `frame` into a context, if there is one to store into. -/
def save (contexts : Tid → Context Tid) (source frame : Option Tid) : Tid → Context Tid :=
  match source with
  | some s => Function.update contexts s { contexts s with frame := frame }
  | none => contexts

/-- `cyros_port_direct_switch`: the outgoing thread's frame, the incoming one's guard, and its registers.
It returns unmasked. -/
def directSwitch (q : Hart Tid) (source dest : Tid) : Hart Tid :=
  let contexts := save q.contexts (some source) q.held
  { q with
    contexts := contexts
    pmpaddr0 := if (contexts dest).guard = 0 then q.pmpaddr0 else (contexts dest).guard
    held := (contexts dest).frame
    mie := true }

/-- `cyros_port_owed_switch_dispatch`, up to the reschedule or the exit. -/
def owedSwitch (guarded : Bool) (q : Hart Tid) (dest : Tid) : Hart Tid :=
  let contexts := save q.contexts q.owedFrom q.held
  { q with
    owedTo := none
    contexts := contexts
    pmpaddr0 := if guarded then (contexts dest).guard else q.pmpaddr0
    held := (contexts dest).frame }

/-- `cyros_port_switch`. -/
def portSwitch (guarded : Bool) (q : Hart Tid) (source : Option Tid) (dest : Tid) : Hart Tid :=
  let contexts := save q.contexts source q.frame
  { q with
    contexts := contexts
    frame := (contexts dest).frame
    pmpaddr0 := if guarded then (contexts dest).guard else q.pmpaddr0 }

/-- The kernel is now `k`: a new current thread is switched to, or the switch is owed. -/
def decided (q : Hart Tid) (k : Core Tid) : Option (Hart Tid) :=
  match q.kernel.sched.currentThread, k.sched.currentThread with
  | some prev, some next =>
      if next = prev then some { q with kernel := k }
      else if q.trap = .none then some ({ q with kernel := k }.directSwitch prev next)
      else some ({ q with kernel := k }.oweSwitch prev next)
  | _, _ => none

/-- A thread executes, or the target's interrupt handler. -/
def wakes (q : Hart Tid) : Bool := q.trap == .none || q.trap == .handler

variable [Fintype Tid]

/-- The kernel's steps that decide nothing, by whoever executes them. -/
def kernelStep (q : Hart Tid) (act : CoreAct Tid) : Option (Core Tid) :=
  match act with
  | .wake .. | .wakeClear | .wakeLook => if q.wakes then q.kernel.next act else none
  | .prepare | .unprepare | .threadExit | .hold _ => if q.trap = .none then q.kernel.next act else none
  | .handlerTake | .handlerBits | .handlerReady _ | .handlerPrev =>
      if q.trap = .rescheduling then q.kernel.next act else none
  | .remoteClaim _ | .remotePush _ | .remoteFile .. => q.kernel.next act
  | _ => none

/-- The last step of a wake: `set_thread_ready`, on the road the port says. -/
def wakeReadyStep (q : Hart Tid) (fold : Tid → ℕ) : Option (Hart Tid) :=
  match q.kernel.executing with
  | some (.ready t policy) =>
      if q.wakes then
        q.decided { q.kernel.moveTo .idle with
          sched := Core.setThreadReady q.kernel.sched fold t policy q.road }
      else none
  | _ => none

/-- The running thread's own decisions, which require baseline. -/
def threadDecides (q : Hart Tid) (act : CoreAct Tid) : Option (Hart Tid) :=
  if q.atBaseline then (q.kernel.next act).bind q.decided else none

/-- The guarded half of `reschedule`. -/
def guardStep (q : Hart Tid) (fold : Tid → ℕ) (joiners : List Tid) : Option (Hart Tid) :=
  match q.kernel.handler with
  | .guard prev =>
      (q.kernel.next (.handlerGuard fold joiners)).bind fun k => k.sched.currentThread.map fun next =>
        if Core.retires q.kernel.sched prev then
          { q with
            kernel := k
            picked := some (none, next)
            contexts := Function.update q.contexts prev (Context.destroyed Tid) }
        else { q with kernel := k, picked := some (some prev, next) }
  | _ => none

/-- `cyros_port_switch`, at the end of `reschedule`. -/
def switchStep (guarded : Bool) (q : Hart Tid) : Option (Hart Tid) :=
  match q.picked with
  | some (capture, next) => (q.kernel.next .handlerSwitch).map fun k =>
      { q with kernel := k, picked := none }.portSwitch guarded capture next
  | none => none

/-- The trap path's own steps. -/
def trapStep (guarded : Bool) (q : Hart Tid) : HartAct Tid → Option (Hart Tid)
  | .lower => if q.trap = .lowering then some { q with raised := false, trap := .leaving true } else none
  | .leave => match q.trap with
    | .leaving asked =>
        let left := { q with trapDepth := q.trapDepth - 1 }
        some (if q.owedTo ≠ none then { left with trap := .owed asked }
          else { left with trap := if asked then .calling else .none })
    | _ => none
  | .owedSwitch => match q.trap, q.owedTo with
    | .owed asked, some dest =>
        some { q.owedSwitch guarded dest with trap := if asked then .calling else .resuming }
    | _, _ => none
  | .softIrqEnter =>
      if q.atBaseline ∧ q.raised then some { q with trap := .softIrq, interruptCause := true } else none
  | .softIrqLower => if q.trap = .softIrq then some { q with raised := false, trap := .calling } else none
  | .resume => if q.trap = .resuming then some { q with trap := .none, mie := true } else none
  | _ => none

/-- One step of the hart. -/
def next (guarded : Bool) (q : Hart Tid) : HartAct Tid → Option (Hart Tid)
  | .kernel act => (q.kernelStep act).map fun k => { q with kernel := k }
  | .wakeReady fold => q.wakeReadyStep fold
  | .yield fold => q.threadDecides (.yield fold)
  | .commitToBlock fold => q.threadDecides (.commitToBlock fold)
  | .threadYield => if q.atBaseline then some { q with trap := .calling } else none
  | .pendReschedule =>
      if q.atBaseline then some { q with trap := .calling }
      else if q.wakes ∨ q.trap = .rescheduling then some { q with raised := true }
      else none
  | .remoteRaise => some { q with raised := true }
  | .setMie enabled => if q.trap = .none then some { q with mie := enabled } else none
  | .setMsie enabled => if q.trap = .none then some { q with msie := enabled } else none
  | .irqEnter =>
      if q.trap = .none ∧ q.mie then (q.kernel.next .irqEnter).map fun k =>
        { q with kernel := k, trap := .handler, trapDepth := q.trapDepth + 1, interruptCause := true }
      else none
  | .irqReturn visible =>
      if q.trap = .handler then (q.kernel.next .irqReturn).map fun k =>
        { q with
          kernel := k
          trap := if visible && q.raised && q.msie then .lowering else .leaving false }
      else none
  | .callHandler =>
      if q.trap = .calling then (q.kernel.next .handlerEnter).map fun k =>
        { q with
          kernel := k
          trapDepth := 1
          inReschedule := true
          frame := q.held
          trap := .rescheduling }
      else none
  | .handlerGuard fold joiners => if q.trap = .rescheduling then q.guardStep fold joiners else none
  | .handlerSwitch => if q.trap = .rescheduling then q.switchStep guarded else none
  | .handlerReturn =>
      if q.trap = .rescheduling ∧ q.kernel.handler = .idle then
        some { q with inReschedule := false, trapDepth := 0, held := q.frame, trap := .resuming }
      else none
  | act => q.trapStep guarded act

/-- The context a step saves a frame into, and the frame. -/
def saves (q : Hart Tid) : HartAct Tid → Option (Tid × Option Tid)
  | .yield _ | .commitToBlock _ | .wakeReady _ =>
      -- a decision in thread context switches at once
      if q.trap = .none then q.kernel.sched.currentThread.map fun cur => (cur, q.held) else none
  | .owedSwitch => q.owedFrom.map fun source => (source, q.held)
  | .handlerSwitch => (q.picked.bind Prod.fst).map fun source => (source, q.frame)
  | _ => none

/-- The hart past `cyros_port_start_first`, every context as `cyros_port_context_init` left it. -/
def boot (idle : Tid) (basePriority : Tid → Level) (threads : List Tid) (guards : Tid → ℕ) : Hart Tid :=
  let kernel := Core.boot idle basePriority threads
  { kernel := kernel
    picked := none
    contexts := fun t => ⟨some t, guards t⟩
    held := kernel.sched.currentThread
    frame := kernel.sched.currentThread
    trapDepth := 0
    inReschedule := false
    owedFrom := none
    owedTo := none
    interruptCause := false
    mie := true
    msie := true
    raised := false
    pmpaddr0 := kernel.sched.currentThread.elim 0 guards
    trap := .none }

end Hart

end Cyros.Port.Rv32
