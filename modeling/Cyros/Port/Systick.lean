import Mathlib.Data.List.Basic
import Mathlib.Data.List.Pairwise
import Mathlib.Algebra.BigOperators.Group.List.Basic
import Mathlib.Algebra.Ring.Nat
import Cyros.Lib.Run

/-!
# The tickless SysTick time source

A 24-bit down counter with a reload register, a flag that says it reached zero since it was last asked, and
an exception that pends when it does.  The software adds the intervals that are complete into `base`, and
`now()` is `base` and what the counter has counted of the present interval.

The model is by clocks.  Each access to a register comes at least one clock after what the core did before,
any number of clocks may pass in between, and the steps of `now()`, of a restart in `arm()` and of
`SysTick_Handler` are its single accesses.  `now()`, `arm()` and `disarm()` mask interrupts, so nothing of
this file comes between their steps; device interrupts nest above the handler and may call them between any
two of its steps.  Whether the exception is taken at once or late, because a thread has masked or a device
interrupt is running, is left open.

`clock` is the true time, `unfolded` says that the counter has reached zero and `base` does not count that
interval yet, and `gaps` are the clocks that each restart gives up.  Numbers are not bounded: 64 bits hold
`base` for as long as they hold `clock`.
-/

namespace Cyros.Port

structure SystickRegs where
  load : ℕ
  val : ℕ
  countflag : Bool
  /-- `ICSR.PENDSTSET`: the exception is pending. -/
  pendst : Bool
  deriving DecidableEq, Repr

/-- Where `now_tickless_locked` is.  `time` is the clock of the first read of VAL. -/
inductive ReadPlace
  | val
  | ctrl (val time : ℕ)
  | again
  deriving DecidableEq, Repr

/-- Where `restart_from_now_locked` is, with what it has computed and the clock of its last read. -/
inductive Restart
  | read (place : ReadPlace)
  | second (count first next time : ℕ)
  | writeLoad (base next time : ℕ)
  | writeVal (base next time : ℕ)
  | clear (base next : ℕ)
  deriving DecidableEq, Repr

/-- The masked call under way. -/
inductive TimeCall
  | none
  | now (place : ReadPlace) (start : ℕ)
  | arm (place : Restart)
  deriving DecidableEq, Repr

/-- Where `SysTick_Handler` is, and the deadline it found reached. -/
inductive HandlerPlace
  | out
  | entered
  | consumed
  | restarting (reached : Option ℕ) (place : Restart)
  | callback
  deriving DecidableEq, Repr

/-- A value that `now()` returned, the clocks of its call, and what restarts had given up by then. -/
structure Reading where
  value : ℕ
  start : ℕ
  stop : ℕ
  lost : ℕ
  deriving DecidableEq, Repr

/-- The clocks between a restart's last read of VAL and its write, and the interval it ended. -/
structure Gap where
  clocks : ℕ
  period : ℕ
  deriving DecidableEq, Repr

structure SystickTime where
  regs : SystickRegs
  base : ℕ
  currentReload : ℕ
  armedDeadline : ℕ
  deliveryEnabled : Bool
  call : TimeCall
  handler : HandlerPlace
  clock : ℕ
  unfolded : Bool
  gaps : List Gap
  readings : List Reading
  /-- The deadlines that were delivered, and when. -/
  delivered : List (ℕ × ℕ)
  deriving DecidableEq, Repr

inductive TimeAct
  | tick
  | now
  | arm (deadline : ℕ)
  | disarm
  | deliver (enabled : Bool)
  | call
  | enter
  | handle
  deriving DecidableEq, Repr

namespace SystickTime

/-- `never`. -/
def noDeadline : ℕ := 2 ^ 64 - 1

def maxPeriod : ℕ := 2 ^ 24

def minPeriod : ℕ := 64

/-- `desired_reload`. -/
def desiredReload (armedDeadline count : ℕ) : ℕ :=
  (if armedDeadline = noDeadline then maxPeriod
    else min (max (if count < armedDeadline then armedDeadline - count else minPeriod) minPeriod) maxPeriod) - 1

/-- What `cyros_port_time_setup(0)` leaves. -/
def boot : SystickTime where
  regs := ⟨desiredReload noDeadline 0, 0, false, false⟩
  base := 0
  currentReload := desiredReload noDeadline 0
  armedDeadline := noDeadline
  deliveryEnabled := false
  call := .none
  handler := .out
  clock := 0
  unfolded := false
  gaps := []
  readings := []
  delivered := []

/-- The clocks given up so far: each restart's gap and the clock in which the counter reloads after its
write, the write of the setup being the first. -/
def lost (S : SystickTime) : ℕ :=
  (S.gaps.map fun gap => gap.clocks + 1).sum + 1

/-- **One clock of the counter.**  From zero it reloads; reaching zero sets the flag and pends the
exception. -/
def clockTick (S : SystickTime) : SystickTime :=
  { S with
    clock := S.clock + 1
    unfolded := S.unfolded || S.regs.val == 1
    regs := { S.regs with
      val := if S.regs.val = 0 then S.regs.load else S.regs.val - 1
      countflag := S.regs.countflag || S.regs.val == 1
      pendst := S.regs.pendst || S.regs.val == 1 } }

/-- Reading CTRL clears COUNTFLAG. -/
def clearFlag (S : SystickTime) : SystickTime :=
  { S with regs := { S.regs with countflag := false } }

/-- A step of `now_tickless_locked`: where it goes on, or the count, the VAL it corresponds to and when that
was read. -/
def readStep (S : SystickTime) : ReadPlace → SystickTime × (ReadPlace ⊕ (ℕ × ℕ × ℕ))
  | .val => (S, .inl (.ctrl S.regs.val S.clock))
  | .ctrl val time =>
      if S.regs.countflag then (S.clearFlag, .inl .again)
      else if val = 0 then (S.clearFlag, .inr (S.base, S.currentReload + 1, time))
      else (S.clearFlag, .inr (S.base + (S.currentReload - val), val, time))
  | .again =>
      (S, .inr (S.base + (S.currentReload + 1) + (S.currentReload - S.regs.val), S.regs.val, S.clock))

/-- A step of `restart_from_now_locked`, `none` when it is done. -/
def restartStep (onlyIfChanged : Bool) (S : SystickTime) : Restart → SystickTime × Option Restart
  | .read place =>
      match S.readStep place with
      | (S, .inl place) => (S, some (.read place))
      | (S, .inr (count, first, time)) =>
          let next := desiredReload S.armedDeadline count
          if onlyIfChanged ∧ next = S.currentReload then (S, none)
          else (S, some (.second count first next time))
  | .second count first next _ =>
      let second := if S.regs.val = 0 then S.currentReload + 1 else S.regs.val
      let between := if second ≤ first then first - second else first + (S.currentReload + 1 - second)
      (S, some (.writeLoad (count + between) next S.clock))
  | .writeLoad base next time =>
      ({ S with regs := { S.regs with load := next } }, some (.writeVal base next time))
  | .writeVal base next time =>
      ({ S with
        regs := { S.regs with val := 0, countflag := false }
        unfolded := false
        gaps := ⟨S.clock - time, S.currentReload + 1⟩ :: S.gaps }, some (.clear base next))
  | .clear base next =>
      ({ S with regs := { S.regs with pendst := false }, base := base, currentReload := next }, none)

/-- A step of the call under way. -/
def callStep (S : SystickTime) : Option SystickTime :=
  match S.call with
  | .none => none
  | .now place start =>
      match S.clockTick.readStep place with
      | (S, .inl place) => some { S with call := .now place start }
      | (S, .inr (value, _, _)) =>
          some { S with call := .none, readings := ⟨value, start, S.clock, S.lost⟩ :: S.readings }
  | .arm place =>
      match S.clockTick.restartStep false place with
      | (S, some place) => some { S with call := .arm place }
      | (S, none) => some { S with call := .none }

/-- The handler has restarted the interval; it delivers last. -/
def deliverReached (S : SystickTime) (reached : Option ℕ) : SystickTime :=
  match reached with
  | some deadline =>
      if S.deliveryEnabled then
        { S with handler := .callback, delivered := (deadline, S.clock) :: S.delivered }
      else { S with handler := .out }
  | none => { S with handler := .out }

/-- A step of `SysTick_Handler`. -/
def handleStep (S : SystickTime) : Option SystickTime :=
  match S.handler with
  | .out => none
  | .entered => some { S.clockTick.clearFlag with handler := .consumed }
  | .consumed =>
      let base := S.base + (S.currentReload + 1)
      let S := { S with base := base, unfolded := false }
      if S.armedDeadline ≠ noDeadline ∧ S.armedDeadline ≤ base then
        some { S with
          armedDeadline := noDeadline
          handler := .restarting (some S.armedDeadline) (.read .val) }
      else some { S with handler := .restarting none (.read .val) }
  | .restarting reached place =>
      match S.clockTick.restartStep true place with
      | (S, some place) => some { S with handler := .restarting reached place }
      | (S, none) => some (S.deliverReached reached)
  | .callback => some { S with handler := .out }

/-- `arm` restarts the interval when it would end after the deadline. -/
def armRestarts (S : SystickTime) (deadline : ℕ) : Bool :=
  min deadline S.armedDeadline < S.base + S.currentReload + 1

/-- **One step.** -/
def next (S : SystickTime) : TimeAct → Option SystickTime
  | .tick => some S.clockTick
  | .now => if S.call = .none then some { S with call := .now .val S.clock } else none
  | .arm deadline =>
      if S.call = .none then
        let S' := { S with armedDeadline := min deadline S.armedDeadline }
        if S.armRestarts deadline then some { S' with call := .arm (.read .val) } else some S'
      else none
  | .disarm => if S.call = .none then some { S with armedDeadline := noDeadline } else none
  | .deliver enabled => if S.call = .none then some { S with deliveryEnabled := enabled } else none
  | .call => S.callStep
  | .enter =>
      if S.call = .none ∧ S.handler = .out ∧ S.regs.pendst = true then
        let S := S.clockTick
        some { S with handler := .entered, regs := { S.regs with pendst := false } }
      else none
  | .handle => if S.call = .none then S.handleStep else none

end SystickTime

end Cyros.Port
