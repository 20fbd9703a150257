import Mathlib.Algebra.Ring.Nat
import Mathlib.Data.Fintype.Basic
import Mathlib.Data.Fintype.Card
import Mathlib.Data.List.FinRange
import Cyros.Lib.IntrusiveQueue

/-!
# The per-core scheduler

The state of one core's `scheduler` and of the thread control blocks pinned to it, and the functions
that file, pick and switch threads: `admit`, `make_ready`, `depart`, `pick_next`, `decide`, the intake
and the two halves of `reschedule`.  All of them run inside the core's critical section; where the
source leaves it, the caller's steps are cut (`Kernel.CoreRun`).

Threads are an arbitrary finite type.  Links are pointers, as in the source: a level of the ready
matrix and the holder list are queues of `Lib.IntrusiveQueue` through `next` and `holderNext`, with
the self-pointer for a thread that is on neither.

The urgency of a thread that holds something is a fold over queues which other cores change, so it is
an argument (`fold`) of every function that asks for it.  A thread that holds nothing has its base
priority.  The joiners a termination wakes are an argument in the same way.
-/

namespace Cyros.Kernel

open Cyros.Lib.IntrusiveQueue

/-- `thread_state`. -/
inductive ThreadState where
  | created
  | ready
  | running
  | blocked
  | terminated
  deriving DecidableEq, Repr

/-- `thread_disposition`. -/
inductive Disposition where
  | none
  | prepared
  | terminating
  deriving DecidableEq, Repr

/-- `reschedule_policy`. -/
inductive Policy where
  | automatic
  | never
  | always
  deriving DecidableEq, Repr

/-- `schedule_hint`. -/
inductive Hint where
  | unwarranted
  | warranted
  | rescheduled
  deriving DecidableEq, Repr

/-- `departure_reason`. -/
inductive Departure where
  | yielded
  | preempted
  | parked
  | exited
  deriving DecidableEq, Repr

/-- A priority level; `max_priorities` is at most the width of the bitmap. -/
abbrev Level := Fin 32

instance neZero_levels : NeZero 32 := ⟨by decide⟩

/-- One core's scheduler, with the fields of the thread control blocks pinned to it. -/
structure Sched (Tid : Type) where
  currentThread : Option Tid
  idleThread : Tid
  matrix : Level → Queue Tid
  bitmap : BitVec 32
  holders : Queue Tid
  tieRotor : BitVec 32
  /-- The intake stack, most recent push first. -/
  intake : List Tid
  state : Tid → ThreadState
  disposition : Tid → Disposition
  next : Tid → Option Tid
  holderNext : Tid → Option Tid
  basePriority : Tid → Level
  heldMask : Tid → BitVec 8
  /-- The `make_ready` bit of `pending_requests`. -/
  pending : Tid → Bool
  /-- The terminations raised so far, most recent first. -/
  raised : List Tid

namespace Sched

variable {Tid : Type} [DecidableEq Tid]

/-! ### Thread control blocks -/

def holdsNothing (s : Sched Tid) (t : Tid) : Bool := s.heldMask t == 0

def isEnqueued (s : Sched Tid) (t : Tid) : Bool := s.next t != some t

def isListedHolder (s : Sched Tid) (t : Tid) : Bool := s.holderNext t != some t

/-- `urgency`: the base priority, or the fold over what the thread holds. -/
def urgency (s : Sched Tid) (fold : Tid → ℕ) (t : Tid) : ℕ :=
  if s.heldMask t = 0 then s.basePriority t else fold t

def currentThreadUrgency (s : Sched Tid) (fold : Tid → ℕ) : ℕ :=
  match s.currentThread with
  | some c => s.urgency fold c
  | none => 0

def setState (s : Sched Tid) (t : Tid) (x : ThreadState) : Sched Tid :=
  { s with state := Function.update s.state t x }

def setDisposition (s : Sched Tid) (t : Tid) (d : Disposition) : Sched Tid :=
  { s with disposition := Function.update s.disposition t d }

/-! ### The ready matrix -/

/-- The bit of a level, `1u << priority`. -/
def bit (p : Level) : BitVec 32 := 1#32 <<< p.val

/-- A level's queue and the links after an operation on it. -/
def setLevel (s : Sched Tid) (p : Level) (l : Linked Tid) : Sched Tid :=
  { s with next := l.next, matrix := Function.update s.matrix p l.queue }

/-- `bitmap |= (1u << priority)` -/
def markLevel (s : Sched Tid) (p : Level) : Sched Tid := { s with bitmap := s.bitmap ||| bit p }

/-- `if (level.empty()) bitmap &= ~(1u << priority)` -/
def unmarkIfEmpty (s : Sched Tid) (p : Level) : Sched Tid :=
  if (s.matrix p).head.isNone then { s with bitmap := s.bitmap &&& ~~~(bit p) } else s

def enqueueThread (s : Sched Tid) (t : Tid) : Sched Tid :=
  let p := s.basePriority t
  (s.setLevel p (pushBack s.next (s.matrix p) t)).markLevel p

def enqueueThreadFront (s : Sched Tid) (t : Tid) : Sched Tid :=
  let p := s.basePriority t
  (s.setLevel p (pushFront s.next (s.matrix p) t)).markLevel p

/-- `best_priority`: the lowest set bit. -/
def bestPriority (s : Sched Tid) : Option Level :=
  (List.finRange 32).find? fun p => s.bitmap.getLsbD p.val

def hasMoreUrgentThan (s : Sched Tid) (p : Level) : Bool := s.bitmap &&& (bit p - 1) != 0

def popBestThread (s : Sched Tid) : Option Tid × Sched Tid :=
  match s.bestPriority with
  | none => (none, s)
  | some p => match popFront s.next (s.matrix p) with
    | some (t, l) => (some t, (s.setLevel p l).unmarkIfEmpty p)
    | none => (none, s.unmarkIfEmpty p)

/-- `remove_thread`; the source asserts that the search finds the thread. -/
def removeThread [Fintype Tid] (s : Sched Tid) (t : Tid) : Sched Tid :=
  let p := s.basePriority t
  match remove (Fintype.card Tid) s.next (s.matrix p) t with
  | some l => (s.setLevel p l).unmarkIfEmpty p
  | none => s.unmarkIfEmpty p

/-! ### The holder list -/

def setHolders (s : Sched Tid) (l : Linked Tid) : Sched Tid :=
  { s with holderNext := l.next, holders := l.queue }

def linkHolder (s : Sched Tid) (t : Tid) : Sched Tid :=
  if s.isListedHolder t then s else s.setHolders (pushBack s.holderNext s.holders t)

def unlinkHolder [Fintype Tid] (s : Sched Tid) (t : Tid) : Sched Tid :=
  if s.isListedHolder t then
    match remove (Fintype.card Tid) s.holderNext s.holders t with
    | some l => s.setHolders l
    | none => s
  else s

/-! ### Filing -/

/-- `admit`: ready, and filed in the matrix or on the holder list.  The idle thread is in neither. -/
def admitThread (s : Sched Tid) (t : Tid) (atFront : Bool) : Sched Tid :=
  let s := s.setState t .ready
  if t = s.idleThread then s
  else if s.holdsNothing t then
    if atFront then s.enqueueThreadFront t else s.enqueueThread t
  else s.linkHolder t

/-- Whether readying `t` beats the running thread. -/
def hintFor (s : Sched Tid) (fold : Tid → ℕ) (t : Tid) : Hint :=
  if s.urgency fold t < s.currentThreadUrgency fold then .warranted else .unwarranted

def makeReady [Fintype Tid] (s : Sched Tid) (fold : Tid → ℕ) (t : Tid) : Sched Tid × Hint :=
  if s.state t = .terminated ∨ s.disposition t = .terminating then (s, .unwarranted)
  else if s.isEnqueued t || s.isListedHolder t then
    -- already filed: ownership may have arrived since, which moves it to the holder list
    if s.isEnqueued t && !s.holdsNothing t then
      let s := (s.removeThread t).linkHolder t
      (s, s.hintFor fold t)
    else (s, .unwarranted)
  else
    let s := s.admitThread t false
    (s, s.hintFor fold t)

/-! ### The pick -/

/-- The first holder at the best urgency, with that urgency: the loop of `pick_with_holders`. -/
def bestHolder (s : Sched Tid) (fold : Tid → ℕ) (hs : List Tid) : Option Tid × ℕ :=
  hs.foldl (fun best h => if s.urgency fold h < best.2 then (some h, s.urgency fold h) else best)
    (none, 0xFF)

def pickWithHolders [Fintype Tid] (s : Sched Tid) (fold : Tid → ℕ) : Option Tid × Sched Tid :=
  match s.bestHolder fold (walk s.holderNext (Fintype.card Tid) s.holders.head) with
  | (none, _) => s.popBestThread
  | (some h, u) =>
    match s.bestPriority with
    | none => (some h, s.unlinkHolder h)
    | some base =>
      if base.val < u then s.popBestThread
      else if base.val = u then
        -- a tie between the matrix and the holders alternates, per level
        let s := { s with tieRotor := s.tieRotor ^^^ bit base }
        if s.tieRotor &&& bit base = 0 then s.popBestThread else (some h, s.unlinkHolder h)
      else (some h, s.unlinkHolder h)

def pickNext [Fintype Tid] (s : Sched Tid) (fold : Tid → ℕ) : Option Tid × Sched Tid :=
  if s.holders.head.isNone then s.popBestThread else s.pickWithHolders fold

def setThreadRunning (s : Sched Tid) (t : Tid) : Sched Tid :=
  { s.setState t .running with currentThread := some t }

/-- `run_next`: the pick, or the idle thread, becomes the running thread. -/
def runNext [Fintype Tid] (s : Sched Tid) (fold : Tid → ℕ) : Sched Tid :=
  match s.pickNext fold with
  | (some t, s) => s.setThreadRunning t
  | (none, s) => s.setThreadRunning s.idleThread

/-! ### Departures -/

def setThreadBlocked (s : Sched Tid) (t : Tid) : Sched Tid :=
  (s.setDisposition t .none).setState t .blocked

/-- `global_ready_thread` for a thread of this core, made without a step in between: the wakes of a
termination, inside the guard of `reschedule`. -/
def globalReadyThread [Fintype Tid] (s : Sched Tid) (fold : Tid → ℕ) (t : Tid) : Sched Tid :=
  if s.state t = .terminated ∨ s.disposition t = .terminating then s
  else
    let s := s.setDisposition t .none
    if s.state t = .running then s else (s.makeReady fold t).1

/-- `set_thread_terminated`: retired, and `termination.raise(never)` wakes the joiners. -/
def setThreadTerminated [Fintype Tid] (s : Sched Tid) (fold : Tid → ℕ) (joiners : List Tid)
    (t : Tid) : Sched Tid :=
  let s := s.setState t .terminated
  joiners.foldl (fun s j => s.globalReadyThread fold j) { s with raised := t :: s.raised }

def depart [Fintype Tid] (s : Sched Tid) (fold : Tid → ℕ) (joiners : List Tid) (t : Tid) :
    Departure → Sched Tid
  | .yielded => s.admitThread t false
  | .preempted => s.admitThread t true
  | .parked => s.setThreadBlocked t
  | .exited => s.setThreadTerminated fold joiners t

/-- `preempted`: a strictly more urgent thread is in the matrix and no holder is about. -/
def preempted (s : Sched Tid) (t : Tid) : Bool :=
  s.hasMoreUrgentThan (s.basePriority t) && s.holders.head.isNone && s.holdsNothing t

def departureOf (s : Sched Tid) (t : Tid) : Departure :=
  if s.disposition t = .terminating then .exited
  else if s.preempted t then .preempted else .yielded

/-! ### The intake -/

/-- Take the request bits of a thread met on the intake. -/
def takeRequests (s : Sched Tid) (t : Tid) : Sched Tid :=
  { s with pending := Function.update s.pending t false }

/-- A wake revokes a wish to block, never one to terminate. -/
def revokePrepared (s : Sched Tid) (t : Tid) : Sched Tid :=
  if s.disposition t = .terminating then s else s.setDisposition t .none

/-- `service_intake` of a thread met on the intake, with its bits taken first. -/
def serviceIntake [Fintype Tid] (s : Sched Tid) (fold : Tid → ℕ) (t : Tid) : Sched Tid :=
  if s.pending t then (((s.takeRequests t).revokePrepared t).makeReady fold t).1
  else s.takeRequests t

/-- `drain_intake` under the critical section: the chain in arrival order. -/
def drainIntake [Fintype Tid] (s : Sched Tid) (fold : Tid → ℕ) : Sched Tid :=
  s.intake.reverse.foldl (fun s t => s.serviceIntake fold t) { s with intake := [] }

/-! ### The two roads -/

/-- `decide`, for a departure already known.  The pick is the new running thread. -/
def decide [Fintype Tid] (s : Sched Tid) (fold : Tid → ℕ) (reason : Departure) : Sched Tid :=
  let s := s.drainIntake fold
  match s.currentThread with
  | none => s
  | some prev =>
    (if s.state prev = .running then s.depart fold [] prev reason else s).runNext fold

/-- The guarded half of `reschedule`, for the `prev` it read before.  `none` is the `CYROS_REQUIRE` of
`set_thread_terminated` failing: an exiting thread that still holds something stops the system. -/
def rescheduleGuarded [Fintype Tid] (s : Sched Tid) (fold : Tid → ℕ) (joiners : List Tid)
    (prev : Tid) : Option (Sched Tid) :=
  if s.state prev = .running then
    if s.departureOf prev = .exited ∧ s.holdsNothing prev = false then none
    else some ((s.depart fold joiners prev (s.departureOf prev)).runNext fold)
  else some (s.runNext fold)

/-! ### Start -/

/-- After `initialise`: every thread created, the idle thread ready, nothing filed. -/
def initialise (idle : Tid) (basePriority : Tid → Level) : Sched Tid where
  currentThread := none
  idleThread := idle
  matrix := fun _ => Queue.nil
  bitmap := 0
  holders := Queue.nil
  tieRotor := 0
  intake := []
  state := Function.update (fun _ => .created) idle .ready
  disposition := fun _ => .none
  next := some
  holderNext := some
  basePriority := basePriority
  heldMask := fun _ => 0
  pending := fun _ => false
  raised := []

/-- `start`: the best of the matrix, or the idle thread, runs first. -/
def start (s : Sched Tid) : Sched Tid :=
  match s.popBestThread with
  | (some t, s) => s.setThreadRunning t
  | (none, s) => s.setThreadRunning s.idleThread

/-- The core as `start` leaves it, after `threads` were registered in that order. -/
def boot [Fintype Tid] (idle : Tid) (basePriority : Tid → Level) (threads : List Tid) : Sched Tid :=
  (threads.foldl (fun s t => (s.makeReady (fun _ => 0) t).1) (initialise idle basePriority)).start

end Sched

end Cyros.Kernel
