import Mathlib.Algebra.Ring.Nat
import Mathlib.Data.List.Basic
import Mathlib.Data.List.FinRange
import Mathlib.Logic.Function.Basic
import Cyros.Lib.Run

/-!
# The time drivers

A core's timetable, as both the tickless and the periodic driver keep it: a fixed table of slots, each
free or holding a timer, one-shot or recurring.  Threads and callbacks schedule and cancel under a mask,
in one step each.  The timer interrupt reads the time once and walks the table; a callback it runs may
schedule and cancel before the walk goes on, so the walk is taken slot by slot, and the loop that moves a
recurring timer past the present turn by turn.

The drivers differ in that the tickless one programs the port's one-shot for its earliest deadline
(`rearm_locked`) after each operation and at the end of each interrupt.  A port is given by what it does
with its armed deadline, and by the contract of `cyros_port_time_arm`.

The ghost `records` follow each timer by its handle: its first deadline, when its callback ran, and how
often it had run when a cancel of it returned true.  `stop` is not modelled.
-/

namespace Cyros.Time

/-- `MAX_SCHEDULED_CALLBACKS`. -/
def maxScheduledCallbacks : ℕ := 16

instance : NeZero maxScheduledCallbacks := ⟨by decide⟩

/-- What a tick count and a deadline wrap at. -/
def tickSize : ℕ := 2 ^ 64

/-- What a handle's id wraps at. -/
def idSize : ℕ := 2 ^ 32

/-- The deadline that is none: `numeric_limits<uint64_t>::max()`. -/
def never : ℕ := tickSize - 1

structure Slot (C A : Type) where
  id : ℕ
  when : ℕ
  period : ℕ
  cb : Option C
  arg : Option A
  deriving DecidableEq, Repr

variable {C A : Type}

/-- `slot{}`. -/
def Slot.free : Slot C A := ⟨0, 0, 0, none, none⟩

abbrev Index : Type := Fin maxScheduledCallbacks

structure Timetable (C A : Type) where
  started : Bool
  nextId : ℕ
  slots : Index → Slot C A

namespace Timetable

def init : Timetable C A := ⟨false, 1, fun _ => .free⟩

def setSlot (t : Timetable C A) (i : Index) (s : Slot C A) : Timetable C A :=
  { t with slots := Function.update t.slots i s }

@[grind =] theorem setSlot_slots (t : Timetable C A) (i j : Index) (s : Slot C A) :
    (t.setSlot i s).slots j = if j = i then s else t.slots j :=
  Function.update_apply ..

/-- The first slot that the loops of `schedule_at` and `cancel` stop at. -/
def findSlot (t : Timetable C A) (id : ℕ) : Option Index :=
  (List.finRange maxScheduledCallbacks).find? fun i => (t.slots i).id = id

/-- `next_handle_id`. -/
def nextHandleId (t : Timetable C A) : ℕ × Timetable C A :=
  let after := (t.nextId + 1) % idSize
  if t.nextId = 0 then (after, { t with nextId := (after + 1) % idSize })
  else (t.nextId, { t with nextId := after })

theorem nextHandleId_same (t : Timetable C A) :
    t.nextHandleId.2.started = t.started ∧ t.nextHandleId.2.slots = t.slots := by
  unfold nextHandleId
  dsimp only
  split <;> exact ⟨rfl, rfl⟩

/-- A recurring timer that waits for `start` to give it its deadline. -/
def Pended (s : Slot C A) : Prop := s.id ≠ 0 ∧ s.period ≠ 0 ∧ s.when = 0

instance (s : Slot C A) : Decidable (Pended s) :=
  inferInstanceAs (Decidable (_ ∧ _ ∧ _))

/-- The body of the loop of `anchor_pended_recurring`. -/
def anchored (now : ℕ) (s : Slot C A) : Slot C A :=
  if Pended s then { s with when := (now + s.period) % tickSize } else s

/-- `anchor_pended_recurring`. -/
def anchorPendedRecurring (t : Timetable C A) (now : ℕ) : Timetable C A :=
  { t with slots := fun i => anchored now (t.slots i) }

/-- The loop of `rearm_locked`: the earliest deadline, `never` when there is none. -/
def earliest (t : Timetable C A) : ℕ :=
  (List.finRange maxScheduledCallbacks).foldl
    (fun earliest i => if (t.slots i).id ≠ 0 ∧ (t.slots i).when < earliest then (t.slots i).when
      else earliest) never

end Timetable

/-- **A port's one-shot**, with the contract of `cyros_port_time_arm`: the earliest deadline is honoured,
`effectively min(current, deadline)`. -/
structure OneShot (P : Type) where
  /-- The deadline it is armed for, `never` when for none. -/
  armed : P → ℕ
  /-- `cyros_port_time_setup(0)`. -/
  setup : P → P
  arm : P → ℕ → P
  disarm : P → P
  irqEnable : P → P
  /-- What the timer interrupt does before it calls the driver, and whether it calls it. -/
  interrupt : P → ℕ → P × Bool
  arm_le : ∀ p deadline, armed (arm p deadline) ≤ deadline
  irqEnable_le : ∀ p, armed (irqEnable p) ≤ armed p

/-- A core of the MTIME source, its deadline half, and likewise of the SysTick source. -/
structure DeadlineGate where
  armed : ℕ
  delivery : Bool
  deriving DecidableEq, Repr

/-- The MTIME source.  `interrupt` forgets a deadline that is reached whether or not it delivers it, and
`SysTick_Handler` does the same with `armed_deadline` and `delivery_enabled`. -/
def mtimeOneShot : OneShot DeadlineGate where
  armed := DeadlineGate.armed
  setup := fun _ => ⟨never, false⟩
  arm := fun p deadline => if deadline < p.armed then { p with armed := deadline } else p
  disarm := fun p => { p with armed := never }
  irqEnable := fun p => { p with delivery := true }
  interrupt := fun p now =>
    let reached := p.armed ≠ never ∧ p.armed ≤ now
    if reached then ({ p with armed := never }, p.delivery) else (p, false)
  arm_le := by
    intro p deadline
    split
    · exact le_refl _
    · next h => exact Nat.le_of_not_lt h
  irqEnable_le := fun _ => le_refl _

inductive Driver
  | tickless
  | periodic
  deriving DecidableEq, Repr

/-- Where `start` is. -/
inductive StartPlace
  | before
  | setUp
  | anchored
  | live
  deriving DecidableEq, Repr

/-- Where the timer interrupt is: not taken, before its read of the time, at a slot of the walk, in the loop
that moves a recurring timer on, in a callback.  The time it read goes with it. -/
inductive IsrPlace (C A : Type)
  | out
  | entered
  | walk (i now : ℕ)
  | moving (i : Index) (now : ℕ) (cb : Option C) (arg : Option A)
  | callback (i : Index) (now : ℕ)
  deriving DecidableEq, Repr

/-- A call of a callback. -/
structure Call (C A : Type) where
  time : ℕ
  cb : Option C
  arg : Option A
  deriving DecidableEq, Repr

/-- What happened to the timer of a handle. -/
structure Record (C A : Type) where
  first : ℕ
  period : ℕ
  cb : Option C
  arg : Option A
  ran : List (Call C A)
  /-- How often its callback had run when a cancel of it returned true. -/
  cancelled : Option ℕ
  deriving DecidableEq, Repr

/-- `start` gives a recurring timer its first deadline. -/
def Record.anchored (now : ℕ) (rec : Record C A) : Record C A :=
  if rec.period ≠ 0 ∧ rec.first = 0 then { rec with first := (now + rec.period) % tickSize } else rec

structure Core (P C A : Type) where
  table : Timetable C A
  port : P
  now : ℕ
  startPlace : StartPlace
  isr : IsrPlace C A
  records : ℕ → Option (Record C A)
  /-- The handles whose callbacks ran in the last interrupt. -/
  ranNow : List ℕ
  /-- The one-shots that were due when the last interrupt read the time, and neither ran nor were
  cancelled since. -/
  due : List ℕ

inductive Act (C A : Type)
  | tick (ticks : ℕ)
  | setUp
  | anchor
  | irqEnable
  | scheduleAt (tp : ℕ) (cb : Option C) (arg : Option A)
  | scheduleRecurring (interval : ℕ) (cb : Option C) (arg : Option A)
  | cancel (id : ℕ)
  | interrupt
  | readTime
  | look
  | move
  | ret
  | leave
  deriving DecidableEq, Repr

namespace Core

variable {P : Type}

def boot (port : P) (now : ℕ) : Core P C A where
  table := .init
  port := port
  now := now
  startPlace := .before
  isr := .out
  records := fun _ => none
  ranNow := []
  due := []

section
variable (O : OneShot P) (driver : Driver)

/-- `rearm_locked`; the periodic driver has none. -/
def rearmLocked (S : Core P C A) : Core P C A :=
  match driver with
  | .tickless =>
      if S.table.earliest = never then { S with port := O.disarm S.port }
      else { S with port := O.arm S.port S.table.earliest }
  | .periodic => S

/-- It changes nothing but the port. -/
theorem rearmLocked_eq (S : Core P C A) : ∃ port, S.rearmLocked O driver = { S with port := port } := by
  unfold rearmLocked
  split
  · split
    · exact ⟨_, rfl⟩
    · exact ⟨_, rfl⟩
  · exact ⟨S.port, rfl⟩

theorem rearmLocked_table (S : Core P C A) : (S.rearmLocked O driver).table = S.table := by
  obtain ⟨port, h⟩ := rearmLocked_eq O driver S
  rw [h]

/-- The end of an operation that changed the table. -/
def settle (S : Core P C A) : Core P C A :=
  if S.table.started then S.rearmLocked O driver else S

theorem settle_eq (S : Core P C A) : ∃ port, S.settle O driver = { S with port := port } := by
  unfold settle
  split
  · exact rearmLocked_eq O driver S
  · exact ⟨S.port, rfl⟩

theorem settle_table (S : Core P C A) : (S.settle O driver).table = S.table := by
  obtain ⟨port, h⟩ := settle_eq O driver S
  rw [h]

/-- What both schedule functions do with the free slot they found, and the handle's id. -/
def fill (S : Core P C A) (i : Index) (when period : ℕ) (cb : C) (arg : Option A) : ℕ × Core P C A :=
  let (id, table) := S.table.nextHandleId
  (id, settle O driver { S with
    table := table.setSlot i ⟨id, when, period, some cb, arg⟩
    records := Function.update S.records id (some ⟨when, period, some cb, arg, [], none⟩) })

/-- `schedule_at`: the handle's id, zero when there is none. -/
def scheduleAt (S : Core P C A) (tp : ℕ) (cb : Option C) (arg : Option A) : ℕ × Core P C A :=
  match cb, S.table.findSlot 0 with
  | some cb, some i => S.fill O driver i tp 0 cb arg
  | _, _ => (0, S)

/-- `schedule_recurring`.  Before `start` the deadline is left zero. -/
def scheduleRecurring (S : Core P C A) (interval : ℕ) (cb : Option C) (arg : Option A) : ℕ × Core P C A :=
  match cb, S.table.findSlot 0 with
  | some cb, some i =>
      if interval = 0 then (0, S)
      else
        S.fill O driver i (if S.table.started then (S.now + interval) % tickSize else 0) interval cb arg
  | _, _ => (0, S)

/-- `cancel`, and what it returns. -/
def cancel (S : Core P C A) (id : ℕ) : Bool × Core P C A :=
  if id = 0 then (false, S)
  else
    match S.table.findSlot id with
    | some i => (true, settle O driver { S with
        table := S.table.setSlot i .free
        records := Function.update S.records id
          ((S.records id).map fun rec => { rec with cancelled := some rec.ran.length })
        due := S.due.filter (· ≠ id) })
    | none => (false, S)

/-- The masked part of `start`. -/
def anchor (S : Core P C A) : Core P C A :=
  rearmLocked O driver { S with
    table := { S.table.anchorPendedRecurring S.now with started := true }
    startPlace := .anchored
    records := fun id => (S.records id).map (Record.anchored S.now) }

end

/-- The handles of the one-shots that are due. -/
def dueOneShots (table : Timetable C A) (now : ℕ) : List ℕ :=
  ((List.finRange maxScheduledCallbacks).filter fun i =>
    (table.slots i).id ≠ 0 ∧ (table.slots i).period = 0 ∧ (table.slots i).when ≤ now).map
      fun i => (table.slots i).id

/-- `callback(arg)` of the slot at `i`, whose handle is `id`. -/
def callCallback (S : Core P C A) (i : Index) (now id : ℕ) (cb : Option C) (arg : Option A) : Core P C A :=
  { S with
    isr := .callback i now
    records := Function.update S.records id
      ((S.records id).map fun rec => { rec with ran := rec.ran ++ [⟨S.now, cb, arg⟩] })
    ranNow := id :: S.ranNow
    due := S.due.filter (· ≠ id) }

/-- One turn of the loop that moves a recurring timer past the time the interrupt read. -/
def moveOn (S : Core P C A) (i : Index) (now : ℕ) (cb : Option C) (arg : Option A) : Core P C A :=
  let s := S.table.slots i
  let when := (s.when + s.period) % tickSize
  let S := { S with table := S.table.setSlot i { s with when := when } }
  if when ≤ now then { S with isr := .moving i now cb arg } else S.callCallback i now s.id cb arg

/-- The body of the walk of `fire_due_isr`. -/
def fireDue (S : Core P C A) (i : Index) (now : ℕ) : Core P C A :=
  let s := S.table.slots i
  if s.id ≠ 0 ∧ s.when ≤ now then
    if s.period = 0 then
      { S with table := S.table.setSlot i .free }.callCallback i now s.id s.cb s.arg
    else S.moveOn i now s.cb s.arg
  else { S with isr := .walk (i + 1) now }

/-- Threads and callbacks may call the driver; nothing else runs inside the timer interrupt. -/
def mayCall (S : Core P C A) : Bool :=
  match S.isr with
  | .out => true
  | .callback _ _ => true
  | _ => false

/-- **One step of a core.** -/
def next (O : OneShot P) (driver : Driver) (S : Core P C A) : Act C A → Option (Core P C A)
  | .tick ticks => if S.now + ticks < tickSize then some { S with now := S.now + ticks } else none
  | .setUp =>
      match S.startPlace, S.isr with
      | .before, .out => some { S with startPlace := .setUp, port := O.setup S.port }
      | _, _ => none
  | .anchor =>
      match S.startPlace, S.isr with
      | .setUp, .out => some (S.anchor O driver)
      | _, _ => none
  | .irqEnable =>
      match S.startPlace, S.isr with
      | .anchored, .out => some { S with startPlace := .live, port := O.irqEnable S.port }
      | _, _ => none
  | .scheduleAt tp cb arg =>
      if S.mayCall ∧ tp < tickSize then some (S.scheduleAt O driver tp cb arg).2 else none
  | .scheduleRecurring interval cb arg =>
      if S.mayCall ∧ interval < tickSize then some (S.scheduleRecurring O driver interval cb arg).2
      else none
  | .cancel id => if S.mayCall then some (S.cancel O driver id).2 else none
  | .interrupt =>
      -- until `start` arms the port it has nothing to interrupt for
      match S.isr, S.table.started with
      | .out, true =>
          let (port, delivered) := O.interrupt S.port S.now
          some { S with port := port, isr := if delivered then .entered else .out }
      | _, _ => none
  | .readTime =>
      match S.isr with
      | .entered =>
          some { S with isr := .walk 0 S.now, ranNow := [], due := dueOneShots S.table S.now }
      | _ => none
  | .look =>
      match S.isr with
      | .walk i now => if h : i < maxScheduledCallbacks then some (S.fireDue ⟨i, h⟩ now) else none
      | _ => none
  | .move =>
      match S.isr with
      | .moving i now cb arg => some (S.moveOn i now cb arg)
      | _ => none
  | .ret =>
      match S.isr with
      | .callback i now => some { S with isr := .walk (i + 1) now }
      | _ => none
  | .leave =>
      match S.isr with
      | .walk i _ =>
          if i = maxScheduledCallbacks then some { S.rearmLocked O driver with isr := .out } else none
      | _ => none

/-- **What a step can do.** -/
inductive Effect (O : OneShot P) (driver : Driver) (S : Core P C A) : Act C A → Core P C A → Prop
  | tick {ticks} : Effect O driver S (.tick ticks) { S with now := S.now + ticks }
  | setUp : S.startPlace = .before → S.isr = .out →
      Effect O driver S .setUp { S with startPlace := .setUp, port := O.setup S.port }
  | anchor : S.startPlace = .setUp → S.isr = .out → Effect O driver S .anchor (S.anchor O driver)
  | irqEnable : S.startPlace = .anchored → S.isr = .out →
      Effect O driver S .irqEnable { S with startPlace := .live, port := O.irqEnable S.port }
  | scheduleAt {tp cb arg} : S.mayCall = true →
      Effect O driver S (.scheduleAt tp cb arg) (S.scheduleAt O driver tp cb arg).2
  | scheduleRecurring {interval cb arg} : S.mayCall = true →
      Effect O driver S (.scheduleRecurring interval cb arg) (S.scheduleRecurring O driver interval cb arg).2
  | cancel {id} : S.mayCall = true → Effect O driver S (.cancel id) (S.cancel O driver id).2
  | interrupt : S.isr = .out → S.table.started = true →
      Effect O driver S .interrupt { S with
        port := (O.interrupt S.port S.now).1
        isr := if (O.interrupt S.port S.now).2 then .entered else .out }
  | readTime : S.isr = .entered → Effect O driver S .readTime
      { S with isr := .walk 0 S.now, ranNow := [], due := dueOneShots S.table S.now }
  | look {i : Index} {now} : S.isr = .walk i now → Effect O driver S .look (S.fireDue i now)
  | move {i now cb arg} : S.isr = .moving i now cb arg → Effect O driver S .move (S.moveOn i now cb arg)
  | ret {i : Index} {now} : S.isr = .callback i now → Effect O driver S .ret { S with isr := .walk (i + 1) now }
  | leave {now} : S.isr = .walk maxScheduledCallbacks now →
      Effect O driver S .leave { S.rearmLocked O driver with isr := .out }

theorem effect_of_next {O : OneShot P} {driver : Driver} {S S' : Core P C A} {act : Act C A}
    (h : S.next O driver act = some S') : S.Effect O driver act S' := by
  unfold next at h
  cases act <;> grind [Effect]

end Core

end Cyros.Time
