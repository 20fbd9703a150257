import Cyros.Lib.Circular
import Cyros.Lib.Run

/-!
# The channel

A bounded queue in a ring of `capacity` slots.  A step is one critical section under the channel's spinlock, by any
thread or interrupt.  `send_blocking` and `receive` wait when they cannot go on and may come back from the wait at
any time; whether they are woken is the gates' part and is not asked here.

`accepted` are the values that were queued, in order, `left` those that have left the ring, and `sealed` what had
been accepted when the channel was stopped.  `channel_fifo`: the channel is a bounded FIFO that loses nothing but
what an overwrite drops, and a receiver that comes back empty has left nothing behind.
-/

namespace Cyros.Sync

open Cyros.Lib Function

/-- Why a value left the ring; an overwrite has the occupancy it found. -/
inductive Leaving
  | received
  | dropped (occupancy : ℕ)
  deriving DecidableEq, Repr

/-- A call that waits when it cannot go on. -/
inductive ChannelCall (V : Type)
  | sendBlocking (v : V)
  | receive

inductive Outcome
  | queued
  | full
  | stopped
  deriving DecidableEq, Repr

structure Channel (T V : Type) where
  ring : ℕ → V
  head : ℕ
  tail : ℕ
  occupancy : ℕ
  stopped : Bool
  call : T → Option (ChannelCall V)
  accepted : List V
  left : List (V × Leaving)
  sealed : Option (List V)
  /-- A `receive` has returned empty. -/
  finished : Bool

inductive ChannelAct (T V : Type)
  | send (v : V)
  | trySend (v : V)
  | sendOverwrite (v : V)
  | tryReceive
  | stop
  /-- `t` calls `send_blocking` or `receive`. -/
  | begin (t : T) (call : ChannelCall V)
  /-- The call of `t` takes the lock, for the first time or after a wait. -/
  | turn (t : T)

namespace Channel

variable {T V : Type} (capacity : ℕ)

/-- A compare and a select. -/
def advance (index : ℕ) : ℕ := if index + 1 = capacity then 0 else index + 1

def boot (v : V) : Channel T V :=
  { ring := fun _ => v, head := 0, tail := 0, occupancy := 0, stopped := false, call := fun _ => none,
    accepted := [], left := [], sealed := none, finished := false }

section Model

variable (S : Channel T V)

/-- There is room. -/
def placeLocked (v : V) : Channel T V :=
  { S with
    ring := update S.ring S.tail v
    tail := advance capacity S.tail
    occupancy := S.occupancy + 1
    accepted := S.accepted ++ [v] }

/-- A value is queued. -/
def takeLocked : Channel T V :=
  { S with
    head := advance capacity S.head
    occupancy := S.occupancy - 1
    left := S.left ++ [(S.ring S.head, .received)] }

def tryPlace (v : V) : Channel T V × Outcome :=
  if S.stopped then (S, .stopped)
  else if S.occupancy = capacity then (S, .full)
  else (S.placeLocked capacity v, .queued)

def sendOverwrite (v : V) : Channel T V :=
  if S.stopped then S
  else if S.occupancy = capacity then
    { S with
      head := advance capacity S.head
      ring := update S.ring S.tail v
      tail := advance capacity S.tail
      accepted := S.accepted ++ [v]
      left := S.left ++ [(S.ring S.head, .dropped S.occupancy)] }
  else S.placeLocked capacity v

def tryReceive : Channel T V := if 0 < S.occupancy then S.takeLocked capacity else S

def stop : Channel T V := if S.stopped then S else { S with stopped := true, sealed := some S.accepted }

variable [DecidableEq T]

/-- The call of `t` returns. -/
def leave (t : T) : Channel T V := { S with call := update S.call t none }

/-- One turn of the loop of `send_blocking`. -/
def sendTurn (t : T) (v : V) : Channel T V :=
  if S.stopped then S.leave t
  else if S.occupancy < capacity then (S.placeLocked capacity v).leave t
  else S

/-- One turn of the loop of `receive`. -/
def receiveTurn (t : T) : Channel T V :=
  if 0 < S.occupancy then (S.takeLocked capacity).leave t
  else if S.stopped then { S.leave t with finished := true }
  else S

end Model

/-- **One step**; `none` also where `send` panics on a full channel. -/
def next [DecidableEq T] (S : Channel T V) : ChannelAct T V → Option (Channel T V)
  | .send v => if (S.tryPlace capacity v).2 = .full then none else some (S.tryPlace capacity v).1
  | .trySend v => some (S.tryPlace capacity v).1
  | .sendOverwrite v => some (S.sendOverwrite capacity v)
  | .tryReceive => some (S.tryReceive capacity)
  | .stop => some S.stop
  | .begin t call => if (S.call t).isNone then some { S with call := update S.call t (some call) } else none
  | .turn t => match S.call t with
    | none => none
    | some (.sendBlocking v) => some (S.sendTurn capacity t v)
    | some .receive => some (S.receiveTurn capacity t)

variable {capacity} {S S' : Channel T V}

/-- The values `queued` are in the ring. -/
structure Queues (capacity : ℕ) (S : Channel T V) (queued : List V) : Prop where
  around : Around capacity S.ring S.head queued
  tail : S.tail = cellAt capacity S.head queued.length
  occupancy : S.occupancy = queued.length
  accepted : S.accepted = S.left.map Prod.fst ++ queued

structure Inv (capacity : ℕ) (S : Channel T V) : Prop where
  queues : ∃ queued, Queues capacity S queued
  dropped : ∀ v n, (v, Leaving.dropped n) ∈ S.left → n = capacity
  sealed : S.stopped = true → S.sealed = some S.accepted
  finished : S.finished = true → S.stopped = true ∧ S.occupancy = 0

variable {queued : List V} {v : V}

theorem advance_eq {index : ℕ} (h : index < capacity) : advance capacity index = cellAt capacity index 1 := by
  unfold advance cellAt
  split_ifs <;> omega

theorem advance_cellAt {head n : ℕ} (h : head < capacity) (hn : n < capacity) :
    advance capacity (cellAt capacity head n) = cellAt capacity head (n + 1) := by
  unfold advance cellAt
  split_ifs <;> omega

theorem Queues.place (h : Queues capacity S queued) (hroom : S.occupancy < capacity) (v : V) :
    Queues capacity (S.placeLocked capacity v) (queued ++ [v]) := by
  have hlt : queued.length < capacity := h.occupancy ▸ hroom
  constructor <;> simp only [placeLocked, List.length_append, List.length_singleton]
  · rw [h.tail]
    exact h.around.push hlt v
  · rw [h.tail, advance_cellAt h.around.lt hlt]
  · rw [h.occupancy]
  · rw [h.accepted, List.append_assoc]

/-- The oldest value leaves. -/
theorem Queues.leave (h : Queues capacity S (v :: queued)) (leaving : Leaving) :
    Queues capacity { S with
      head := advance capacity S.head
      occupancy := S.occupancy - 1
      left := S.left ++ [(S.ring S.head, leaving)] } queued := by
  obtain ⟨hhead, haround⟩ := h.around.pop
  have hle := h.around.le
  rw [List.length_cons] at hle
  constructor <;> simp only [advance_eq h.around.lt]
  · exact haround
  · rw [h.tail, cellAt_cellAt_one _ h.around.lt (by omega), List.length_cons]
  · rw [h.occupancy, List.length_cons, Nat.add_sub_cancel]
  · rw [h.accepted, hhead]
    simp

/-! ### Steps -/

theorem Inv.setCall (hi : Inv capacity S) (call : T → Option (ChannelCall V)) :
    Inv capacity { S with call := call } := by
  obtain ⟨⟨queued, h⟩, hdropped, hsealed, hfinished⟩ := hi
  exact ⟨⟨queued, h.around, h.tail, h.occupancy, h.accepted⟩, hdropped, hsealed, hfinished⟩

theorem Inv.not_finished (hi : Inv capacity S) (hopen : ¬ S.stopped = true) : ¬ S.finished = true :=
  fun hf => hopen (hi.finished hf).1

theorem Inv.place (hi : Inv capacity S) (hopen : ¬ S.stopped = true) (hroom : S.occupancy < capacity) (v : V) :
    Inv capacity (S.placeLocked capacity v) := by
  obtain ⟨queued, h⟩ := hi.queues
  exact ⟨⟨_, h.place hroom v⟩, hi.dropped, fun hs => absurd hs hopen, fun hf => absurd hf (hi.not_finished hopen)⟩

theorem Inv.take (hi : Inv capacity S) (hpos : 0 < S.occupancy) : Inv capacity (S.takeLocked capacity) := by
  obtain ⟨queued, h⟩ := hi.queues
  cases queued with
  | nil => simp [h.occupancy] at hpos
  | cons v queued =>
    refine ⟨⟨queued, h.leave .received⟩, fun w n hmem => ?_, hi.sealed, fun hf => ?_⟩
    · exact hi.dropped w n (by simpa [takeLocked] using hmem)
    · have := (hi.finished hf).2
      omega

theorem Inv.room (hi : Inv capacity S) (hne : S.occupancy ≠ capacity) : S.occupancy < capacity := by
  obtain ⟨queued, h⟩ := hi.queues
  exact lt_of_le_of_ne (h.occupancy ▸ h.around.le) hne

theorem Inv.tryPlace (hi : Inv capacity S) (v : V) : Inv capacity (S.tryPlace capacity v).1 := by
  unfold Channel.tryPlace
  split_ifs with hstopped hfull
  · exact hi
  · exact hi
  · exact hi.place hstopped (hi.room hfull) v

/-- On a full channel the oldest value leaves, and the new one takes its slot. -/
theorem Inv.overwrite (hi : Inv capacity S) (v : V) : Inv capacity (S.sendOverwrite capacity v) := by
  unfold Channel.sendOverwrite
  split_ifs with hstopped hfull
  · exact hi
  · obtain ⟨queued, h⟩ := hi.queues
    have hlt := h.around.lt
    have hlength := h.occupancy
    cases queued with
    | nil =>
      rw [List.length_nil] at hlength
      omega
    | cons w queued =>
      have hpos : 1 ≤ S.occupancy := by omega
      have hq := (h.leave (.dropped S.occupancy)).place (show S.occupancy - 1 < capacity by omega) v
      refine ⟨⟨_, hq.around, hq.tail, ?_, hq.accepted⟩, fun u n hmem => ?_, fun hs => absurd hs hstopped,
        fun hf => absurd hf (hi.not_finished hstopped)⟩
      · rw [← hq.occupancy]
        exact (Nat.sub_add_cancel hpos).symm
      · rcases List.mem_append.1 hmem with hmem | hmem
        · exact hi.dropped u n hmem
        · simp_all
  · exact hi.place hstopped (hi.room hfull) v

theorem Inv.next [DecidableEq T] {act : ChannelAct T V} (hi : Inv capacity S) (h : S.next capacity act = some S') :
    Inv capacity S' := by
  cases act with
  | send v =>
    obtain ⟨-, h⟩ := Option.ite_none_left_eq_some.1 h
    cases h
    exact hi.tryPlace v
  | trySend v =>
    cases h
    exact hi.tryPlace v
  | sendOverwrite v =>
    cases h
    exact hi.overwrite v
  | tryReceive =>
    cases h
    unfold Channel.tryReceive
    split_ifs with hpos
    · exact hi.take hpos
    · exact hi
  | stop =>
    cases h
    unfold Channel.stop
    split_ifs
    · exact hi
    · exact ⟨hi.queues.imp fun _ h => ⟨h.around, h.tail, h.occupancy, h.accepted⟩, hi.dropped, fun _ => rfl,
        fun hf => ⟨rfl, (hi.finished hf).2⟩⟩
  | begin =>
    obtain ⟨-, rfl⟩ := of_guard h
    exact hi.setCall _
  | turn t =>
    simp only [Channel.next] at h
    split at h
    · cases h
    · cases h
      unfold sendTurn
      split_ifs with hstopped hroom
      · exact hi.setCall _
      · exact (hi.place hstopped hroom _).setCall _
      · exact hi
    · cases h
      unfold receiveTurn
      split_ifs with hpos hstopped
      · exact (hi.take hpos).setCall _
      · exact ⟨hi.queues.imp fun _ h => ⟨h.around, h.tail, h.occupancy, h.accepted⟩, hi.dropped, hi.sealed,
          fun _ => ⟨hstopped, Nat.eq_zero_of_not_pos hpos⟩⟩
      · exact hi

theorem inv_boot (hpos : 0 < capacity) (v : V) : Inv capacity (boot v : Channel T V) := by
  refine ⟨⟨[], ⟨hpos, Nat.zero_le _, by simp⟩, ?_, rfl, rfl⟩, by simp [boot], by simp [boot], by simp [boot]⟩
  simp [boot, cellAt, hpos]

/-- **A bounded FIFO.**  In every run the values accepted are, in order, those that have left and those in the ring;
only a full channel drops one; nothing is accepted once the channel is stopped; and when a `receive` has returned
empty, it is stopped and every value has left. -/
theorem channel_fifo [DecidableEq T] (hpos : 0 < capacity) (v : V) (acts : List (ChannelAct T V))
    (h : run (next capacity) (boot v) acts = some S) :
    (∃ queued, Around capacity S.ring S.head queued ∧ S.occupancy = queued.length ∧
      S.accepted = S.left.map Prod.fst ++ queued) ∧
    (∀ v n, (v, Leaving.dropped n) ∈ S.left → n = capacity) ∧
    (S.stopped = true → S.sealed = some S.accepted) ∧
    (S.finished = true → S.stopped = true ∧ S.accepted = S.left.map Prod.fst) := by
  have hi := run_invariant (fun _ _ _ hi h => Inv.next hi h) (inv_boot hpos v) h
  obtain ⟨queued, hq⟩ := hi.queues
  refine ⟨⟨queued, hq.around, hq.occupancy, hq.accepted⟩, hi.dropped, hi.sealed, fun hf => ?_⟩
  obtain ⟨hstopped, hempty⟩ := hi.finished hf
  rw [hq.occupancy, List.length_eq_zero_iff] at hempty
  exact ⟨hstopped, by rw [hq.accepted, hempty, List.append_nil]⟩

def overwritten : List (ChannelAct Unit ℕ) :=
  [.begin () .receive, .turn (), .sendOverwrite 1, .sendOverwrite 2, .sendOverwrite 3, .turn (), .stop, .trySend 4,
    .tryReceive, .begin () .receive, .turn ()]

/-- Two slots and three values: the last two are received, and the receiver ends. -/
theorem channel_fifo_overwritten : ∃ S, run (next 2) (boot 0) overwritten = some S ∧
    S.left = [(1, .dropped 2), (2, .received), (3, .received)] ∧ S.accepted = S.left.map Prod.fst :=
  ⟨_, rfl, rfl, ((channel_fifo (show 0 < 2 by decide) 0 overwritten rfl).2.2.2 rfl).2⟩

end Channel

end Cyros.Sync
