import Cyros.Time.FiringLaw

/-!
# What schedules and cancels do to the table

A schedule fills one free slot with a timer, or none, and a cancel frees the slot of the timer it names.  Both
are masked, and may come between any two steps of a walk over the table.

* `filled` says which slot a schedule fills, and with what; `Schedules` what else it leaves alone.
* `cancel_spec` says which slot a cancel frees.
-/

namespace Cyros.Time

open Cyros.Lib

variable {P C A : Type}

/-- A timer, as it is meant to be. -/
structure Timer (C A : Type) where
  when : ℕ
  period : ℕ
  cb : C
  arg : Option A
  deriving DecidableEq, Repr

namespace Nested

/-- What comes in between the steps of a walk, and the walk's own steps. -/
inductive Act (C A : Type)
  | tick (ticks : ℕ)
  | scheduleAt (tp : ℕ) (cb : Option C) (arg : Option A)
  | scheduleRecurring (interval : ℕ) (cb : Option C) (arg : Option A)
  | cancel (id : ℕ)
  /-- The driver's handler is called, and reads the time. -/
  | enter
  /-- The walk goes on. -/
  | step
  deriving DecidableEq, Repr

/-- The slot that a schedule fills, and the timer it puts there. -/
def filled (S : Core P C A) : Act C A → Option (Index × Timer C A)
  | .scheduleAt tp (some cb) arg => (S.table.findSlot 0).map fun i => (i, ⟨tp, 0, cb, arg⟩)
  | .scheduleRecurring interval (some cb) arg =>
      if interval = 0 then none
      else (S.table.findSlot 0).map fun i =>
        (i, ⟨if S.table.started then (S.now + interval) % tickSize else 0, interval, cb, arg⟩)
  | _ => none

end Nested

/-- The slot holds the timer. -/
structure Holds (s : Slot C A) (t : Timer C A) : Prop where
  id : s.id ≠ 0
  when : s.when = t.when
  period : s.period = t.period
  cb : s.cb = some t.cb
  arg : s.arg = t.arg

theorem Timetable.nextHandleId_ne_zero (table : Timetable C A) : (table.nextHandleId).1 ≠ 0 := by
  unfold Timetable.nextHandleId
  dsimp only
  split
  · next hzero =>
    rw [hzero]
    show (0 + 1) % idSize ≠ 0
    decide
  · next hne => exact hne

namespace Nested

/-- What a schedule does to a core. -/
structure Schedules (S S' : Core P C A) (w : Option (Index × Timer C A)) : Prop where
  now : S'.now = S.now
  started : S'.table.started = S.table.started
  unfilled : w = none → S'.table.slots = S.table.slots
  filled : ∀ i t, w = some (i, t) →
    (S.table.slots i).id = 0 ∧ Holds (S'.table.slots i) t ∧ ∀ j ≠ i, S'.table.slots j = S.table.slots j

theorem Schedules.refl (S : Core P C A) : Schedules S S none where
  now := rfl
  started := rfl
  unfilled := fun _ => rfl
  filled := by
    intro i t h
    cases h

section Operations

variable (O : OneShot P) (driver : Driver) (S : Core P C A)

theorem schedules_fill {i : Index} (hfree : (S.table.slots i).id = 0) (t : Timer C A) :
    Schedules S (S.fill O driver i t.when t.period t.cb t.arg).2 (some (i, t)) := by
  obtain ⟨hstarted, hslots⟩ := S.table.nextHandleId_same
  unfold Core.fill
  dsimp only
  obtain ⟨port, hport⟩ := Core.settle_eq O driver _
  rw [hport]
  refine ⟨rfl, hstarted, fun h => ?_, fun j t' h => ?_⟩
  · cases h
  · cases h
    refine ⟨hfree, ?_, fun j hj => ?_⟩
    · rw [Timetable.setSlot_self]
      exact ⟨S.table.nextHandleId_ne_zero, rfl, rfl, rfl, rfl⟩
    · rw [Timetable.setSlot_of_ne _ _ hj, hslots]

theorem schedules_at (tp : ℕ) (cb : Option C) (arg : Option A) :
    Schedules S (S.scheduleAt O driver tp cb arg).2 (filled S (.scheduleAt tp cb arg)) := by
  cases cb with
  | none => exact .refl S
  | some cb =>
      simp only [filled, Core.scheduleAt]
      cases hfound : S.table.findSlot 0 with
      | none => exact .refl S
      | some i => exact schedules_fill O driver S (Timetable.findSlot_id hfound) ⟨tp, 0, cb, arg⟩

theorem schedules_recurring (interval : ℕ) (cb : Option C) (arg : Option A) :
    Schedules S (S.scheduleRecurring O driver interval cb arg).2 (filled S (.scheduleRecurring interval cb arg)) := by
  cases cb with
  | none => exact .refl S
  | some cb =>
      simp only [filled, Core.scheduleRecurring]
      by_cases hzero : interval = 0
      · simp only [if_pos hzero]
        cases S.table.findSlot 0 with
        | none => exact .refl S
        | some i => exact .refl S
      · simp only [if_neg hzero]
        cases hfound : S.table.findSlot 0 with
        | none => exact .refl S
        | some i =>
            exact schedules_fill O driver S (Timetable.findSlot_id hfound)
              ⟨if S.table.started then (S.now + interval) % tickSize else 0, interval, cb, arg⟩

/-- The slot that a cancel frees. -/
theorem cancel_spec (id : ℕ) :
    (S.cancel O driver id).2.now = S.now ∧
      (S.cancel O driver id).2.table = match if id = 0 then none else S.table.findSlot id with
        | some i => S.table.setSlot i .free
        | none => S.table := by
  unfold Core.cancel
  by_cases hid : id = 0
  · simp only [if_pos hid, and_self]
  · simp only [if_neg hid]
    cases S.table.findSlot id with
    | none => exact ⟨rfl, rfl⟩
    | some i =>
        dsimp only
        obtain ⟨port, hport⟩ := Core.settle_eq O driver _
        rw [hport]
        exact ⟨rfl, rfl⟩

end Operations

/-- On a started core a recurring timer is put at a deadline to come. -/
theorem filled_late {S : Core P C A} {act : Act C A} {i : Index} {t : Timer C A} (hstarted : S.table.started = true)
    (hfits : ∀ interval cb arg, act = .scheduleRecurring interval cb arg → S.now + interval < tickSize)
    (hfilled : filled S act = some (i, t)) (hperiod : t.period ≠ 0) : S.now < t.when := by
  unfold filled at hfilled
  split at hfilled
  · obtain ⟨j, -, heq⟩ := Option.map_eq_some_iff.1 hfilled
    cases heq
    exact absurd rfl hperiod
  · next interval cb arg =>
    have hroom := hfits interval (some cb) arg rfl
    by_cases hzero : interval = 0
    · rw [if_pos hzero] at hfilled
      cases hfilled
    · rw [if_neg hzero, hstarted, if_pos rfl, Nat.mod_eq_of_lt hroom] at hfilled
      obtain ⟨j, -, heq⟩ := Option.map_eq_some_iff.1 hfilled
      cases heq
      exact Nat.lt_add_of_pos_right (Nat.pos_of_ne_zero hzero)
  · cases hfilled

end Nested

end Cyros.Time
