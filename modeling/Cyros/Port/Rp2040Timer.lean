import Cyros.Port.TickCount

/-!
# The RP2040 timer as MTIME

The RP2040 has a 64-bit count and alarms of 32 bits: an armed alarm fires when the low word of the count
equals it, which raises the alarm's interrupt line and disarms it.  `compare_write` makes the level
comparison of an MTIMECMP out of it, with INTF, which holds the line raised, for a value that is already
due.

One core's alarm, by single accesses: the count may advance between any two of them.  Whether an alarm that
is armed while the low words are equal fires at once or not is left open.  The other core has an alarm of
its own, whose bits the stores here leave alone.

The second half is the tickless MTIME source over it, `cyros_port_time_arm`, `cyros_port_time_disarm` and
`mtime::interrupt`, all of which mask.
-/

namespace Cyros.Port.Rp2040Timer

open Cyros.Lib

/-! ### The alarm -/

/-- The count and one alarm.  `raisedAt` is the count at which the line was raised last. -/
structure Alarm where
  count : ℕ
  armed : Bool
  alarm : ℕ
  intr : Bool
  intf : Bool
  raisedAt : ℕ
  deriving DecidableEq, Repr

/-- `never`. -/
def never : ℕ := 2 ^ 64 - 1

namespace Alarm

/-- The interrupt line. -/
def line (a : Alarm) : Bool := a.intr || a.intf

/-- The alarm matches. -/
def fire (a : Alarm) : Alarm :=
  { a with armed := false, intr := true, raisedAt := if a.line then a.raisedAt else a.count }

/-- INTF is set. -/
def force (a : Alarm) : Alarm :=
  { a with intf := true, raisedAt := if a.line then a.raisedAt else a.count }

/-- Writing the alarm arms it. -/
def arm (a : Alarm) (alarm : ℕ) : Alarm := { a with armed := true, alarm := alarm }

/-- The low word of the count equals the armed alarm. -/
def hits (a : Alarm) : Prop := a.armed = true ∧ a.count % wordSize = a.alarm

instance (a : Alarm) : Decidable a.hits := inferInstanceAs (Decidable (_ ∧ _))

/-- **The count advances by one.** -/
def advance (a : Alarm) : Alarm :=
  let a := { a with count := a.count + 1 }
  if a.hits then a.fire else a

end Alarm

/-! ### `compare_write` -/

/-- Where `read()` is: the high word, the low word, the high word again. -/
inductive ReadPlace
  | high
  | low (high : ℕ)
  | again (high low : ℕ)
  deriving DecidableEq, Repr

/-- A step of `read()`: where it goes on, or what it returns. -/
def readStep (a : Alarm) : ReadPlace → ReadPlace ⊕ ℕ
  | .high => .inl (.low (a.count / wordSize))
  | .low high => .inl (.again high (a.count % wordSize))
  | .again high low =>
      if high = a.count / wordSize then .inr (joinWords high low) else .inl .high

/-- The next access of `compare_write`. -/
inductive WritePlace
  | disarm
  | clearIntr
  | clearIntf
  | first (place : ReadPlace)
  | writeAlarm
  | second (place : ReadPlace)
  | readArmed
  | disarmAgain
  | force
  deriving DecidableEq, Repr

/-- The alarm, the value of the last `compare_write`, and where that is. -/
structure Compare where
  alarm : Alarm
  value : ℕ
  call : Option WritePlace
  deriving DecidableEq, Repr

namespace Compare

/-- `compare_write(value)` is called. -/
def write (c : Compare) (value : ℕ) : Compare := { c with value := value, call := some .disarm }

/-- **An access of `compare_write`.**  `atOnce`: an alarm armed while the low words are equal fires at once. -/
def step (c : Compare) (atOnce : Bool) : WritePlace → Compare
  | .disarm => { c with alarm := { c.alarm with armed := false }, call := some .clearIntr }
  | .clearIntr => { c with alarm := { c.alarm with intr := false }, call := some .clearIntf }
  | .clearIntf =>
      { c with
        alarm := { c.alarm with intf := false }
        call := if c.value = never then none else some (.first .high) }
  | .first place =>
      match readStep c.alarm place with
      | .inl place => { c with call := some (.first place) }
      | .inr now => { c with call := if now < c.value then some .writeAlarm else some .force }
  | .writeAlarm =>
      let a := c.alarm.arm (c.value % wordSize)
      { c with
        alarm := if atOnce ∧ a.hits then a.fire else a
        call := some (.second .high) }
  | .second place =>
      match readStep c.alarm place with
      | .inl place => { c with call := some (.second place) }
      | .inr now => { c with call := if now < c.value then none else some .readArmed }
  | .readArmed => { c with call := if c.alarm.armed then some .disarmAgain else none }
  | .disarmAgain => { c with alarm := { c.alarm with armed := false }, call := some .force }
  | .force => { c with alarm := c.alarm.force, call := none }

/-- The count advances, as a 64-bit one. -/
def tick (c : Compare) : Option Compare :=
  if c.alarm.count + 1 < 2 ^ 64 then some { c with alarm := c.alarm.advance } else none

inductive Act
  | tick
  | write (value : ℕ)
  | access (atOnce : Bool)
  deriving DecidableEq, Repr

/-- **One step.**  A `compare_write` is called with a 64-bit value when none is under way. -/
def next (c : Compare) : Act → Option Compare
  | .tick => c.tick
  | .write value => if c.call = none ∧ value < 2 ^ 64 then some (c.write value) else none
  | .access atOnce => c.call.map (c.step atOnce)

/-- The alarm after setup, at any count. -/
def boot (count : ℕ) : Compare := ⟨⟨count, false, 0, false, false, 0⟩, never, none⟩

end Compare

/-! ### What holds at each access -/

variable {a : Alarm} {c c' : Compare} {v : ℕ}

/-- Nothing is left of the compare before. -/
structure Quiet (a : Alarm) : Prop where
  armed : a.armed = false
  intr : a.intr = false
  intf : a.intf = false

/-- An armed alarm is armed for `v`, and a line raised before `v` was so more than a word's range before. -/
structure Armed (a : Alarm) (v : ℕ) : Prop where
  alarm : a.armed = true → a.alarm = v % wordSize
  early : a.line = true → a.raisedAt < v → a.raisedAt + wordSize ≤ v

/-- The line is raised, or the alarm is armed and the value ahead. -/
def Covered (a : Alarm) (v : ℕ) : Prop := a.line = true ∨ a.armed = true ∧ a.count < v

/-- The line is raised, or the alarm is armed, with the value ahead or missed by the count `seen`. -/
def Seen (a : Alarm) (v seen : ℕ) : Prop :=
  a.line = true ∨ a.armed = true ∧ (a.count < v ∨ v ≤ seen)

/-- What `read()` has in its hands; `P` is what is known of the count whose low word it has read. -/
def ReadOk (a : Alarm) (P : ℕ → Prop) : ReadPlace → Prop
  | .high => True
  | .low high => high ≤ a.count / wordSize
  | .again high low => ∃ seen, low = seen % wordSize ∧ high ≤ seen / wordSize ∧ seen ≤ a.count ∧ P seen

def PlaceOk (a : Alarm) (v : ℕ) : Option WritePlace → Prop
  | none => Armed a v ∧ (v ≠ never → Covered a v)
  | some .disarm => True
  | some .clearIntr => a.armed = false
  | some .clearIntf => a.armed = false ∧ a.intr = false
  | some (.first place) => Quiet a ∧ ReadOk a (fun _ => True) place
  | some .writeAlarm => Quiet a
  | some (.second place) =>
      Armed a v ∧ (a.line = true ∨ a.armed = true) ∧ ReadOk a (Seen a v) place
  | some .readArmed => Armed a v ∧ (a.line = true ∨ a.armed = true) ∧ v ≤ a.count
  | some .disarmAgain => Armed a v ∧ v ≤ a.count
  | some .force => Armed a v ∧ v ≤ a.count

theorem Quiet.armed_of (h : Quiet a) : Armed a v where
  alarm := fun hw => absurd hw (by rw [h.armed]; exact Bool.false_ne_true)
  early := by
    intro hline
    unfold Alarm.line at hline
    rw [h.intr, h.intf] at hline
    cases hline

/-! #### The count advances -/

@[simp] theorem advance_count (a : Alarm) : a.advance.count = a.count + 1 := by
  unfold Alarm.advance
  dsimp only
  split <;> rfl

/-- Advancing either matches or leaves all but the count alone. -/
theorem advance_cases (a : Alarm) :
    (a.armed = true ∧ (a.count + 1) % wordSize = a.alarm ∧
      a.advance = { a with count := a.count + 1 }.fire) ∨
    (¬ (a.armed = true ∧ (a.count + 1) % wordSize = a.alarm) ∧
      a.advance = { a with count := a.count + 1 }) := by
  unfold Alarm.advance
  dsimp only
  split
  · rename_i hm
    exact Or.inl ⟨hm.1, hm.2, rfl⟩
  · rename_i hm
    exact Or.inr ⟨hm, rfl⟩

/-- Two counts with the same low word are at least a word's range apart. -/
theorem add_wordSize_le {m n : ℕ} (hmod : m % wordSize = n % wordSize) (hlt : m < n) : m + wordSize ≤ n := by
  unfold wordSize at *
  omega

theorem Armed.fire (h : Armed a v) (hlow : a.count % wordSize = v % wordSize) : Armed a.fire v where
  alarm := fun hw => absurd hw Bool.false_ne_true
  early := by
    intro _
    by_cases hline : a.line = true
    · have hat : a.fire.raisedAt = a.raisedAt := if_pos hline
      rw [hat]
      exact h.early hline
    · have hat : a.fire.raisedAt = a.count := if_neg hline
      rw [hat]
      exact add_wordSize_le hlow

theorem Armed.advance (h : Armed a v) : Armed a.advance v := by
  have hcounted : Armed { a with count := a.count + 1 } v := ⟨h.alarm, h.early⟩
  rcases advance_cases a with ⟨hw, hlow, heq⟩ | ⟨-, heq⟩
  · rw [heq]
    exact hcounted.fire (hlow.trans (h.alarm hw))
  · rw [heq]
    exact hcounted

theorem Quiet.advance (h : Quiet a) : Quiet a.advance := by
  rcases advance_cases a with ⟨hw, -, -⟩ | ⟨-, heq⟩
  · rw [h.armed] at hw
    cases hw
  · rw [heq]
    exact ⟨h.armed, h.intr, h.intf⟩

theorem raised_or_armed_advance (h : a.line = true ∨ a.armed = true) :
    a.advance.line = true ∨ a.advance.armed = true := by
  rcases advance_cases a with ⟨-, -, heq⟩ | ⟨-, heq⟩
  · rw [heq]
    exact Or.inl rfl
  · rw [heq]
    exact h

theorem line_advance (h : a.line = true) : a.advance.line = true := by
  rcases advance_cases a with ⟨-, -, heq⟩ | ⟨-, heq⟩
  · rw [heq]
    rfl
  · rw [heq]
    exact h

/-- Reaching the value is a match. -/
theorem Covered.advance (h : Covered a v) (harmed : Armed a v) : Covered a.advance v := by
  rcases h with hline | ⟨hw, hlt⟩
  · exact Or.inl (line_advance hline)
  · rcases advance_cases a with ⟨-, -, heq⟩ | ⟨hno, heq⟩
    · rw [heq]
      exact Or.inl rfl
    · rw [heq]
      refine Or.inr ⟨hw, ?_⟩
      show a.count + 1 < v
      rcases Nat.lt_or_ge (a.count + 1) v with hlt' | hge
      · exact hlt'
      · have hat : a.count + 1 = v := by omega
        rw [hat, harmed.alarm hw] at hno
        exact absurd ⟨hw, rfl⟩ hno

theorem Seen.advance {seen : ℕ} (h : Seen a v seen) (harmed : Armed a v) : Seen a.advance v seen := by
  rcases h with hline | ⟨hw, hlt | hseen⟩
  · exact Or.inl (line_advance hline)
  · rcases Covered.advance (Or.inr ⟨hw, hlt⟩) harmed with hline | ⟨hw', hlt'⟩
    · exact Or.inl hline
    · exact Or.inr ⟨hw', Or.inl hlt'⟩
  · rcases raised_or_armed_advance (Or.inr hw) with hline | hw'
    · exact Or.inl hline
    · exact Or.inr ⟨hw', Or.inr hseen⟩

theorem ReadOk.mono {a' : Alarm} {P Q : ℕ → Prop} {place : ReadPlace} (h : ReadOk a P place)
    (hle : a.count ≤ a'.count) (hPQ : ∀ seen, P seen → Q seen) : ReadOk a' Q place := by
  cases place with
  | high => trivial
  | low high => exact le_trans h (Nat.div_le_div_right hle)
  | again high low =>
      obtain ⟨seen, hlow, hhigh, hseen, hP⟩ := h
      exact ⟨seen, hlow, hhigh, le_trans hseen hle, hPQ seen hP⟩

theorem PlaceOk.advance {place : Option WritePlace} (h : PlaceOk a v place) :
    PlaceOk a.advance v place := by
  have hcount : a.count ≤ a.advance.count := by
    rw [advance_count]
    omega
  have hle : v ≤ a.count → v ≤ a.advance.count := fun hv => le_trans hv hcount
  cases place with
  | none => exact ⟨h.1.advance, fun hv => (h.2 hv).advance h.1⟩
  | some place =>
      cases place with
      | disarm => trivial
      | clearIntr =>
          rcases advance_cases a with ⟨hw, -, -⟩ | ⟨-, heq⟩
          · rw [show a.armed = false from h] at hw
            cases hw
          · rw [heq]
            exact h
      | clearIntf =>
          rcases advance_cases a with ⟨hw, -, -⟩ | ⟨-, heq⟩
          · rw [h.1] at hw
            cases hw
          · rw [heq]
            exact h
      | first place => exact ⟨h.1.advance, h.2.mono hcount fun _ _ => trivial⟩
      | writeAlarm => exact Quiet.advance h
      | second place =>
          exact ⟨h.1.advance, raised_or_armed_advance h.2.1,
            h.2.2.mono hcount fun _ hs => hs.advance h.1⟩
      | readArmed => exact ⟨h.1.advance, raised_or_armed_advance h.2.1, hle h.2.2⟩
      | disarmAgain => exact ⟨h.1.advance, hle h.2⟩
      | force => exact ⟨h.1.advance, hle h.2⟩

/-! #### The accesses -/

/-- **What `read()` returns** is a count that the timer had since it began, the one whose low word it
read. -/
theorem readStep_ok {P : ℕ → Prop} {place : ReadPlace} (h : ReadOk a P place) (hnow : P a.count) :
    match readStep a place with
    | .inl place => ReadOk a P place
    | .inr now => now ≤ a.count ∧ P now := by
  cases place with
  | high => exact le_refl (a.count / wordSize)
  | low high => exact ⟨a.count, rfl, h, le_refl _, hnow⟩
  | again high low =>
      obtain ⟨seen, hlow, hhigh, hle, hP⟩ := h
      unfold readStep
      dsimp only
      by_cases hsame : high = a.count / wordSize
      · rw [if_pos hsame]
        have hdiv : seen / wordSize ≤ a.count / wordSize := Nat.div_le_div_right hle
        have hword : high = seen / wordSize := by omega
        have hjoin : joinWords high low = seen := by
          have hlt : low < wordSize := by
            rw [hlow]
            exact Nat.mod_lt _ (by decide)
          rw [joinWords_eq hlt, hlow, hword, Nat.mul_comm]
          exact Nat.div_add_mod seen wordSize
        rw [hjoin]
        exact ⟨hle, hP⟩
      · rw [if_neg hsame]
        trivial

/-- **One access.** -/
theorem PlaceOk.step {place : WritePlace} (h : PlaceOk c.alarm c.value (some place)) (atOnce : Bool) :
    PlaceOk (c.step atOnce place).alarm (c.step atOnce place).value (c.step atOnce place).call := by
  cases place with
  | disarm => exact rfl
  | clearIntr => exact ⟨h, rfl⟩
  | clearIntf =>
      have hquiet : Quiet { c.alarm with intf := false } := ⟨h.1, h.2, rfl⟩
      unfold Compare.step
      dsimp only
      split
      · rename_i hnever
        exact ⟨hquiet.armed_of, fun hv => absurd hnever hv⟩
      · exact ⟨hquiet, trivial⟩
  | first place =>
      have hread := readStep_ok h.2 trivial
      unfold Compare.step
      dsimp only
      split
      · rename_i place' hstep
        rw [hstep] at hread
        exact ⟨h.1, hread⟩
      · rename_i now hstep
        rw [hstep] at hread
        dsimp only
        split
        · exact h.1
        · exact ⟨h.1.armed_of, by omega⟩
  | writeAlarm =>
      have hquiet : Quiet c.alarm := h
      have harmed : Armed (c.alarm.arm (c.value % wordSize)) c.value :=
        ⟨fun _ => rfl, (hquiet.armed_of (v := c.value)).early⟩
      unfold Compare.step
      dsimp only
      split
      · rename_i hhits
        exact ⟨harmed.fire hhits.2.2, Or.inl rfl, trivial⟩
      · exact ⟨harmed, Or.inr rfl, trivial⟩
  | second place =>
      have hseen : Seen c.alarm c.value c.alarm.count := by
        rcases h.2.1 with hline | hw
        · exact Or.inl hline
        · exact Or.inr ⟨hw, Nat.lt_or_ge _ _⟩
      have hread := readStep_ok h.2.2 hseen
      unfold Compare.step
      dsimp only
      split
      · rename_i place' hstep
        rw [hstep] at hread
        exact ⟨h.1, h.2.1, hread⟩
      · rename_i now hstep
        rw [hstep] at hread
        dsimp only
        split
        · rename_i hlt
          refine ⟨h.1, fun _ => ?_⟩
          rcases hread.2 with hline | ⟨hw, hahead | hmissed⟩
          · exact Or.inl hline
          · exact Or.inr ⟨hw, hahead⟩
          · omega
        · exact ⟨h.1, h.2.1, by omega⟩
  | readArmed =>
      unfold Compare.step
      dsimp only
      split
      · exact ⟨h.1, h.2.2⟩
      · rename_i hw
        exact ⟨h.1, fun _ => Or.inl (h.2.1.resolve_right hw)⟩
  | disarmAgain => exact ⟨⟨fun hw => absurd hw Bool.false_ne_true, h.1.early⟩, h.2⟩
  | force =>
      refine ⟨⟨h.1.alarm, ?_⟩, fun _ => Or.inl ?_⟩
      · intro _
        by_cases hline : c.alarm.line = true
        · have hat : c.alarm.force.raisedAt = c.alarm.raisedAt := if_pos hline
          show c.alarm.force.raisedAt < _ → c.alarm.force.raisedAt + _ ≤ _
          rw [hat]
          exact h.1.early hline
        · have hat : c.alarm.force.raisedAt = c.alarm.count := if_neg hline
          have hge := h.2
          show c.alarm.force.raisedAt < c.value → c.alarm.force.raisedAt + _ ≤ c.value
          rw [hat]
          omega
      · show (c.alarm.intr || true) = true
        rw [Bool.or_true]

/-- The value of the last `compare_write` is looked after. -/
def Inv (c : Compare) : Prop := PlaceOk c.alarm c.value c.call

theorem inv_boot (count : ℕ) : Inv (Compare.boot count) :=
  ⟨Quiet.armed_of ⟨rfl, rfl, rfl⟩, fun hv => absurd rfl hv⟩

theorem Inv.tick (hi : Inv c) (h : c.tick = some c') : Inv c' := by
  obtain ⟨-, rfl⟩ := of_guard h
  exact PlaceOk.advance hi

theorem Inv.access (hi : Inv c) {atOnce : Bool} (h : c.call.map (c.step atOnce) = some c') : Inv c' := by
  rw [Option.map_eq_some_iff] at h
  obtain ⟨place, hplace, rfl⟩ := h
  unfold Inv at hi
  rw [hplace] at hi
  exact hi.step atOnce

theorem Inv.next {act : Compare.Act} (hi : Inv c) (h : c.next act = some c') : Inv c' := by
  cases act with
  | tick => exact hi.tick h
  | write value =>
      obtain ⟨-, rfl⟩ := of_guard h
      trivial
  | access atOnce => exact hi.access h

theorem line_ticks {n : ℕ} (hline : c.alarm.line = true)
    (h : run Compare.next c (List.replicate n .tick) = some c') : c'.alarm.line = true := by
  induction n generalizing c with
  | zero =>
      cases h
      exact hline
  | succ n ih =>
      rw [List.replicate_succ] at h
      obtain ⟨c₁, htick, hrun⟩ := run_cons_eq_some h
      obtain ⟨-, rfl⟩ := of_guard htick
      exact ih (line_advance hline) hrun

/-! ### The tickless source over it -/

/-- Where `mtime::interrupt` is.  What it found reached is delivered after the compare is written. -/
inductive HandlerPlace
  | out
  | reading (place : ReadPlace)
  | writing (reached : Option ℕ)
  | callback
  deriving DecidableEq, Repr

structure Core where
  compare : Compare
  armed : ℕ
  delivery : Bool
  handler : HandlerPlace
  /-- The deadlines that were delivered, and the counts at which they were. -/
  delivered : List (ℕ × ℕ)
  deriving DecidableEq, Repr

namespace Core

/-- Neither a `compare_write` nor the masked part of the handler is under way. -/
def free (C : Core) : Prop := C.compare.call = none ∧ (C.handler = .out ∨ C.handler = .callback)

instance (C : Core) : Decidable C.free := inferInstanceAs (Decidable (_ ∧ (_ ∨ _)))

/-- The handler has written the compare. -/
def deliver (C : Core) : Option ℕ → Core
  | some deadline =>
      if C.delivery then
        { C with handler := .callback, delivered := (deadline, C.compare.alarm.count) :: C.delivered }
      else { C with handler := .out }
  | none => { C with handler := .out }

/-- A step of `mtime::interrupt`, `compare_write` apart. -/
def handle (C : Core) : Option Core :=
  match C.handler with
  | .out => none
  | .reading place =>
      match readStep C.compare.alarm place with
      | .inl place => some { C with handler := .reading place }
      | .inr now =>
          if C.armed ≤ now then
            some { C with
              armed := never
              compare := C.compare.write never
              handler := .writing (some C.armed) }
          else some { C with compare := C.compare.write C.armed, handler := .writing none }
  | .writing reached => some (C.deliver reached)
  | .callback => some { C with handler := .out }

inductive Act
  | tick
  | arm (deadline : ℕ)
  | disarm
  | deliver (enabled : Bool)
  | access (atOnce : Bool)
  | enter
  | handle
  deriving DecidableEq, Repr

/-- **One step.**  An interrupt may come at any time outside the masked calls, with or without a cause. -/
def next (C : Core) : Act → Option Core
  | .tick => C.compare.tick.map fun c => { C with compare := c }
  | .arm deadline =>
      if C.free ∧ deadline < 2 ^ 64 then
        if deadline < C.armed then some { C with armed := deadline, compare := C.compare.write deadline }
        else some C
      else none
  | .disarm => if C.free then some { C with armed := never, compare := C.compare.write never } else none
  | .deliver enabled => if C.free then some { C with delivery := enabled } else none
  | .access atOnce => (C.compare.call.map (C.compare.step atOnce)).map fun c => { C with compare := c }
  | .enter =>
      if C.compare.call = none ∧ C.handler = .out then
        if C.armed = never then some { C with compare := C.compare.write never, handler := .writing none }
        else some { C with handler := .reading .high }
      else none
  | .handle => if C.compare.call = none then C.handle else none

/-- What `cyros_port_time_setup(0)` leaves. -/
def boot (count : ℕ) : Core := ⟨Compare.boot count, never, false, .out, []⟩

end Core

def HandlerOk (a : Alarm) : HandlerPlace → Prop
  | .out => True
  | .reading place => ReadOk a (fun _ => True) place
  | .writing reached => ∀ deadline ∈ reached, deadline ≤ a.count
  | .callback => True

/-- The compare is for the armed deadline, and nothing was delivered before its time. -/
structure CoreInv (C : Core) : Prop where
  compare : Inv C.compare
  agree : C.compare.value = C.armed
  handler : HandlerOk C.compare.alarm C.handler
  delivered : ∀ p ∈ C.delivered, p.1 ≤ p.2

variable {C C' : Core}

theorem step_count (c : Compare) (atOnce : Bool) (place : WritePlace) :
    (c.step atOnce place).alarm.count = c.alarm.count ∧ (c.step atOnce place).value = c.value := by
  unfold Compare.step
  cases place with
  | first | second | writeAlarm =>
      dsimp only
      split <;> exact ⟨rfl, rfl⟩
  | disarm | clearIntr | clearIntf | readArmed | disarmAgain | force => exact ⟨rfl, rfl⟩

/-- The handler's part of `read()` and what it found stand when the count goes on. -/
theorem HandlerOk.mono {a' : Alarm} {place : HandlerPlace} (h : HandlerOk a place)
    (hle : a.count ≤ a'.count) : HandlerOk a' place := by
  cases place with
  | out => trivial
  | reading place => exact ReadOk.mono h hle fun _ _ => trivial
  | writing reached => exact fun deadline hmem => le_trans (h deadline hmem) hle
  | callback => trivial

theorem CoreInv.handle (hi : CoreInv C) (h : C.handle = some C') : CoreInv C' := by
  unfold Core.handle at h
  cases hplace : C.handler with
  | out =>
      rw [hplace] at h
      cases h
  | callback =>
      rw [hplace] at h
      cases h
      exact ⟨hi.compare, hi.agree, trivial, hi.delivered⟩
  | reading place =>
      have hok := hi.handler
      rw [hplace] at h hok
      have hread := readStep_ok hok trivial
      dsimp only at h
      cases hstep : readStep C.compare.alarm place with
      | inl place' =>
          rw [hstep] at h hread
          cases h
          exact ⟨hi.compare, hi.agree, hread, hi.delivered⟩
      | inr now =>
          rw [hstep] at h hread
          dsimp only at h
          by_cases hreached : C.armed ≤ now
          · rw [if_pos hreached] at h
            cases h
            refine ⟨trivial, rfl, ?_, hi.delivered⟩
            intro deadline hmem
            cases hmem
            exact le_trans hreached hread.1
          · rw [if_neg hreached] at h
            cases h
            exact ⟨trivial, rfl, fun _ hmem => absurd hmem (Option.not_mem_none _), hi.delivered⟩
  | writing reached =>
      have hok := hi.handler
      rw [hplace] at h hok
      cases h
      unfold Core.deliver
      cases reached with
      | none => exact ⟨hi.compare, hi.agree, trivial, hi.delivered⟩
      | some deadline =>
          dsimp only
          split
          · refine ⟨hi.compare, hi.agree, trivial, ?_⟩
            intro p hp
            rcases List.mem_cons.1 hp with rfl | hp
            · exact hok deadline rfl
            · exact hi.delivered p hp
          · exact ⟨hi.compare, hi.agree, trivial, hi.delivered⟩

theorem CoreInv.next {act : Core.Act} (hi : CoreInv C) (h : C.next act = some C') : CoreInv C' := by
  -- outside the masked calls the handler has nothing in its hands
  have hfree : C.free → ∀ a, HandlerOk a C.handler := by
    rintro ⟨-, hout | hout⟩ a <;> rw [hout] <;> trivial
  cases act with
  | tick =>
      rw [show C.next .tick = C.compare.tick.map _ from rfl, Option.map_eq_some_iff] at h
      obtain ⟨c, htick, rfl⟩ := h
      have hc := hi.compare.tick htick
      obtain ⟨-, rfl⟩ := of_guard htick
      have hcount : C.compare.alarm.count ≤ C.compare.alarm.advance.count := by
        rw [advance_count]
        omega
      exact ⟨hc, hi.agree, hi.handler.mono hcount, hi.delivered⟩
  | arm deadline =>
      obtain ⟨hguard, harm⟩ := Option.ite_none_right_eq_some.1 h
      split at harm <;> cases harm
      · exact ⟨trivial, rfl, hfree hguard.1 _, hi.delivered⟩
      · exact hi
  | disarm =>
      obtain ⟨hguard, rfl⟩ := of_guard h
      exact ⟨trivial, rfl, hfree hguard _, hi.delivered⟩
  | deliver enabled =>
      obtain ⟨-, rfl⟩ := of_guard h
      exact ⟨hi.compare, hi.agree, hi.handler, hi.delivered⟩
  | access atOnce =>
      obtain ⟨c, haccess, rfl⟩ := Option.map_eq_some_iff.1 h
      have hc := hi.compare.access haccess
      obtain ⟨place, -, rfl⟩ := Option.map_eq_some_iff.1 haccess
      obtain ⟨hcount, hvalue⟩ := step_count C.compare atOnce place
      exact ⟨hc, hvalue.trans hi.agree, hi.handler.mono hcount.ge, hi.delivered⟩
  | enter =>
      obtain ⟨-, henter⟩ := Option.ite_none_right_eq_some.1 h
      split at henter <;> cases henter
      · rename_i hnever
        exact ⟨trivial, hnever.symm, fun _ hmem => absurd hmem (Option.not_mem_none _), hi.delivered⟩
      · exact ⟨hi.compare, hi.agree, trivial, hi.delivered⟩
  | handle => exact hi.handle (Option.ite_none_right_eq_some.1 h).2

/-- **The compare is a level.**  From any count, for any values written and however the count advances
between the accesses:

* after a `compare_write` with a value other than `never`, the line is raised when the count is at or past
  the value, it was raised before the value only when the value was at least 2^32 counts ahead, and once
  raised it stays so until the next `compare_write`;
* in the tickless source the compare is always the one for the armed deadline, so a line raised early leads
  to a compare written anew, and no deadline is delivered before its count. -/
theorem compare_emulated (count : ℕ) :
    (∀ (acts : List Compare.Act) (c : Compare), run Compare.next (Compare.boot count) acts = some c →
      c.call = none → c.value ≠ never →
      (c.value ≤ c.alarm.count → c.alarm.line = true) ∧
      (c.alarm.line = true → c.alarm.raisedAt < c.value → c.alarm.raisedAt + 2 ^ 32 ≤ c.value) ∧
      (c.alarm.line = true → ∀ (n : ℕ) (c' : Compare),
        run Compare.next c (List.replicate n .tick) = some c' → c'.alarm.line = true)) ∧
    (∀ (acts : List Core.Act) (C : Core), run Core.next (Core.boot count) acts = some C →
      C.compare.value = C.armed ∧
      (C.compare.call = none → C.armed ≠ never → C.armed ≤ C.compare.alarm.count →
        C.compare.alarm.line = true) ∧
      ∀ p ∈ C.delivered, p.1 ≤ p.2) := by
  -- once the value is reached, an alarm that is still armed for it would have matched
  have hraised : ∀ c : Compare, Inv c → c.call = none → c.value ≠ never → c.value ≤ c.alarm.count →
      c.alarm.line = true := by
    intro c hc hcall hvalue hreached
    unfold Inv at hc
    rw [hcall] at hc
    rcases hc.2 hvalue with hline | ⟨-, hlt⟩
    · exact hline
    · omega
  constructor
  · intro acts c hrun hcall hvalue
    have hc : Inv c := run_invariant (fun _ _ _ hs hn => hs.next hn) (inv_boot count) hrun
    refine ⟨hraised c hc hcall hvalue, ?_, fun hline n c' h => line_ticks hline h⟩
    unfold Inv at hc
    rw [hcall] at hc
    exact hc.1.early
  · intro acts C hrun
    have hC : CoreInv C := by
      refine run_invariant (fun _ _ _ hs hn => hs.next hn) ?_ hrun
      exact ⟨inv_boot count, rfl, trivial, fun p hp => absurd hp List.not_mem_nil⟩
    refine ⟨hC.agree, ?_, hC.delivered⟩
    intro hcall harmed hreached
    rw [← hC.agree] at harmed hreached
    exact hraised C.compare hC.compare hcall harmed hreached

/-- The count passes the value 7 between the first read and the arming. -/
def missed : List Compare.Act :=
  [.write 7] ++ List.replicate 6 (.access false) ++ List.replicate 5 .tick ++
    List.replicate 7 (.access false)

/-- A deadline 2^32 + 1 counts ahead: the low words meet at the next count, and the interrupt writes the
compare anew. -/
def metEarly : List Core.Act :=
  [.arm (2 ^ 32 + 5)] ++ List.replicate 10 (.access false) ++ [.tick, .enter] ++
    List.replicate 3 .handle ++ List.replicate 10 (.access false) ++ [.handle]

theorem compare_emulated_missed :
    (∃ c, run Compare.next (Compare.boot 4) missed = some c ∧ c.alarm.line = true) ∧
    ∃ C, run Core.next (Core.boot 4) metEarly = some C ∧ C.compare.value = C.armed ∧
      C.armed = 2 ^ 32 + 5 ∧ C.compare.alarm.line = false ∧ C.delivered = [] := by
  obtain ⟨hcompare, hcore⟩ := compare_emulated 4
  constructor
  · obtain ⟨c, hc, hend⟩ := Option.map_eq_some_iff.1
      (show (run Compare.next (Compare.boot 4) missed).map (fun c => (c.call, c.value, c.alarm.count)) =
        some (none, 7, 9) by decide +kernel)
    simp only [Prod.mk.injEq] at hend
    obtain ⟨hcall, hvalue, hcount⟩ := hend
    have hnever : c.value ≠ never := by
      rw [hvalue]
      decide
    exact ⟨c, hc, (hcompare _ c hc hcall hnever).1 (by omega)⟩
  · obtain ⟨C, hC, hend⟩ := Option.map_eq_some_iff.1
      (show (run Core.next (Core.boot 4) metEarly).map
          (fun C => (C.armed, C.compare.alarm.line, C.delivered)) = some (2 ^ 32 + 5, false, []) by
        decide +kernel)
    simp only [Prod.mk.injEq] at hend
    exact ⟨C, hC, (hcore _ C hC).1, hend⟩

end Cyros.Port.Rp2040Timer
