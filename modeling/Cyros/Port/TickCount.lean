import Mathlib.Data.List.Basic
import Mathlib.Data.List.Pairwise
import Mathlib.Data.Nat.Bitwise
import Cyros.Lib.Run

/-!
# The published tick count

The SMP SysTick source and the periodic MTIME source keep their 64-bit tick count in two 32-bit words.
One core writes them, in its timer interrupt, and any core reads them without a lock: high, low, high
again, and once more from the start when the two high words differ.

The two sources store the words in opposite orders when the low one wraps.  `SysTick_Handler` stores the
low word first, `advance_count` the high word first.  A single load or store is a step here, so a reader
can run between the two stores.

The ghost fields say what the reader is entitled to: `count` is the tick count as a number, which an
update changes at its last store, and `had r` is every value it had since reader `r` entered its call.
Setting the source up again is not modelled.
-/

namespace Cyros.Port

open Cyros.Lib

/-- What a 32-bit word wraps at. -/
def wordSize : ℕ := 2 ^ 32

/-- `(high << 32) | low`. -/
def joinWords (high low : ℕ) : ℕ := high <<< 32 ||| low

theorem joinWords_eq {high low : ℕ} (h : low < wordSize) : joinWords high low = high * wordSize + low := by
  unfold joinWords wordSize
  rw [← Nat.shiftLeft_add_eq_or_of_lt h, Nat.shiftLeft_eq]

inductive TickSource
  | systickSmp
  | mtime
  deriving DecidableEq, Repr

/-- What an update has left to store. -/
inductive Stores
  | none
  /-- `SysTick_Handler` has stored the low word, which wrapped. -/
  | high
  /-- `advance_count` has stored the high word. -/
  | low (next ticks : ℕ)
  deriving DecidableEq, Repr

/-- Where a reader is in its loop. -/
inductive Read
  | idle
  | start
  | highBefore (high : ℕ)
  | low (highBefore low : ℕ)
  deriving DecidableEq, Repr

/-- A call that has returned: its value, and what the count was while it ran. -/
structure TickCall where
  value : ℕ
  had : List ℕ
  deriving DecidableEq, Repr

structure TickCount (R : Type) where
  tickLow : ℕ
  tickHigh : ℕ
  stores : Stores
  read : R → Read
  count : ℕ
  had : R → List ℕ
  /-- How often the low word wrapped since the reader last loaded the high one for the first time. -/
  wraps : R → ℕ
  returned : R → List TickCall

inductive TickAct (R : Type)
  /-- The handler's, or `advance_count`'s, first store. -/
  | update (ticks : ℕ)
  /-- Its second store. -/
  | store
  | call (r : R)
  | loadHigh (r : R)
  | loadLow (r : R)
  | loadHighAgain (r : R)
  deriving DecidableEq, Repr

namespace TickCount

variable {R : Type}

/-- A source that has counted so far. -/
def boot (count : ℕ) : TickCount R where
  tickLow := count % wordSize
  tickHigh := count / wordSize % wordSize
  stores := .none
  read := fun _ => .idle
  count := count
  had := fun _ => []
  wraps := fun _ => 0
  returned := fun _ => []

/-- The update is complete. -/
def publish (S : TickCount R) (ticks : ℕ) : TickCount R :=
  { S with count := S.count + ticks, had := fun r => (S.count + ticks) :: S.had r }

def wrapped (S : TickCount R) : TickCount R :=
  { S with wraps := fun r => S.wraps r + 1 }

/-- `SysTick_Handler` on the time core, up to its first store. -/
def sysTickHandler (S : TickCount R) : TickCount R :=
  let next := (S.tickLow + 1) % wordSize
  if next = 0 then wrapped { S with tickLow := next, stores := .high }
  else publish { S with tickLow := next } 1

/-- `advance_count`, up to its first store. -/
def advanceCount (S : TickCount R) (ticks : ℕ) : TickCount R :=
  let next := (S.tickLow + ticks) % wordSize
  if next < S.tickLow then
    { S with tickHigh := (S.tickHigh + 1) % wordSize, stores := .low next ticks }
  else publish { S with tickLow := next } ticks

section
variable [DecidableEq R]

def setRead (S : TickCount R) (r : R) (place : Read) : TickCount R :=
  { S with read := Function.update S.read r place }

/-- `cyros_port_time_now` returns, or `high_before` and `high_after` differ and it tries again. -/
def finish (S : TickCount R) (r : R) (highBefore low : ℕ) : TickCount R :=
  if highBefore = S.tickHigh then
    { S.setRead r .idle with
      returned := Function.update S.returned r (⟨joinWords S.tickHigh low, S.had r⟩ :: S.returned r) }
  else S.setRead r .start

/-- **One load or store.** -/
def next (source : TickSource) (S : TickCount R) : TickAct R → Option (TickCount R)
  | .update ticks =>
      match S.stores, source with
      | .none, .systickSmp => if ticks = 1 then some S.sysTickHandler else none
      | .none, .mtime => if ticks < wordSize then some (S.advanceCount ticks) else none
      | _, _ => none
  | .store =>
      match S.stores with
      | .none => none
      | .high =>
          some (publish { S with tickHigh := (S.tickHigh + 1) % wordSize, stores := .none } 1)
      | .low next ticks =>
          some (publish (wrapped { S with tickLow := next, stores := .none }) ticks)
  | .call r =>
      if S.read r = .idle then
        some { S.setRead r .start with had := Function.update S.had r [S.count] }
      else none
  | .loadHigh r =>
      if S.read r = .start then
        some { S.setRead r (.highBefore S.tickHigh) with wraps := Function.update S.wraps r 0 }
      else none
  | .loadLow r =>
      match S.read r with
      | .highBefore high => some (S.setRead r (.low high S.tickLow))
      | _ => none
  | .loadHighAgain r =>
      match S.read r with
      | .low high low => some (S.finish r high low)
      | _ => none

/-- **No read lies between the two stores of an update.**  SysTick's low word is already zero there and
its high word not yet counted up, so the second load of the high word must not find the low word that was
loaded still to belong to the update under way.  MTIME's high word is already counted up and its low word
not yet stored, so the low word must not be loaded when the high word loaded before it is the new one. -/
def untorn (source : TickSource) (S : TickCount R) : TickAct R → Prop
  | .loadLow r =>
      source = .mtime → S.stores ≠ .none → S.read r ≠ .highBefore S.tickHigh
  | .loadHighAgain r =>
      source = .systickSmp → S.stores ≠ .none → S.read r ≠ .low S.tickHigh S.tickLow
  | _ => True

/-- The low word wraps at most once during a read. -/
def wrapsOnce (S : TickCount R) : TickAct R → Prop
  | .loadHighAgain r => S.wraps r ≤ 1
  | _ => True

def wholeRead (source : TickSource) (S : TickCount R) (act : TickAct R) : Prop :=
  S.untorn source act ∧ S.wrapsOnce act

instance (source : TickSource) (S : TickCount R) : (act : TickAct R) → Decidable (S.wholeRead source act)
  | .loadLow r => inferInstanceAs (Decidable ((source = .mtime → S.stores ≠ .none →
      S.read r ≠ .highBefore S.tickHigh) ∧ True))
  | .loadHighAgain r => inferInstanceAs (Decidable ((source = .systickSmp → S.stores ≠ .none →
      S.read r ≠ .low S.tickHigh S.tickLow) ∧ S.wraps r ≤ 1))
  | .update _ => isTrue ⟨trivial, trivial⟩
  | .store => isTrue ⟨trivial, trivial⟩
  | .call _ => isTrue ⟨trivial, trivial⟩
  | .loadHigh _ => isTrue ⟨trivial, trivial⟩

end

/-! ### What the words stand for -/

/-- The high word as it is stored, without its limit of 32 bits. -/
def epoch (S : TickCount R) : ℕ :=
  match S.stores with
  | .low _ _ => S.count / wordSize + 1
  | _ => S.count / wordSize

/-- The words and what is left to store, against the count. -/
def WordsOk (source : TickSource) (S : TickCount R) : Prop :=
  match S.stores with
  | .none => S.tickLow = S.count % wordSize
  | .high => source = .systickSmp ∧ S.tickLow = 0 ∧ S.count % wordSize + 1 = wordSize
  | .low next ticks => source = .mtime ∧ S.tickLow = S.count % wordSize ∧
      next = (S.count + ticks) % wordSize ∧ (S.count + ticks) / wordSize = S.count / wordSize + 1

/-- How far the high word can have come since it was loaded in epoch `e`. -/
def Reached (source : TickSource) (S : TickCount R) (r : R) (e : ℕ) : Prop :=
  match S.stores with
  | .none => S.epoch ≤ e + S.wraps r + (if source = .systickSmp then 1 else 0)
  | .high => S.epoch ≤ e + S.wraps r
  | .low _ _ => S.epoch ≤ e + S.wraps r + 1

section
variable {source : TickSource} {S : TickCount R} {r : R} {e next ticks : ℕ}

theorem epoch_eq (h : ∀ next ticks, S.stores ≠ .low next ticks) : S.epoch = S.count / wordSize := by
  unfold epoch
  split
  · next hs => exact absurd hs (h _ _)
  · rfl

theorem epoch_low (h : S.stores = .low next ticks) : S.epoch = S.count / wordSize + 1 := by
  rw [epoch, h]

theorem reached_none (h : S.stores = .none) :
    Reached source S r e ↔ S.epoch ≤ e + S.wraps r + (if source = .systickSmp then 1 else 0) := by
  rw [Reached, h]

theorem reached_high (h : S.stores = .high) : Reached source S r e ↔ S.epoch ≤ e + S.wraps r := by
  rw [Reached, h]

theorem reached_low (h : S.stores = .low next ticks) :
    Reached source S r e ↔ S.epoch ≤ e + S.wraps r + 1 := by
  rw [Reached, h]

theorem wordsOk_none (h : S.stores = .none) : WordsOk source S ↔ S.tickLow = S.count % wordSize := by
  rw [WordsOk, h]

end

/-- The high word was loaded in epoch `e`. -/
structure LoadedIn (source : TickSource) (S : TickCount R) (r : R) (high e : ℕ) : Prop where
  word : high = e % wordSize
  le : e ≤ S.epoch
  reached : Reached source S r e

/-- **What a reader has in hand.**  As long as the high word is the one it loaded, its two words are a
value that the count had since, or the low word is the zero of the update under way. -/
def ReadOk (source : TickSource) (S : TickCount R) (r : R) : Prop :=
  match S.read r with
  | .highBefore high => ∃ e, LoadedIn source S r high e
  | .low high low => ∃ e, LoadedIn source S r high e ∧
      (S.epoch = e → (low < wordSize ∧ e * wordSize + low ∈ S.had r) ∨
        (S.stores = .high ∧ low = S.tickLow))
  | _ => True

section
variable {source : TickSource} {S : TickCount R} {r : R}

theorem readOk_idle (h : S.read r = .idle) : ReadOk source S r := by
  rw [ReadOk, h]
  trivial

theorem readOk_start (h : S.read r = .start) : ReadOk source S r := by
  rw [ReadOk, h]
  trivial

theorem readOk_highBefore {high : ℕ} (h : S.read r = .highBefore high) :
    ReadOk source S r ↔ ∃ e, LoadedIn source S r high e := by
  rw [ReadOk, h]

theorem readOk_low {high low : ℕ} (h : S.read r = .low high low) :
    ReadOk source S r ↔ ∃ e, LoadedIn source S r high e ∧
      (S.epoch = e → (low < wordSize ∧ e * wordSize + low ∈ S.had r) ∨
        (S.stores = .high ∧ low = S.tickLow)) := by
  rw [ReadOk, h]

end

/-- What holds of one reader: what it has in hand, the values it is entitled to, the calls it made. -/
structure ReaderOk (source : TickSource) (S : TickCount R) (r : R) : Prop where
  read : ReadOk source S r
  now : S.read r ≠ .idle → S.count ∈ S.had r
  had : ∀ c ∈ S.had r, c ≤ S.count
  real : ∀ call ∈ S.returned r, ∃ c ∈ call.had, call.value = c % (wordSize * wordSize)
  past : ∀ call ∈ S.returned r, ∀ c ∈ call.had, c ≤ S.count
  since : S.read r ≠ .idle → ∀ c ∈ S.had r, ∀ call ∈ S.returned r, ∀ c' ∈ call.had, c' ≤ c
  ordered : (S.returned r).Pairwise fun later earlier => ∀ c ∈ later.had, ∀ c' ∈ earlier.had, c' ≤ c

structure Inv (source : TickSource) (S : TickCount R) : Prop where
  words : WordsOk source S
  high : S.tickHigh = S.epoch % wordSize
  readers : ∀ r, ReaderOk source S r

theorem inv_boot (source : TickSource) (count : ℕ) : Inv source (boot count : TickCount R) := by
  refine ⟨rfl, rfl, fun r => ⟨trivial, fun h => absurd rfl h, ?_, ?_, ?_, fun h => absurd rfl h,
    List.Pairwise.nil⟩⟩
  · intro c hc
    cases hc
  · intro call hcall
    cases hcall
  · intro call hcall
    cases hcall

/-! ### The writer -/

/-- **What a step does to a reader that does not take it**: nothing, unless it moves the high word on. -/
structure Kept (source : TickSource) (S S' : TickCount R) (r : R) : Prop where
  read : S'.read r = S.read r
  returned : S'.returned r = S.returned r
  epoch : S.epoch ≤ S'.epoch
  reached : ∀ e, Reached source S r e → Reached source S' r e
  torn : S.stores = .high → S.epoch < S'.epoch ∨ S'.stores = .high ∧ S'.tickLow = S.tickLow
  had : S'.count = S.count ∧ S'.had r = S.had r ∨ S.count ≤ S'.count ∧ S'.had r = S'.count :: S.had r

section
variable {source : TickSource} {S S' : TickCount R} {r : R} {c : ℕ}

theorem Kept.mem_had (h : Kept source S S' r) (hc : c ∈ S.had r) : c ∈ S'.had r := by
  rcases h.had with ⟨-, heq⟩ | ⟨-, heq⟩ <;> rw [heq]
  · exact hc
  · exact List.mem_cons_of_mem _ hc

theorem Kept.of_mem_had (h : Kept source S S' r) (hc : c ∈ S'.had r) :
    c ∈ S.had r ∨ c = S'.count ∧ S.count ≤ S'.count := by
  rcases h.had with ⟨-, heq⟩ | ⟨hle, heq⟩ <;> rw [heq] at hc
  · exact Or.inl hc
  · rcases List.mem_cons.1 hc with rfl | hc
    · exact Or.inr ⟨rfl, hle⟩
    · exact Or.inl hc

theorem Kept.count_le (h : Kept source S S' r) : S.count ≤ S'.count := by
  rcases h.had with ⟨heq, -⟩ | ⟨hle, -⟩
  · exact heq.ge
  · exact hle

theorem LoadedIn.kept {high e : ℕ} (h : Kept source S S' r) (hl : LoadedIn source S r high e) :
    LoadedIn source S' r high e :=
  ⟨hl.word, hl.le.trans h.epoch, h.reached e hl.reached⟩

theorem ReadOk.kept (h : Kept source S S' r) (hr : ReadOk source S r) : ReadOk source S' r := by
  unfold ReadOk at hr ⊢
  rw [h.read]
  split at hr
  · obtain ⟨e, hl⟩ := hr
    exact ⟨e, hl.kept h⟩
  · obtain ⟨e, hl, hpair⟩ := hr
    refine ⟨e, hl.kept h, fun he => ?_⟩
    -- the high word did not move, so the epoch is still the one of the load
    have hle := h.epoch
    have hle' := hl.le
    rcases hpair (by omega) with ⟨hlt, hmem⟩ | ⟨hstores, hlow⟩
    · exact Or.inl ⟨hlt, h.mem_had hmem⟩
    · rcases h.torn hstores with hlt | ⟨hstores', hsame⟩
      · omega
      · exact Or.inr ⟨hstores', hlow.trans hsame.symm⟩
  · trivial

theorem ReaderOk.kept (h : Kept source S S' r) (hr : ReaderOk source S r) : ReaderOk source S' r := by
  refine ⟨hr.read.kept h, ?_, ?_, ?_, ?_, ?_, ?_⟩
  · intro hread
    rw [h.read] at hread
    rcases h.had with ⟨hcount, heq⟩ | ⟨-, heq⟩ <;> rw [heq]
    · rw [hcount]
      exact hr.now hread
    · exact List.mem_cons_self
  · intro c hc
    rcases h.of_mem_had hc with hc | ⟨rfl, -⟩
    · exact (hr.had c hc).trans h.count_le
    · exact le_refl _
  · rw [h.returned]
    exact hr.real
  · rw [h.returned]
    intro call hcall c hc
    exact (hr.past call hcall c hc).trans h.count_le
  · rw [h.read, h.returned]
    intro hread c hc call hcall c' hc'
    rcases h.of_mem_had hc with hc | ⟨rfl, hle⟩
    · exact hr.since hread c hc call hcall c' hc'
    · exact (hr.past call hcall c' hc').trans hle
  · rw [h.returned]
    exact hr.ordered

end

variable {source : TickSource} {S S' : TickCount R}

theorem Inv.stored (hi : Inv source S) (h : ∀ r, Kept source S S' r) (hwords : WordsOk source S')
    (hhigh : S'.tickHigh = S'.epoch % wordSize) : Inv source S' :=
  ⟨hwords, hhigh, fun r => (hi.readers r).kept (h r)⟩

theorem epoch_none (h : S.stores = .none) : S.epoch = S.count / wordSize :=
  epoch_eq (by rw [h]; nofun)

/-- An update in which the low word does not wrap is one store. -/
theorem Inv.oneStore (hi : Inv source S) (hnone : S.stores = .none) {ticks : ℕ}
    (hcarry : (S.count + ticks) / wordSize = S.count / wordSize) :
    Inv source (publish { S with tickLow := (S.tickLow + ticks) % wordSize } ticks) := by
  have hlow := (wordsOk_none hnone).1 hi.words
  set S' := publish { S with tickLow := (S.tickLow + ticks) % wordSize } ticks
  have hnone' : S'.stores = .none := hnone
  have hepoch : S'.epoch = S.epoch := by
    rw [epoch_none hnone, epoch_none hnone']
    exact hcarry
  refine hi.stored (fun r => ⟨rfl, rfl, hepoch.ge, fun e he => ?_, fun h => ?_,
    Or.inr ⟨Nat.le_add_right _ _, rfl⟩⟩) ?_ ?_
  · rw [reached_none hnone] at he
    rw [reached_none hnone', hepoch]
    exact he
  · cases hnone.symm.trans h
  · rw [wordsOk_none hnone']
    show (S.tickLow + ticks) % wordSize = (S.count + ticks) % wordSize
    rw [hlow, Nat.mod_add_mod]
  · rw [hepoch]
    exact hi.high

theorem Inv.sysTickHandler (hi : Inv .systickSmp S) (hnone : S.stores = .none) :
    Inv .systickSmp S.sysTickHandler := by
  have hlow := (wordsOk_none hnone).1 hi.words
  unfold TickCount.sysTickHandler
  dsimp only
  split
  · next hzero =>
    have hlast : S.count % wordSize + 1 = wordSize := by
      rw [hlow] at hzero
      unfold wordSize at hzero ⊢
      omega
    set S' := wrapped { S with tickLow := (S.tickLow + 1) % wordSize, stores := .high }
    have hstores : S'.stores = .high := rfl
    have hepoch : S'.epoch = S.epoch := by
      rw [epoch_none hnone, epoch_eq (by rw [hstores]; nofun)]
      rfl
    refine hi.stored (fun r => ⟨rfl, rfl, hepoch.ge, fun e he => ?_, fun h => ?_, Or.inl ⟨rfl, rfl⟩⟩)
      ⟨rfl, hzero, hlast⟩ ?_
    · rw [reached_none hnone, if_pos rfl] at he
      rw [reached_high hstores, hepoch]
      show S.epoch ≤ e + (S.wraps r + 1)
      omega
    · cases hnone.symm.trans h
    · rw [hepoch]
      exact hi.high
  · next hzero =>
    apply hi.oneStore hnone
    rw [hlow] at hzero
    unfold wordSize at hzero ⊢
    omega

theorem Inv.advanceCount (hi : Inv .mtime S) (hnone : S.stores = .none) {ticks : ℕ}
    (hticks : ticks < wordSize) : Inv .mtime (S.advanceCount ticks) := by
  have hlow := (wordsOk_none hnone).1 hi.words
  unfold TickCount.advanceCount
  dsimp only
  split
  · next hwrap =>
    set S' := { S with
      tickHigh := (S.tickHigh + 1) % wordSize
      stores := .low ((S.tickLow + ticks) % wordSize) ticks }
    have hstores : S'.stores = .low ((S.tickLow + ticks) % wordSize) ticks := rfl
    have hepoch : S'.epoch = S.epoch + 1 := by
      rw [epoch_none hnone, epoch_low hstores]
    refine hi.stored (fun r => ⟨rfl, rfl, by omega, fun e he => ?_, fun h => ?_, Or.inl ⟨rfl, rfl⟩⟩)
      ⟨rfl, hlow, ?_, ?_⟩ ?_
    · rw [reached_none hnone, if_neg nofun] at he
      rw [reached_low hstores, hepoch]
      show S.epoch + 1 ≤ e + S.wraps r + 1
      omega
    · cases hnone.symm.trans h
    · rw [hlow, Nat.mod_add_mod]
    · rw [hlow] at hwrap
      show (S.count + ticks) / wordSize = S.count / wordSize + 1
      unfold wordSize at hwrap hticks ⊢
      omega
    · rw [hepoch]
      show (S.tickHigh + 1) % wordSize = _
      rw [hi.high, Nat.mod_add_mod]
  · next hwrap =>
    apply hi.oneStore hnone
    rw [hlow] at hwrap
    unfold wordSize at hwrap hticks ⊢
    omega

/-- `SysTick_Handler`'s second store. -/
theorem Inv.storeHigh (hi : Inv source S) (hhigh : S.stores = .high) :
    Inv source (publish { S with tickHigh := (S.tickHigh + 1) % wordSize, stores := .none } 1) := by
  obtain ⟨rfl, hlow, hlast⟩ : source = .systickSmp ∧ S.tickLow = 0 ∧ S.count % wordSize + 1 = wordSize := by
    have hwords := hi.words
    rwa [WordsOk, hhigh] at hwords
  have hcarry : (S.count + 1) / wordSize = S.count / wordSize + 1 := by
    unfold wordSize at hlast ⊢
    omega
  set S' := publish { S with tickHigh := (S.tickHigh + 1) % wordSize, stores := .none } 1
  have hnone : S'.stores = .none := rfl
  have hepoch : S'.epoch = S.epoch + 1 := by
    rw [epoch_none hnone, epoch_eq (by rw [hhigh]; nofun)]
    exact hcarry
  refine hi.stored (fun r => ⟨rfl, rfl, by omega, fun e he => ?_, fun _ => Or.inl (by omega),
    Or.inr ⟨Nat.le_succ _, rfl⟩⟩) ?_ ?_
  · rw [reached_high hhigh] at he
    rw [reached_none hnone, if_pos rfl, hepoch]
    show S.epoch + 1 ≤ e + S.wraps r + 1
    omega
  · rw [wordsOk_none hnone]
    show S.tickLow = (S.count + 1) % wordSize
    unfold wordSize at hlast ⊢
    omega
  · rw [hepoch]
    show (S.tickHigh + 1) % wordSize = _
    rw [hi.high, Nat.mod_add_mod]

/-- `advance_count`'s second store. -/
theorem Inv.storeLow (hi : Inv source S) {next ticks : ℕ} (hlow : S.stores = .low next ticks) :
    Inv source (publish (wrapped { S with tickLow := next, stores := .none }) ticks) := by
  obtain ⟨-, -, hnext, hcarry⟩ : source = .mtime ∧ S.tickLow = S.count % wordSize ∧
      next = (S.count + ticks) % wordSize ∧ (S.count + ticks) / wordSize = S.count / wordSize + 1 := by
    have hwords := hi.words
    rwa [WordsOk, hlow] at hwords
  set S' := publish (wrapped { S with tickLow := next, stores := .none }) ticks
  have hnone : S'.stores = .none := rfl
  have hepoch : S'.epoch = S.epoch := by
    rw [epoch_none hnone, epoch_low hlow]
    exact hcarry
  refine hi.stored (fun r => ⟨rfl, rfl, hepoch.ge, fun e he => ?_, fun h => ?_,
    Or.inr ⟨Nat.le_add_right _ _, rfl⟩⟩) ?_ ?_
  · rw [reached_low hlow] at he
    rw [reached_none hnone, hepoch]
    show S.epoch ≤ e + (S.wraps r + 1) + _
    omega
  · cases hlow.symm.trans h
  · rw [wordsOk_none hnone]
    exact hnext
  · rw [hepoch]
    exact hi.high

/-! ### The readers -/

/-- A load by one reader leaves the words and the count, and the other readers, as they were. -/
structure Loaded (S S' : TickCount R) (r : R) : Prop where
  tickLow : S'.tickLow = S.tickLow
  tickHigh : S'.tickHigh = S.tickHigh
  stores : S'.stores = S.stores
  count : S'.count = S.count
  others : ∀ q, q ≠ r → S'.read q = S.read q ∧ S'.had q = S.had q ∧ S'.wraps q = S.wraps q ∧
    S'.returned q = S.returned q

theorem Loaded.epoch {r : R} (h : Loaded S S' r) : S'.epoch = S.epoch := by
  rw [TickCount.epoch, TickCount.epoch, h.stores, h.count]

theorem Loaded.kept {r q : R} (h : Loaded S S' r) (hq : q ≠ r) : Kept source S S' q := by
  obtain ⟨hread, hhad, hwraps, hreturned⟩ := h.others q hq
  refine ⟨hread, hreturned, h.epoch.ge, fun e he => ?_, fun hs => Or.inr ⟨h.stores.trans hs, h.tickLow⟩,
    Or.inl ⟨h.count, hhad⟩⟩
  unfold Reached at he ⊢
  rw [h.stores, h.epoch, hwraps]
  exact he

/-- The second load of the high word finds the one of the first: the epoch has not moved. -/
theorem LoadedIn.epoch_eq_of_word {r : R} {high e : ℕ} (hl : LoadedIn source S r high e)
    (hsame : high = S.epoch % wordSize) (hwraps : S.wraps r ≤ 1) : S.epoch = e := by
  have hword := hl.word
  have hle := hl.le
  have hreached : S.epoch ≤ e + 2 := by
    have hreached := hl.reached
    unfold Reached at hreached
    split at hreached
    · split at hreached
      · omega
      · omega
    · omega
    · omega
  unfold wordSize at hword hsame
  omega

variable [DecidableEq R]

/-- What is left to show of a load is what it does to its own reader. -/
theorem Inv.loaded {r : R} (hi : Inv source S) (h : Loaded S S' r) (hr : ReaderOk source S' r) :
    Inv source S' := by
  refine ⟨?_, ?_, fun q => ?_⟩
  · have hwords := hi.words
    unfold WordsOk at hwords ⊢
    rw [h.stores, h.tickLow, h.count]
    exact hwords
  · rw [h.tickHigh, h.epoch]
    exact hi.high
  · by_cases hq : q = r
    · rw [hq]
      exact hr
    · exact (hi.readers q).kept (h.kept hq)

/-- A reader's move to another place of its loop. -/
theorem loaded_setRead (S : TickCount R) (r : R) (place : Read) : Loaded S (S.setRead r place) r :=
  ⟨rfl, rfl, rfl, rfl, fun _ hq => ⟨Function.update_of_ne hq _ _, rfl, rfl, rfl⟩⟩

theorem ReaderOk.setRead {r : R} {place : Read} (hr : ReaderOk source S r) (hin : S.read r ≠ .idle)
    (hread : ReadOk source (S.setRead r place) r) : ReaderOk source (S.setRead r place) r :=
  ⟨hread, fun _ => hr.now hin, hr.had, hr.real, hr.past, fun _ => hr.since hin, hr.ordered⟩

theorem Inv.call {r : R} (hi : Inv source S) :
    Inv source { S.setRead r .start with had := Function.update S.had r [S.count] } := by
  have hr := hi.readers r
  have hhad : Function.update S.had r [S.count] r = [S.count] := Function.update_self ..
  have hread : Function.update S.read r .start r = .start := Function.update_self ..
  refine hi.loaded (r := r) ⟨rfl, rfl, rfl, rfl, fun q hq => ⟨?_, ?_, rfl, rfl⟩⟩
    ⟨?_, ?_, ?_, hr.real, hr.past, ?_, hr.ordered⟩
  · exact Function.update_of_ne hq _ _
  · exact Function.update_of_ne hq _ _
  · exact readOk_start hread
  · intro _
    show S.count ∈ Function.update S.had r [S.count] r
    rw [hhad]
    exact List.mem_singleton_self _
  · show ∀ c ∈ Function.update S.had r [S.count] r, c ≤ S.count
    rw [hhad]
    intro c hc
    exact (List.mem_singleton.1 hc).le
  · intro _
    show ∀ c ∈ Function.update S.had r [S.count] r, _
    rw [hhad]
    intro c hc call hcall c' hc'
    rw [List.mem_singleton.1 hc]
    exact hr.past call hcall c' hc'

theorem Inv.loadHigh {r : R} (hi : Inv source S) (hr : S.read r = .start) :
    Inv source { S.setRead r (.highBefore S.tickHigh) with wraps := Function.update S.wraps r 0 } := by
  have hin : S.read r ≠ .idle := by
    rw [hr]
    nofun
  have hok := hi.readers r
  set S' := { S.setRead r (.highBefore S.tickHigh) with wraps := Function.update S.wraps r 0 }
  have hread : S'.read r = .highBefore S.tickHigh := Function.update_self ..
  refine hi.loaded (r := r) ⟨rfl, rfl, rfl, rfl, fun q hq => ⟨?_, rfl, ?_, rfl⟩⟩
    ⟨?_, fun _ => hok.now hin, hok.had, hok.real, hok.past, fun _ => hok.since hin, hok.ordered⟩
  · exact Function.update_of_ne hq _ _
  · exact Function.update_of_ne hq _ _
  · rw [readOk_highBefore hread]
    refine ⟨S'.epoch, hi.high, le_refl _, ?_⟩
    unfold Reached
    split
    · omega
    · omega
    · omega

theorem Inv.loadLow {r : R} {high : ℕ} (hi : Inv source S) (hr : S.read r = .highBefore high)
    (hwhole : S.untorn source (.loadLow r)) : Inv source (S.setRead r (.low high S.tickLow)) := by
  have hok := hi.readers r
  have hin : S.read r ≠ .idle := by
    rw [hr]
    nofun
  obtain ⟨e, hl⟩ := (readOk_highBefore hr).1 hok.read
  have hread : (S.setRead r (.low high S.tickLow)).read r = .low high S.tickLow := Function.update_self ..
  refine hi.loaded (loaded_setRead S r _) (hok.setRead hin ((readOk_low hread).2
    ⟨e, ⟨hl.word, hl.le, hl.reached⟩, fun (he : S.epoch = e) => ?_⟩))
  show (S.tickLow < wordSize ∧ e * wordSize + S.tickLow ∈ S.had r) ∨ S.stores = .high ∧ S.tickLow = S.tickLow
  have hwords := hi.words
  unfold WordsOk at hwords
  split at hwords
  · next hnone =>
    have hcount : e * wordSize + S.tickLow = S.count := by
      rw [← he, epoch_none hnone, hwords]
      exact Nat.div_add_mod' S.count wordSize
    rw [hcount, hwords]
    exact Or.inl ⟨Nat.mod_lt _ (by decide), hok.now hin⟩
  · next hhigh => exact Or.inr ⟨hhigh, rfl⟩
  · next hlow =>
    -- the high word in hand is the one just stored
    refine absurd ?_ (hwhole hwords.1 (by rw [hlow]; nofun))
    rw [hr, hl.word, hi.high, he]

theorem Inv.loadHighAgain {r : R} {high low : ℕ} (hi : Inv source S) (hr : S.read r = .low high low)
    (hwhole : S.wholeRead source (.loadHighAgain r)) : Inv source (S.finish r high low) := by
  have hok := hi.readers r
  have hin : S.read r ≠ .idle := by
    rw [hr]
    nofun
  unfold TickCount.finish
  split
  · next hsame =>
    obtain ⟨e, hl, hpair⟩ := (readOk_low hr).1 hok.read
    have he : S.epoch = e := hl.epoch_eq_of_word (hsame.trans hi.high) hwhole.2
    have hvalue : ∃ c ∈ S.had r, joinWords S.tickHigh low = c % (wordSize * wordSize) := by
      rcases hpair he with ⟨hlt, hmem⟩ | ⟨hhigh, hlow⟩
      · refine ⟨_, hmem, ?_⟩
        rw [joinWords_eq hlt, hi.high, he]
        unfold wordSize at hlt ⊢
        omega
      · -- the update whose zero was loaded is still under way
        have hsource : source = .systickSmp := by
          have hwords := hi.words
          rw [WordsOk, hhigh] at hwords
          exact hwords.1
        refine absurd ?_ (hwhole.1 hsource (by rw [hhigh]; nofun))
        rw [hr, hsame, hlow]
    set call : TickCall := ⟨joinWords S.tickHigh low, S.had r⟩
    have hreturned : Function.update S.returned r (call :: S.returned r) r = call :: S.returned r :=
      Function.update_self ..
    have hread : Function.update S.read r Read.idle r = .idle := Function.update_self ..
    refine hi.loaded (r := r) ⟨rfl, rfl, rfl, rfl, fun q hq => ⟨?_, rfl, rfl, ?_⟩⟩
      ⟨readOk_idle hread, fun h => absurd hread h, hok.had, ?_, ?_, fun h => absurd hread h, ?_⟩
    · exact Function.update_of_ne hq _ _
    · exact Function.update_of_ne hq _ _
    · show ∀ x ∈ Function.update S.returned r (call :: S.returned r) r, _
      rw [hreturned, List.forall_mem_cons]
      exact ⟨hvalue, hok.real⟩
    · show ∀ x ∈ Function.update S.returned r (call :: S.returned r) r, _
      rw [hreturned, List.forall_mem_cons]
      exact ⟨hok.had, hok.past⟩
    · show (Function.update S.returned r (call :: S.returned r) r).Pairwise _
      rw [hreturned, List.pairwise_cons]
      refine ⟨?_, hok.ordered⟩
      intro earlier hearlier c hc c' hc'
      exact hok.since hin c hc earlier hearlier c' hc'
  · have hread : (S.setRead r .start).read r = .start := Function.update_self ..
    exact hi.loaded (loaded_setRead S r _) (hok.setRead hin (readOk_start hread))

/-! ### Every run -/

theorem Inv.next {act : TickAct R} (hi : Inv source S) (hwhole : S.wholeRead source act)
    (h : TickCount.next source S act = some S') : Inv source S' := by
  cases act with
  | update ticks =>
      simp only [TickCount.next] at h
      split at h
      · next hnone =>
        split at h
        · cases h
          exact hi.sysTickHandler hnone
        · cases h
      · next hnone =>
        split at h
        · next hticks =>
          cases h
          exact hi.advanceCount hnone hticks
        · cases h
      · cases h
  | store =>
      simp only [TickCount.next] at h
      split at h
      · cases h
      · next hhigh =>
        cases h
        exact hi.storeHigh hhigh
      · next hlow =>
        cases h
        exact hi.storeLow hlow
  | call r =>
      simp only [TickCount.next] at h
      split at h
      · cases h
        exact hi.call
      · cases h
  | loadHigh r =>
      simp only [TickCount.next] at h
      split at h
      · next hr =>
        cases h
        exact hi.loadHigh hr
      · cases h
  | loadLow r =>
      simp only [TickCount.next] at h
      split at h
      · next hr =>
        cases h
        exact hi.loadLow hr hwhole.1
      · cases h
  | loadHighAgain r =>
      simp only [TickCount.next] at h
      split at h
      · next hr =>
        cases h
        exact hi.loadHighAgain hr hwhole
      · cases h

omit [DecidableEq R] in
/-- What the reader's own calls gave never decreases, as long as 64 bits hold the count. -/
theorem Inv.sorted {r : R} (hi : Inv source S) (hcount : S.count < wordSize * wordSize) :
    ((S.returned r).map TickCall.value).Pairwise (· ≥ ·) := by
  have hr := hi.readers r
  rw [List.pairwise_map]
  refine hr.ordered.imp_of_mem ?_
  intro later earlier hlater hearlier hle
  obtain ⟨c, hc, hvalue⟩ := hr.real later hlater
  obtain ⟨c', hc', hvalue'⟩ := hr.real earlier hearlier
  have hlt := hr.past later hlater c hc
  have hlt' := hr.past earlier hearlier c' hc'
  rw [Nat.mod_eq_of_lt (by omega)] at hvalue hvalue'
  have := hle c hc c' hc'
  omega

/-- **A read that does not lie between the two stores of an update is real.**  In every run in which the
low word wraps at most once during a read, each value that `cyros_port_time_now` returned is one that the
count had during the call, and the values a reader got never decrease. -/
theorem tick_read_real (source : TickSource) (count : ℕ) (acts : List (TickAct R)) (S : TickCount R)
    (hrun : run (TickCount.next source) (boot count) acts = some S)
    (hwhole : Meets (TickCount.next source) (wholeRead source) (boot count) acts) (r : R) :
    (∀ call ∈ S.returned r, ∃ c ∈ call.had, call.value = c % 2 ^ 64) ∧
      (S.count < 2 ^ 64 → ((S.returned r).map TickCall.value).Pairwise (· ≥ ·)) := by
  have hi : Inv source S := run_invariant_of_meets (I := Inv source)
    (fun _ _ _ hi hok h => hi.next hok h) (inv_boot source count) hwhole hrun
  have hsize : wordSize * wordSize = 2 ^ 64 := by
    decide
  rw [← hsize]
  exact ⟨(hi.readers r).real, hi.sorted⟩

/-- A whole read of a source at rest, and its loop's second turn after an update that moved the high word
on between the two loads of it. -/
def retriedRead : List (TickAct Unit) :=
  [.call (), .loadHigh (), .update 1, .store, .loadLow (), .loadHighAgain (),
    .loadHigh (), .loadLow (), .loadHighAgain ()]

theorem tick_read_real_retried :
    ∃ S, run (TickCount.next .systickSmp) (boot (2 ^ 32 - 1)) retriedRead = some S ∧
      ((S.returned ()).map TickCall.value).Pairwise (· ≥ ·) ∧
      ∀ call ∈ S.returned (), ∃ c ∈ call.had, call.value = c % 2 ^ 64 := by
  have hrun : (run (TickCount.next .systickSmp) (boot (2 ^ 32 - 1)) retriedRead).map
      TickCount.count = some (2 ^ 32) := rfl
  obtain ⟨S, hS, hcount⟩ := Option.map_eq_some_iff.mp hrun
  have hreal := tick_read_real .systickSmp _ _ S hS (by decide) ()
  refine ⟨S, hS, hreal.2 ?_, hreal.1⟩
  rw [hcount]
  decide

/-- A read, and another one between the two stores of the update from `2 ^ 32 - 1`. -/
def tornRead : List (TickAct Unit) :=
  [.call (), .loadHigh (), .loadLow (), .loadHighAgain (), .update 1,
    .call (), .loadHigh (), .loadLow (), .loadHighAgain ()]

/-- A read between the two stores, and another one after the second. -/
def tornReadFirst : List (TickAct Unit) :=
  [.update 1, .call (), .loadHigh (), .loadLow (), .loadHighAgain (), .store,
    .call (), .loadHigh (), .loadLow (), .loadHighAgain ()]

/-- **Both sources can be read torn.**  SysTick's count falls back by a whole low word; MTIME's leaps
forward by one, and comes back with the next read. -/
theorem torn_reads :
    (∃ S, run (TickCount.next .systickSmp) (boot (2 ^ 32 - 1)) tornRead = some S ∧
      (∃ call ∈ S.returned (), ∀ c ∈ call.had, call.value ≠ c % 2 ^ 64) ∧
      ¬ ((S.returned ()).map TickCall.value).Pairwise (· ≥ ·)) ∧
    (∃ S, run (TickCount.next .mtime) (boot (2 ^ 32 - 1)) tornReadFirst = some S ∧
      (∃ call ∈ S.returned (), ∀ c ∈ call.had, call.value ≠ c % 2 ^ 64) ∧
      ¬ ((S.returned ()).map TickCall.value).Pairwise (· ≥ ·)) := by
  have hsystick : (run (TickCount.next .systickSmp) (boot (2 ^ 32 - 1)) tornRead).map
      (fun S => S.returned ()) = some [⟨0, [2 ^ 32 - 1]⟩, ⟨2 ^ 32 - 1, [2 ^ 32 - 1]⟩] := rfl
  have hmtime : (run (TickCount.next .mtime) (boot (2 ^ 32 - 1)) tornReadFirst).map
      (fun S => S.returned ()) = some [⟨2 ^ 32, [2 ^ 32]⟩, ⟨2 ^ 33 - 1, [2 ^ 32 - 1]⟩] := rfl
  obtain ⟨S, hS, hreturned⟩ := Option.map_eq_some_iff.mp hsystick
  obtain ⟨S', hS', hreturned'⟩ := Option.map_eq_some_iff.mp hmtime
  refine ⟨⟨S, hS, ?_⟩, ⟨S', hS', ?_⟩⟩
  · rw [hreturned]
    decide
  · rw [hreturned']
    decide

end TickCount

end Cyros.Port
