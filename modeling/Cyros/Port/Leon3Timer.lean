import Mathlib.Data.BitVec
import Cyros.Port.TickCount

/-!
# The LEON3 general-purpose timer as MTIME

Timer 1 is a 32-bit down counter that runs freely.  The 64-bit count is extended from an epoch, a base and
the raw count it was taken at, which `compare_write` renews under the timer lock and which `count()` reads
under a sequence count, on any core and without the lock.  Timer 2 is a one-shot that serves the compares of
all cores: `rearm` forces the level of each core whose compare is reached and arms the timer for the earliest
of the others.

Single loads and stores are steps, of any number of readers `R` and of the one `compare_write` that holds the
lock; the count may advance by any amount between two of them.  `count` is the true number of counts since
the counter was started, and below 2^64.  A reader's `before` is the sequence count it read, of which the
source has the low 32 bits.
-/

namespace Cyros.Port.Leon3Timer

open Cyros.Lib

def never : ℕ := 2 ^ 64 - 1

/-- `longest_arm`. -/
def longestArm : ℕ := 2 ^ 31

/-- What timer 1 shows at `count`, having shown `origin` at 0. -/
def rawAt (origin : BitVec 32) (count : ℕ) : BitVec 32 := origin - BitVec.ofNat 32 count

/-- The words of the epoch. -/
structure Words where
  high : ℕ
  low : ℕ
  raw : BitVec 32
  deriving DecidableEq, Repr

/-- The words of an epoch taken at `count`. -/
def wordsAt (origin : BitVec 32) (count : ℕ) : Words :=
  ⟨count / wordSize, count % wordSize, rawAt origin count⟩

/-- The base, and the counts from the raw one of the epoch to `raw`. -/
def Words.extend (w : Words) (raw : BitVec 32) : ℕ :=
  (joinWords w.high w.low + (w.raw - raw).toNat) % 2 ^ 64

/-- Where `count()` is, with what it has loaded. -/
inductive ReadPlace
  | out
  | sequence
  | high (before : ℕ)
  | low (before high : ℕ)
  | raw (before high low : ℕ)
  | check (before : ℕ) (words : Words)
  | counter (words : Words)
  deriving DecidableEq, Repr

/-- A value that `count()` returned, and the true counts at which the call began and returned. -/
structure Reading (R : Type*) where
  reader : R
  value : ℕ
  start : ℕ
  stop : ℕ
  deriving DecidableEq, Repr

/-- The next access of `compare_write`: `renew_epoch`, the compare, `rearm`. -/
inductive Stage
  | capture
  | odd
  | high
  | low
  | raw
  | even
  | store
  | force
  | reload
  | control
  | unlock
  deriving DecidableEq, Repr

/-- A `compare_write` that holds the lock. -/
structure Call (n : ℕ) where
  core : Fin n
  value : ℕ
  stage : Stage
  now : ℕ
  raw : BitVec 32
  deriving DecidableEq, Repr

structure Timer (n : ℕ) (R : Type*) where
  count : ℕ
  sequence : ℕ
  words : Words
  /-- The count at which the published epoch was taken. -/
  epoch : ℕ
  read : R → ReadPlace
  start : R → ℕ
  readings : List (Reading R)
  call : Option (Call n)
  compares : Fin n → ℕ
  initialised : Bool
  /-- The cores whose level the last `rearm` forced. -/
  forced : Fin n → Bool
  /-- Timer 2's reload register. -/
  reload : ℕ
  /-- The count at which the last `compare_write` took the lock, what it took the count to be, the count at
  which it loaded timer 2, and the count at which that underflows. -/
  began : ℕ
  asOf : ℕ
  loadedAt : ℕ
  underflow : ℕ

/-- `rearm`'s loop: the earliest compare that is not reached. -/
def earliest {n : ℕ} (compares : Fin n → ℕ) (now : ℕ) : ℕ :=
  (List.finRange n).foldl
    (fun least core =>
      if compares core ≤ now then least
      else if compares core < least then compares core else least)
    never

/-- The counts that timer 2 is armed for. -/
def armCounts {n : ℕ} (compares : Fin n → ℕ) (now : ℕ) : ℕ :=
  let distance := if earliest compares now = never then longestArm else earliest compares now - now
  if longestArm < distance then longestArm else distance

inductive Act (n : ℕ) (R : Type*)
  | advance (counts : ℕ)
  | begin (r : R)
  | load (r : R)
  | write (core : Fin n) (value : ℕ)
  | access
  deriving DecidableEq, Repr

namespace Timer

variable {n : ℕ} {R : Type*} [DecidableEq R]

def setRead (S : Timer n R) (r : R) (place : ReadPlace) : Timer n R :=
  { S with read := Function.update S.read r place }

/-- **A load of `count()`.** -/
def load (origin : BitVec 32) (S : Timer n R) (r : R) : Option (Timer n R) :=
  match S.read r with
  | .out => none
  | .sequence => some (if S.sequence % 2 = 1 then S else S.setRead r (.high S.sequence))
  | .high before => some (S.setRead r (.low before S.words.high))
  | .low before high => some (S.setRead r (.raw before high S.words.low))
  | .raw before high low => some (S.setRead r (.check before ⟨high, low, S.words.raw⟩))
  | .check before words =>
      some (S.setRead r (if S.sequence % wordSize = before % wordSize then .counter words else .sequence))
  | .counter words =>
      some { S.setRead r .out with
        readings := ⟨r, words.extend (rawAt origin S.count), S.start r, S.count⟩ :: S.readings }

/-- **An access of `compare_write`.** -/
def access (origin : BitVec 32) (S : Timer n R) (c : Call n) : Timer n R :=
  match c.stage with
  | .capture =>
      let raw := rawAt origin S.count
      { S with call := some { c with stage := .odd, raw := raw, now := S.words.extend raw } }
  | .odd => { S with sequence := S.sequence + 1, call := some { c with stage := .high } }
  | .high =>
      { S with
        words := { S.words with high := c.now / wordSize }
        call := some { c with stage := .low } }
  | .low =>
      { S with
        words := { S.words with low := c.now % wordSize }
        call := some { c with stage := .raw } }
  | .raw => { S with words := { S.words with raw := c.raw }, call := some { c with stage := .even } }
  | .even =>
      { S with
        sequence := S.sequence + 1
        epoch := c.now
        call := some { c with stage := .store } }
  | .store =>
      -- zero is reached, so every core starts at never
      { S with
        compares := Function.update (if S.initialised then S.compares else fun _ => never) c.core c.value
        initialised := true
        call := some { c with stage := .force } }
  | .force =>
      { S with
        forced := fun core => decide (S.compares core ≤ c.now)
        call := some { c with stage := .reload } }
  | .reload =>
      { S with
        reload := armCounts S.compares c.now - 1
        call := some { c with stage := .control } }
  | .control =>
      { S with
        asOf := c.now
        loadedAt := S.count
        underflow := S.count + (S.reload + 1)
        call := some { c with stage := .unlock } }
  | .unlock => { S with call := none }

/-- **One step.** -/
def next (origin : BitVec 32) (S : Timer n R) : Act n R → Option (Timer n R)
  | .advance counts =>
      if S.count + counts < 2 ^ 64 then some { S with count := S.count + counts } else none
  | .begin r =>
      if S.read r = .out then
        some { S.setRead r .sequence with start := Function.update S.start r S.count }
      else none
  | .load r => S.load origin r
  | .write core value =>
      if S.call = none ∧ value < 2 ^ 64 then
        some { S with call := some ⟨core, value, .capture, 0, 0⟩, began := S.count }
      else none
  | .access => S.call.map (S.access origin)

/-- `ensure_counting` has started timer 1. -/
def boot (origin : BitVec 32) : Timer n R where
  count := 0
  sequence := 0
  words := wordsAt origin 0
  epoch := 0
  read := fun _ => .out
  start := fun _ => 0
  readings := []
  call := none
  compares := fun _ => 0
  initialised := false
  forced := fun _ => false
  reload := 0
  began := 0
  asOf := 0
  loadedAt := 0
  underflow := 0

/-- The sequence count has not gone all the way round since the read looked at it. -/
def notRound (sequence : ℕ) : ReadPlace → Prop
  | .check before _ => sequence < before + wordSize
  | _ => True

instance (sequence : ℕ) : (place : ReadPlace) → Decidable (notRound sequence place)
  | .check before _ => inferInstanceAs (Decidable (sequence < before + wordSize))
  | .out | .sequence | .high _ | .low _ _ | .raw _ _ _ | .counter _ => isTrue trivial

/-- The counts advance with the epoch at most `limit` old and every read at most 2^31 counts long, and no read
sees the sequence count go all the way round. -/
def paced (limit : ℕ) (S : Timer n R) : Act n R → Prop
  | .advance counts =>
      S.count + counts ≤ S.epoch + limit ∧
        ∀ r, S.read r = .out ∨ S.count + counts ≤ S.start r + 2 ^ 31
  | .load r => notRound S.sequence (S.read r)
  | _ => True

instance {m : ℕ} (limit : ℕ) (S : Timer n (Fin m)) : (act : Act n (Fin m)) → Decidable (paced limit S act)
  | .advance counts => inferInstanceAs (Decidable (S.count + counts ≤ S.epoch + limit ∧
      ∀ r, S.read r = .out ∨ S.count + counts ≤ S.start r + 2 ^ 31))
  | .load r => inferInstanceAs (Decidable (notRound S.sequence (S.read r)))
  | .begin _ | .write _ _ | .access => isTrue trivial

end Timer

/-! ### The raw count and the earliest compare -/

/-- **The count extended from an epoch** is the true one for as long as the epoch is less than 2^32 old. -/
theorem extend_wordsAt {origin : BitVec 32} {epoch count : ℕ} (hle : epoch ≤ count)
    (hage : count < epoch + 2 ^ 32) (hcount : count < 2 ^ 64) :
    (wordsAt origin epoch).extend (rawAt origin count) = count := by
  have hjoin : joinWords (epoch / wordSize) (epoch % wordSize) = epoch := by
    rw [joinWords_eq (Nat.mod_lt _ (by decide)), Nat.mul_comm]
    exact Nat.div_add_mod epoch wordSize
  have hraw : rawAt origin epoch - rawAt origin count = BitVec.ofNat 32 count - BitVec.ofNat 32 epoch := by
    unfold rawAt
    exact sub_sub_sub_cancel_left _ _ _
  have helapsed : (rawAt origin epoch - rawAt origin count).toNat = count - epoch := by
    rw [hraw, BitVec.toNat_sub, BitVec.toNat_ofNat, BitVec.toNat_ofNat]
    omega
  show (joinWords (epoch / wordSize) (epoch % wordSize) +
    (rawAt origin epoch - rawAt origin count).toNat) % 2 ^ 64 = count
  rw [hjoin, helapsed]
  omega

/-- The loop of `rearm`: none of the compares that are not reached is below its result, and the result is one of
them if it is not what the loop began with. -/
theorem foldl_earliest {n : ℕ} (compares : Fin n → ℕ) (now : ℕ) (cores : List (Fin n)) (least : ℕ) :
    let result := cores.foldl (fun least core =>
      if compares core ≤ now then least
      else if compares core < least then compares core else least) least
    result ≤ least ∧ (∀ core ∈ cores, now < compares core → result ≤ compares core) ∧
      (result = least ∨ now < result) := by
  induction cores generalizing least with
  | nil => exact ⟨le_refl least, by simp, Or.inl rfl⟩
  | cons core cores ih =>
      obtain ⟨hle, hmem, hlast⟩ := ih (if compares core ≤ now then least
        else if compares core < least then compares core else least)
      simp only [List.foldl_cons, List.forall_mem_cons]
      grind

theorem earliest_spec {n : ℕ} (compares : Fin n → ℕ) (now : ℕ) :
    (∀ core, now < compares core → earliest compares now ≤ compares core) ∧
      (earliest compares now = never ∨ now < earliest compares now) := by
  obtain ⟨-, hle, hlast⟩ := foldl_earliest compares now (List.finRange n) never
  exact ⟨fun core => hle core (List.mem_finRange core), hlast⟩

/-- **Timer 2 is armed to underflow by each compare that is not reached**, and within the longest arm. -/
theorem armCounts_spec {n : ℕ} (compares : Fin n → ℕ) (now : ℕ) :
    0 < armCounts compares now ∧ armCounts compares now ≤ longestArm ∧
      ∀ core, now < compares core → compares core < never → now + armCounts compares now ≤ compares core := by
  obtain ⟨hle, hlast⟩ := earliest_spec compares now
  have hlong : 0 < longestArm := by decide
  unfold armCounts
  dsimp only
  by_cases hnone : earliest compares now = never
  · rw [if_pos hnone, if_neg (lt_irrefl _)]
    refine ⟨hlong, le_refl _, fun core hlt hnever => ?_⟩
    have := hle core hlt
    omega
  · have hlt := hlast.resolve_left hnone
    rw [if_neg hnone]
    refine ⟨?_, ?_, fun core hcore _ => ?_⟩
    · split <;> omega
    · split <;> omega
    · have := hle core hcore
      split <;> omega

/-! ### Readers -/

namespace Timer

variable {n : ℕ} {R : Type*} {origin : BitVec 32} {S S' : Timer n R} {r : R}

/-- The read has not taken longer than it may. -/
def Going (S : Timer n R) (r : R) : Prop := S.start r ≤ S.count ∧ S.count ≤ S.start r + 2 ^ 31

/-- The read has found the sequence count even, and the epoch young if it is still that one. -/
def Looked (S : Timer n R) (r : R) (before : ℕ) : Prop :=
  before % 2 = 0 ∧ before ≤ S.sequence ∧ (S.sequence = before → S.start r < S.epoch + 2 ^ 31)

def ReadOk (origin : BitVec 32) (S : Timer n R) (r : R) : ReadPlace → Prop
  | .out => True
  | .sequence => S.Going r
  | .high before => S.Going r ∧ S.Looked r before
  | .low before high => S.Going r ∧ S.Looked r before ∧ (S.sequence = before → high = S.words.high)
  | .raw before high low =>
      S.Going r ∧ S.Looked r before ∧ (S.sequence = before → high = S.words.high ∧ low = S.words.low)
  | .check before words => S.Going r ∧ S.Looked r before ∧ (S.sequence = before → words = S.words)
  | .counter words =>
      S.Going r ∧ ∃ epoch, words = wordsAt origin epoch ∧ epoch ≤ S.count ∧ S.start r < epoch + 2 ^ 31

/-- The sequence count is as it was with all it guards, or has moved on, or says that the epoch changes. -/
def SequenceKept (S S' : Timer n R) : Prop :=
  (S'.sequence = S.sequence ∧ S'.words = S.words ∧ S'.epoch = S.epoch) ∨ S.sequence < S'.sequence ∨
    (S'.sequence = S.sequence ∧ S.sequence % 2 = 1)

/-- What a read knows stands when others go on. -/
theorem ReadOk.kept {place : ReadPlace} (h : ReadOk origin S r place) (hkept : SequenceKept S S')
    (hstart : S'.start r = S.start r) (hcount : S.count ≤ S'.count)
    (hgoing : place ≠ .out → S'.count ≤ S'.start r + 2 ^ 31) : ReadOk origin S' r place := by
  have hgo : place ≠ .out → S.Going r → S'.Going r := by
    intro hplace hg
    refine ⟨?_, hgoing hplace⟩
    rw [hstart]
    exact le_trans hg.1 hcount
  -- if the sequence count is still the one the read saw, nothing it guards has changed
  have hsame : ∀ before, before % 2 = 0 → before ≤ S.sequence → S'.sequence = before →
      S.sequence = before ∧ S'.words = S.words ∧ S'.epoch = S.epoch := by
    intro before heven hle heq
    rcases hkept with ⟨hseq, hwords, hepoch⟩ | hlt | ⟨hseq, hodd⟩
    · exact ⟨by omega, hwords, hepoch⟩
    · omega
    · omega
  have hlooked : ∀ before, S.Looked r before → S'.Looked r before := by
    intro before hl
    refine ⟨hl.1, ?_, ?_⟩
    · rcases hkept with ⟨hseq, -, -⟩ | hlt | ⟨hseq, -⟩ <;> have := hl.2.1 <;> omega
    · intro heq
      obtain ⟨hseq, -, hepoch⟩ := hsame before hl.1 hl.2.1 heq
      rw [hstart, hepoch]
      exact hl.2.2 hseq
  cases place with
  | out => trivial
  | sequence => exact hgo ReadPlace.noConfusion h
  | high before => exact ⟨hgo ReadPlace.noConfusion h.1, hlooked before h.2⟩
  | low before | raw before | check before =>
      refine ⟨hgo ReadPlace.noConfusion h.1, hlooked before h.2.1, ?_⟩
      intro heq
      obtain ⟨hseq, hwords, -⟩ := hsame before h.2.1.1 h.2.1.2.1 heq
      rw [hwords]
      exact h.2.2 hseq
  | counter words =>
      obtain ⟨hg, epoch, hwords, hle, hyoung⟩ := h
      refine ⟨hgo ReadPlace.noConfusion hg, epoch, hwords, le_trans hle hcount, ?_⟩
      rw [hstart]
      exact hyoung

/-! ### The writer -/

/-- The call has seen the count at `now`. -/
def Within (S : Timer n R) (now : ℕ) : Prop := S.began ≤ now ∧ now ≤ S.count

/-- Timer 2 and the forced levels are those for the compares as of `asOf`. -/
structure Rearmed (S : Timer n R) : Prop where
  forced : ∀ core, S.compares core ≤ S.asOf → S.forced core = true
  underflow : S.underflow = S.loadedAt + armCounts S.compares S.asOf
  began : S.began ≤ S.asOf
  asOf : S.asOf ≤ S.loadedAt
  loaded : S.loadedAt ≤ S.count

/-- The published epoch is whole. -/
def Whole (origin : BitVec 32) (S : Timer n R) : Prop :=
  S.sequence % 2 = 0 ∧ S.words = wordsAt origin S.epoch

/-- `renew_epoch` has the count of its look at timer 1. -/
structure Captured (origin : BitVec 32) (S : Timer n R) (c : Call n) : Prop where
  raw : c.raw = rawAt origin c.now
  epoch : S.epoch ≤ c.now
  now : S.Within c.now

def StageOk (origin : BitVec 32) (S : Timer n R) (c : Call n) : Prop :=
  match c.stage with
  | .capture => S.Whole origin ∧ S.Within S.count
  | .odd => S.Whole origin ∧ Captured origin S c
  | .high => S.sequence % 2 = 1 ∧ Captured origin S c
  | .low => S.sequence % 2 = 1 ∧ Captured origin S c ∧ S.words.high = c.now / wordSize
  | .raw =>
      S.sequence % 2 = 1 ∧ Captured origin S c ∧ S.words.high = c.now / wordSize ∧
        S.words.low = c.now % wordSize
  | .even => S.sequence % 2 = 1 ∧ Captured origin S c ∧ S.words = wordsAt origin c.now
  | .store => S.Whole origin ∧ S.Within c.now
  | .force => S.Whole origin ∧ S.Within c.now ∧ S.initialised = true
  | .reload =>
      S.Whole origin ∧ S.Within c.now ∧ S.initialised = true ∧
        ∀ core, S.compares core ≤ c.now → S.forced core = true
  | .control =>
      S.Whole origin ∧ S.Within c.now ∧ S.initialised = true ∧
        (∀ core, S.compares core ≤ c.now → S.forced core = true) ∧
        S.reload + 1 = armCounts S.compares c.now
  | .unlock => S.Whole origin ∧ S.Rearmed

/-- Nothing is left of the last `compare_write` but what it set. -/
def CallOk (origin : BitVec 32) (S : Timer n R) : Option (Call n) → Prop
  | some c => c.value ≤ never ∧ StageOk origin S c
  | none => S.Whole origin ∧ (S.initialised = true → S.Rearmed)

structure Inv (origin : BitVec 32) (S : Timer n R) : Prop where
  epoch : S.epoch ≤ S.count
  young : S.count < S.epoch + 2 ^ 31
  count : S.count < 2 ^ 64
  bounded : ∀ core, S.compares core ≤ never
  call : CallOk origin S S.call
  read : ∀ r, ReadOk origin S r (S.read r)
  readings : ∀ reading ∈ S.readings, reading.start ≤ reading.value ∧ reading.value ≤ reading.stop ∧
    reading.stop ≤ S.count
  older : ∀ reading ∈ S.readings, S.read reading.reader ≠ .out → reading.stop ≤ S.start reading.reader
  order : S.readings.Pairwise fun later earlier =>
    later.reader = earlier.reader → earlier.value ≤ later.value

theorem inv_boot (origin : BitVec 32) : Inv origin (boot origin : Timer n R) where
  epoch := le_refl 0
  young := show 0 < 0 + 2 ^ 31 by decide
  count := show 0 < 2 ^ 64 by decide
  bounded := fun _ => Nat.zero_le _
  call := ⟨⟨rfl, rfl⟩, fun h => absurd h Bool.false_ne_true⟩
  read := fun _ => trivial
  readings := fun _ h => absurd h List.not_mem_nil
  older := fun _ h => absurd h List.not_mem_nil
  order := List.Pairwise.nil

/-! ### Steps -/

theorem ReadOk.going {place : ReadPlace} (h : ReadOk origin S r place) (hplace : place ≠ .out) :
    S.Going r := by
  cases place with
  | out => exact absurd rfl hplace
  | sequence => exact h
  | high | low | raw | check | counter => exact h.1

/-- Readers and the count move, the writer does not. -/
theorem CallOk.beside {call : Option (Call n)} (h : CallOk origin S call) {count : ℕ}
    (hcount : S.count ≤ count) (read : R → ReadPlace) (start : R → ℕ) (readings : List (Reading R)) :
    CallOk origin { S with count := count, read := read, start := start, readings := readings } call := by
  have hle : ∀ {now : ℕ}, S.Within now →
      Within { S with count := count, read := read, start := start, readings := readings } now :=
    fun hm => ⟨hm.1, le_trans hm.2 hcount⟩
  have hcaptured : ∀ {c : Call n}, Captured origin S c →
      Captured origin { S with count := count, read := read, start := start, readings := readings } c :=
    fun hc => ⟨hc.raw, hc.epoch, hle hc.now⟩
  have hrearmed : S.Rearmed →
      Rearmed { S with count := count, read := read, start := start, readings := readings } :=
    fun hr => ⟨hr.forced, hr.underflow, hr.began, hr.asOf, le_trans hr.loaded hcount⟩
  cases call with
  | none => exact ⟨h.1, fun hinit => hrearmed (h.2 hinit)⟩
  | some c =>
      obtain ⟨hvalue, hstage⟩ := h
      refine ⟨hvalue, ?_⟩
      unfold StageOk at hstage ⊢
      cases hc : c.stage with
      | capture =>
          rw [hc] at hstage
          exact ⟨hstage.1, le_trans hstage.2.1 hcount, le_refl count⟩
      | odd | high =>
          rw [hc] at hstage
          exact ⟨hstage.1, hcaptured hstage.2⟩
      | low | raw | even =>
          rw [hc] at hstage
          exact ⟨hstage.1, hcaptured hstage.2.1, hstage.2.2⟩
      | store =>
          rw [hc] at hstage
          exact ⟨hstage.1, hle hstage.2⟩
      | force | reload | control =>
          rw [hc] at hstage
          exact ⟨hstage.1, hle hstage.2.1, hstage.2.2⟩
      | unlock =>
          rw [hc] at hstage
          exact ⟨hstage.1, hrearmed hstage.2⟩

theorem Inv.advance (hi : Inv origin S) {counts : ℕ} (hepoch : S.count + counts < S.epoch + 2 ^ 31)
    (hreads : ∀ r, S.read r = .out ∨ S.count + counts ≤ S.start r + 2 ^ 31)
    (hlt : S.count + counts < 2 ^ 64) : Inv origin { S with count := S.count + counts } where
  epoch := by
    have := hi.epoch
    show S.epoch ≤ S.count + counts
    omega
  young := hepoch
  count := hlt
  bounded := hi.bounded
  call := hi.call.beside (Nat.le_add_right _ _) S.read S.start S.readings
  read := by
    intro r
    refine ReadOk.kept (hi.read r) (Or.inl ⟨by rfl, by rfl, by rfl⟩) (by rfl) (Nat.le_add_right _ _) ?_
    intro hplace
    exact (hreads r).resolve_left hplace
  readings := by
    intro reading hmem
    obtain ⟨hstart, hstop, hle⟩ := hi.readings reading hmem
    refine ⟨hstart, hstop, ?_⟩
    show reading.stop ≤ S.count + counts
    omega
  older := hi.older
  order := hi.order

/-- An access of `compare_write` leaves the readers to themselves. -/
theorem Inv.written (hi : Inv origin S) (hkept : SequenceKept S S') (hcount : S'.count = S.count)
    (hread : S'.read = S.read) (hstart : S'.start = S.start) (hreadings : S'.readings = S.readings)
    (hepoch : S'.epoch ≤ S'.count) (hyoung : S'.count < S'.epoch + 2 ^ 31)
    (hbounded : ∀ core, S'.compares core ≤ never) (hcall : CallOk origin S' S'.call) : Inv origin S' where
  epoch := hepoch
  young := hyoung
  count := hcount ▸ hi.count
  bounded := hbounded
  call := hcall
  read := by
    intro r
    rw [hread]
    apply (hi.read r).kept hkept (congrFun hstart r) hcount.ge
    intro hplace
    rw [hcount, hstart]
    exact ((hi.read r).going hplace).2
  readings := by
    rw [hreadings, hcount]
    exact hi.readings
  older := by
    rw [hreadings, hread, hstart]
    exact hi.older
  order := by
    rw [hreadings]
    exact hi.order

/-- **An access of `compare_write`.** -/
theorem Inv.access (hi : Inv origin S) {c : Call n} (hc : S.call = some c) : Inv origin (S.access origin c) := by
  have hcall := hi.call
  rw [hc] at hcall
  obtain ⟨hvalue, hstage⟩ := hcall
  have hsame : ∀ S₁ : Timer n R, S₁.sequence = S.sequence → S₁.words = S.words → S₁.epoch = S.epoch →
      SequenceKept S S₁ := fun _ h₁ h₂ h₃ => Or.inl ⟨h₁, h₂, h₃⟩
  unfold StageOk at hstage
  unfold Timer.access
  cases hat : c.stage with
  | capture =>
      rw [hat] at hstage
      have hnow : S.words.extend (rawAt origin S.count) = S.count := by
        rw [hstage.1.2]
        have := hi.young
        exact extend_wordsAt hi.epoch (by omega) hi.count
      refine hi.written (hsame _ rfl rfl rfl) rfl rfl rfl rfl hi.epoch hi.young hi.bounded
        ⟨hvalue, hstage.1, ?_⟩
      dsimp only
      rw [hnow]
      exact ⟨rfl, hi.epoch, hstage.2⟩
  | odd =>
      rw [hat] at hstage
      refine hi.written (Or.inr (Or.inl (Nat.lt_succ_self _))) rfl rfl rfl rfl hi.epoch hi.young hi.bounded
        ⟨hvalue, ?_, hstage.2.raw, hstage.2.epoch, hstage.2.now⟩
      have := hstage.1.1
      show (S.sequence + 1) % 2 = 1
      omega
  | high =>
      rw [hat] at hstage
      exact hi.written (Or.inr (Or.inr ⟨rfl, hstage.1⟩)) rfl rfl rfl rfl hi.epoch hi.young hi.bounded
        ⟨hvalue, hstage.1, ⟨hstage.2.raw, hstage.2.epoch, hstage.2.now⟩, rfl⟩
  | low =>
      rw [hat] at hstage
      obtain ⟨hodd, hcap, hhigh⟩ := hstage
      exact hi.written (Or.inr (Or.inr ⟨rfl, hodd⟩)) rfl rfl rfl rfl hi.epoch hi.young hi.bounded
        ⟨hvalue, hodd, ⟨hcap.raw, hcap.epoch, hcap.now⟩, hhigh, rfl⟩
  | raw =>
      rw [hat] at hstage
      obtain ⟨hodd, hcap, hhigh, hlow⟩ := hstage
      refine hi.written (Or.inr (Or.inr ⟨rfl, hodd⟩)) rfl rfl rfl rfl hi.epoch hi.young hi.bounded
        ⟨hvalue, hodd, ⟨hcap.raw, hcap.epoch, hcap.now⟩, ?_⟩
      show Words.mk S.words.high S.words.low c.raw = wordsAt origin c.now
      rw [hhigh, hlow, hcap.raw]
      rfl
  | even =>
      rw [hat] at hstage
      obtain ⟨hodd, hcap, hwords⟩ := hstage
      refine hi.written (Or.inr (Or.inl (Nat.lt_succ_self _))) rfl rfl rfl rfl hcap.now.2 ?_ hi.bounded
        ⟨hvalue, ⟨?_, hwords⟩, hcap.now⟩
      · have := hcap.epoch
        have := hi.young
        show S.count < c.now + 2 ^ 31
        omega
      · show (S.sequence + 1) % 2 = 0
        omega
  | store =>
      rw [hat] at hstage
      refine hi.written (hsame _ rfl rfl rfl) rfl rfl rfl rfl hi.epoch hi.young ?_
        ⟨hvalue, hstage.1, hstage.2, rfl⟩
      intro core
      show Function.update (if S.initialised then S.compares else fun _ => never) c.core c.value core ≤ never
      by_cases hcore : core = c.core
      · rw [hcore, Function.update_self]
        exact hvalue
      · rw [Function.update_of_ne hcore]
        split
        · exact hi.bounded core
        · exact le_refl never
  | force =>
      rw [hat] at hstage
      exact hi.written (hsame _ rfl rfl rfl) rfl rfl rfl rfl hi.epoch hi.young hi.bounded
        ⟨hvalue, hstage.1, hstage.2.1, hstage.2.2, fun core hle => decide_eq_true hle⟩
  | reload =>
      rw [hat] at hstage
      obtain ⟨hwhole, hnow, hinit, hforced⟩ := hstage
      exact hi.written (hsame _ rfl rfl rfl) rfl rfl rfl rfl hi.epoch hi.young hi.bounded
        ⟨hvalue, hwhole, hnow, hinit, hforced, Nat.sub_add_cancel (armCounts_spec S.compares c.now).1⟩
  | control =>
      rw [hat] at hstage
      obtain ⟨hwhole, hnow, hinit, hforced, hreload⟩ := hstage
      refine hi.written (hsame _ rfl rfl rfl) rfl rfl rfl rfl hi.epoch hi.young hi.bounded
        ⟨hvalue, hwhole, hforced, ?_, hnow.1, hnow.2, le_refl _⟩
      show S.count + (S.reload + 1) = S.count + armCounts S.compares c.now
      rw [hreload]
  | unlock =>
      rw [hat] at hstage
      obtain ⟨hwhole, hrearmed⟩ := hstage
      exact hi.written (hsame _ rfl rfl rfl) rfl rfl rfl rfl hi.epoch hi.young hi.bounded
        ⟨hwhole, fun _ => ⟨hrearmed.forced, hrearmed.underflow, hrearmed.began, hrearmed.asOf, hrearmed.loaded⟩⟩

/-- While the sequence count is even the epoch is whole. -/
theorem Inv.whole (hi : Inv origin S) (heven : S.sequence % 2 = 0) : S.words = wordsAt origin S.epoch := by
  have hcall := hi.call
  cases hc : S.call with
  | none =>
      rw [hc] at hcall
      exact hcall.1.2
  | some c =>
      rw [hc] at hcall
      have hstage := hcall.2
      unfold StageOk at hstage
      cases hat : c.stage with
      | capture | odd | store | force | reload | control | unlock =>
          rw [hat] at hstage
          exact hstage.1.2
      | high | low | raw | even =>
          rw [hat] at hstage
          have := hstage.1
          omega

variable [DecidableEq R]

/-- **A reader moves**, with the start of its call if that is new. -/
theorem Inv.reader (hi : Inv origin S) {place : ReadPlace} {start : R → ℕ} (hstart : ∀ q, q ≠ r → start q = S.start q)
    (hok : ReadOk origin { S with start := start } r place)
    (holder : ∀ reading ∈ S.readings, reading.reader = r → reading.stop ≤ start r ∨ place = .out) :
    Inv origin { S.setRead r place with start := start } where
  epoch := hi.epoch
  young := hi.young
  count := hi.count
  bounded := hi.bounded
  call := hi.call.beside (Nat.le_refl _) _ _ S.readings
  read := by
    intro q
    show ReadOk origin { S with start := start } q (Function.update S.read r place q)
    by_cases hq : q = r
    · subst hq
      rw [Function.update_self]
      exact hok
    · rw [Function.update_of_ne hq]
      refine (hi.read q).kept (Or.inl ⟨by rfl, by rfl, by rfl⟩) (hstart q hq) (Nat.le_refl S.count) fun hplace => ?_
      show S.count ≤ start q + 2 ^ 31
      rw [hstart q hq]
      exact ((hi.read q).going hplace).2
  readings := hi.readings
  older := by
    intro reading hmem hplace
    change Function.update S.read r place reading.reader ≠ .out at hplace
    show reading.stop ≤ start reading.reader
    by_cases hq : reading.reader = r
    · rw [hq, Function.update_self] at hplace
      rw [hq]
      exact (holder reading hmem hq).resolve_right hplace
    · rw [Function.update_of_ne hq] at hplace
      rw [hstart _ hq]
      exact hi.older reading hmem hplace
  order := hi.order

/-- A reader goes on with its call. -/
theorem Inv.setRead (hi : Inv origin S) {place : ReadPlace} (hin : S.read r ≠ .out)
    (hok : ReadOk origin S r place) : Inv origin (S.setRead r place) :=
  hi.reader (fun _ _ => rfl) hok fun reading hmem hq => Or.inl (hq ▸ hi.older reading hmem (hq.symm ▸ hin))

theorem Inv.begin (hi : Inv origin S) :
    Inv origin { S.setRead r .sequence with start := Function.update S.start r S.count } := by
  refine hi.reader (fun q hq => Function.update_of_ne hq _ _) ?_ fun reading hmem _ => Or.inl ?_
  · show Function.update S.start r S.count r ≤ S.count ∧ S.count ≤ Function.update S.start r S.count r + 2 ^ 31
    rw [Function.update_self]
    omega
  · rw [Function.update_self]
    exact (hi.readings reading hmem).2.2

/-- **A load of `count()`.** -/
theorem Inv.load (hi : Inv origin S) (hround : notRound S.sequence (S.read r))
    (h : S.load origin r = some S') : Inv origin S' := by
  have hread := hi.read r
  have hin : S.read r ≠ .out := by
    intro hout
    simp [Timer.load, hout] at h
  unfold Timer.load at h
  cases hplace : S.read r with
  | out => exact absurd hplace hin
  | sequence =>
      rw [hplace] at h hread
      cases h
      split
      · exact hi
      · rename_i heven
        refine hi.setRead hin ⟨hread, ?_, le_refl _, fun _ => ?_⟩
        · omega
        · have := hi.young
          have := hread.1
          omega
  | high before =>
      rw [hplace] at h hread
      cases h
      exact hi.setRead hin ⟨hread.1, hread.2, fun _ => rfl⟩
  | low before high =>
      rw [hplace] at h hread
      cases h
      exact hi.setRead hin ⟨hread.1, hread.2.1, fun heq => ⟨hread.2.2 heq, rfl⟩⟩
  | raw before high low =>
      rw [hplace] at h hread
      cases h
      refine hi.setRead hin ⟨hread.1, hread.2.1, fun heq => ?_⟩
      obtain ⟨hhigh, hlow⟩ := hread.2.2 heq
      rw [hhigh, hlow]
  | check before words =>
      rw [hplace] at h hread hround
      have hlt : S.sequence < before + wordSize := hround
      cases h
      obtain ⟨hgoing, ⟨heven, hle, hyoung⟩, hwords⟩ := hread
      split
      · rename_i hmod
        -- the low words agree and the count has not gone all the way round
        have heq : S.sequence = before := by
          unfold wordSize at hmod hlt
          omega
        refine hi.setRead hin ⟨hgoing, S.epoch, ?_, hi.epoch, hyoung heq⟩
        rw [hwords heq]
        exact hi.whole (by omega)
      · exact hi.setRead hin hgoing
  | counter words =>
      rw [hplace] at h hread
      cases h
      obtain ⟨hgoing, epoch, rfl, hle, hyoung⟩ := hread
      have hvalue : (wordsAt origin epoch).extend (rawAt origin S.count) = S.count := by
        have := hgoing.2
        exact extend_wordsAt hle (by omega) hi.count
      have hout := hi.setRead hin (show ReadOk origin S r .out from trivial)
      rw [hvalue]
      refine ⟨hi.epoch, hi.young, hi.count, hi.bounded, hi.call.beside (Nat.le_refl _) _ S.start _, hout.read,
        ?_, ?_, ?_⟩
      · intro reading hmem
        rcases List.mem_cons.1 hmem with rfl | hmem
        · exact ⟨hgoing.1, le_refl _, le_refl _⟩
        · exact hi.readings reading hmem
      · intro reading hmem hplace'
        rcases List.mem_cons.1 hmem with rfl | hmem
        · exact absurd (Function.update_self ..) hplace'
        · exact hout.older reading hmem hplace'
      · refine List.pairwise_cons.2 ⟨?_, hi.order⟩
        intro earlier hmem _
        obtain ⟨-, hstop, hcount⟩ := hi.readings earlier hmem
        show earlier.value ≤ S.count
        omega

theorem Inv.next {act : Act n R} (hi : Inv origin S) (hok : paced (2 ^ 31 - 1) S act)
    (h : S.next origin act = some S') : Inv origin S' := by
  cases act with
  | advance counts =>
      unfold Timer.next at h
      dsimp only at h
      split at h
      · rename_i hlt
        cases h
        refine hi.advance ?_ hok.2 hlt
        have := hok.1
        omega
      · cases h
  | begin r =>
      unfold Timer.next at h
      dsimp only at h
      split at h <;> cases h
      exact hi.begin
  | load r => exact hi.load hok h
  | write core value =>
      unfold Timer.next at h
      dsimp only at h
      split at h
      · rename_i hguard
        cases h
        have hcall := hi.call
        rw [hguard.1] at hcall
        have hvalue : value ≤ never := by
          have := hguard.2
          unfold never
          omega
        exact hi.written (Or.inl ⟨rfl, rfl, rfl⟩) rfl rfl rfl rfl hi.epoch hi.young hi.bounded
          ⟨hvalue, hcall.1, le_refl _, le_refl _⟩
      · cases h
  | access =>
      unfold Timer.next at h
      dsimp only at h
      rw [Option.map_eq_some_iff] at h
      obtain ⟨c, hc, rfl⟩ := h
      exact hi.access hc

/-- **The 64-bit time base.**  For every number of cores and readers and every interleaving of reads and
`compare_write` calls, with the epoch always less than 2^31 counts old, no read longer than 2^31 counts, and
fewer than 2^32 changes of the sequence count under one look at it:

* `count()` returns a value that the true count had during the call, the values that one reader gets never
  decrease, and neither do those of two calls of which one has returned before the other begins;
* after a `compare_write`, each core whose compare is not `never` has had its level forced, if the value was
  reached at the count `asOf` seen in the call, or else the one-shot underflows by that compare and within the
  longest arm, counted from where it was loaded and not from `asOf`. -/
theorem time_base {acts : List (Act n R)} (hok : Meets (next origin) (paced (2 ^ 31 - 1)) (boot origin) acts)
    (h : run (next origin) (boot origin) acts = some S) :
    (∀ a ∈ S.readings, a.start ≤ a.value ∧ a.value ≤ a.stop) ∧
    (S.readings.Pairwise fun later earlier => later.reader = earlier.reader → earlier.value ≤ later.value) ∧
    (∀ a ∈ S.readings, ∀ b ∈ S.readings, a.stop ≤ b.start → a.value ≤ b.value) ∧
    (S.call = none → S.initialised = true →
      S.began ≤ S.asOf ∧ S.asOf ≤ S.loadedAt ∧ S.loadedAt ≤ S.count ∧
      ∀ core, S.compares core ≠ never →
        (S.compares core ≤ S.asOf ∧ S.forced core = true) ∨
        (S.asOf < S.compares core ∧ S.underflow ≤ S.compares core + (S.loadedAt - S.asOf) ∧
          S.underflow ≤ S.loadedAt + longestArm)) := by
  have hS : Inv origin S :=
    run_invariant_of_meets (fun _ _ _ hs hstep hn => hs.next hstep hn) (inv_boot origin) hok h
  refine ⟨fun a ha => ⟨(hS.readings a ha).1, (hS.readings a ha).2.1⟩, hS.order, ?_, ?_⟩
  · intro a ha b hb hle
    have hstop := (hS.readings a ha).2.1
    have hstart := (hS.readings b hb).1
    omega
  · intro hcall hinit
    have hrest := hS.call
    rw [hcall] at hrest
    have hrearmed := hrest.2 hinit
    refine ⟨hrearmed.began, hrearmed.asOf, hrearmed.loaded, ?_⟩
    intro core hnever
    rcases Nat.lt_or_ge S.asOf (S.compares core) with hlt | hge
    · right
      have hbounded := hS.bounded core
      obtain ⟨-, hlong, harm⟩ := armCounts_spec S.compares S.asOf
      have hby := harm core hlt (by omega)
      have hasOf := hrearmed.asOf
      have hunder := hrearmed.underflow
      refine ⟨hlt, ?_, ?_⟩ <;> omega
    · exact Or.inl ⟨hge, hrearmed.forced core hge⟩

/-- A read that a renewal of the epoch comes in between, and a compare of 10 that is written meanwhile. -/
def renewedRun : List (Act 2 (Fin 1)) :=
  [.advance 3, .begin 0, .load 0, .write 0 10, .access, .access, .load 0, .advance 2] ++
    List.replicate 4 .access ++ List.replicate 3 (.load 0) ++ List.replicate 5 .access ++
    List.replicate 6 (.load 0)

theorem time_base_renewed :
    ∃ S, run (next (BitVec.allOnes 32)) (boot (BitVec.allOnes 32)) renewedRun = some S ∧
      S.readings.length = 1 ∧ (∀ a ∈ S.readings, a.start ≤ a.value ∧ a.value ≤ a.stop) ∧
      S.asOf < S.compares 0 ∧ S.underflow ≤ S.compares 0 + (S.loadedAt - S.asOf) := by
  obtain ⟨S, hS, hend⟩ := Option.map_eq_some_iff.1
    (show (run (next (BitVec.allOnes 32)) (boot (BitVec.allOnes 32)) renewedRun).map
        (fun S => (S.readings.length, S.call, S.initialised, S.compares 0, S.asOf)) =
      some (1, none, true, 10, 3) by decide +kernel)
  simp only [Prod.mk.injEq] at hend
  obtain ⟨hlength, hcall, hinit, hcompare, hasOf⟩ := hend
  have hok : Meets (next (BitVec.allOnes 32)) (paced (2 ^ 31 - 1)) (boot (BitVec.allOnes 32)) renewedRun := by
    decide +kernel
  obtain ⟨hreadings, -, -, hcompares⟩ := time_base hok hS
  refine ⟨S, hS, hlength, hreadings, ?_⟩
  have hnever : S.compares 0 ≠ never := by
    rw [hcompare]
    decide
  rcases (hcompares hcall hinit).2.2.2 0 hnever with ⟨hle, -⟩ | ⟨hlt, hby, -⟩
  · omega
  · exact ⟨hlt, hby⟩

/-- A read looks at an epoch of 2^31 counts, which is then renewed, and takes 2^31 counts to look at the
counter. -/
def slowRead : List (Act 2 (Fin 1)) :=
  [.advance (2 ^ 31), .begin 0] ++ List.replicate 5 (.load 0) ++ [.write 0 never] ++
    List.replicate 11 .access ++ [.advance (2 ^ 31), .load 0]

/-- Three counts pass between `renew_epoch`'s look at the counter and the load of timer 2. -/
def slowArm : List (Act 2 (Fin 1)) :=
  [.write 0 10] ++ List.replicate 9 .access ++ [.advance 3, .access, .access]

/-- **At the limits.**  With 2^31 counts between renewals and 2^31 counts in a read, the read returns 0 where
the count went from 2^31 to 2^32; and the one-shot for a compare of 10 underflows at 13. -/
theorem time_base_at_limits :
    (∃ S, run (next (BitVec.allOnes 32)) (boot (BitVec.allOnes 32)) slowRead = some S ∧
      Meets (next (BitVec.allOnes 32)) (paced (2 ^ 31)) (boot (BitVec.allOnes 32)) slowRead ∧
      S.readings = [⟨0, 0, 2 ^ 31, 2 ^ 32⟩]) ∧
    ∃ S, run (next (BitVec.allOnes 32)) (boot (BitVec.allOnes 32)) slowArm = some S ∧
      Meets (next (BitVec.allOnes 32)) (paced (2 ^ 31)) (boot (BitVec.allOnes 32)) slowArm ∧
      S.call = none ∧ S.compares 0 = 10 ∧ S.asOf = 0 ∧ S.forced 0 = false ∧ S.underflow = 13 := by
  constructor
  · obtain ⟨S, hS, hend⟩ := Option.map_eq_some_iff.1
      (show (run (next (BitVec.allOnes 32)) (boot (BitVec.allOnes 32)) slowRead).map (fun S => S.readings) =
        some [⟨0, 0, 2 ^ 31, 2 ^ 32⟩] by decide +kernel)
    exact ⟨S, hS, by decide +kernel, hend⟩
  · obtain ⟨S, hS, hend⟩ := Option.map_eq_some_iff.1
      (show (run (next (BitVec.allOnes 32)) (boot (BitVec.allOnes 32)) slowArm).map
          (fun S => (S.call, S.compares 0, S.asOf, S.forced 0, S.underflow)) =
        some (none, 10, 0, false, 13) by decide +kernel)
    simp only [Prod.mk.injEq] at hend
    exact ⟨S, hS, by decide +kernel, hend⟩

end Timer

end Cyros.Port.Leon3Timer
