import Cyros.Port.Systick

/-!
# What a restart of the SysTick interval folds

`restart_from_now_locked` reads VAL twice: `now_tickless_locked` gives it a count and the VAL that goes with it,
and the second read, next to the writes, tells how many clocks have passed since.  Their sum is the new `base`.

* `Folding` is a `now()`, a restart and a `now()` again, access by access.  An access takes a clock, and more may
  pass between any two.
* `Tracks` says what `base` is worth: the counter stands where the true time says, up to the clock in which it
  reloads after a write, and a whole interval further while one is `unfolded`.
* `restart_folds_time`: the new base is within a clock of the true time of the second read and not above it, and
  the second `now()` returns no less than the first.  This asks that the two reads of VAL are less than an
  interval apart, and that a restart that finds an interval to count does not leave the counter alone.
* `restart_can_lose_interval`: without either of them a whole interval can be lost.
-/

namespace Cyros.Port

/-- A `now()`, a restart and a `now()` again, with what the first returned and the clock of the restart's second
read of VAL, `none` until it is made. -/
inductive Folding
  | before (place : ReadPlace)
  | restarting (earlier second : Option ℕ) (place : Restart)
  | after (earlier second : Option ℕ) (place : ReadPlace)
  | done (earlier second : Option ℕ) (later : ℕ)
  deriving DecidableEq, Repr

inductive Access
  | tick
  | access
  deriving DecidableEq, Repr

namespace SystickTime

open Cyros.Lib

def secondRead (S : SystickTime) (second : Option ℕ) : Restart → Option ℕ
  | .second .. => some S.clock
  | _ => second

/-- **One step**: a clock passes, or the next access is made and takes a clock. -/
def foldNext (onlyIfChanged : Bool) : SystickTime × Folding → Access → Option (SystickTime × Folding)
  | (S, place), .tick => some (S.clockTick, place)
  | (S, .before place), .access =>
      match S.readStep place with
      | (S', .inl place') => some (S'.clockTick, .before place')
      | (S', .inr (value, _, _)) => some (S'.clockTick, .restarting (some value) none (.read .val))
  | (S, .restarting earlier second place), .access =>
      match S.restartStep onlyIfChanged place with
      | (S', some place') => some (S'.clockTick, .restarting earlier (S.secondRead second place) place')
      | (S', none) => some (S'.clockTick, .after earlier second .val)
  | (S, .after earlier second place), .access =>
      match S.readStep place with
      | (S', .inl place') => some (S'.clockTick, .after earlier second place')
      | (S', .inr (value, _, _)) => some (S'.clockTick, .done earlier second value)
  | (_, .done ..), .access => none

/-- COUNTFLAG is set exactly if the counter has reached zero and `base` lacks that interval. -/
def Seen (S : SystickTime) : Prop := S.regs.countflag = S.unfolded

instance (S : SystickTime) : Decidable S.Seen := inferInstanceAs (Decidable (_ = _))

/-- What an access of the restart asks for: that the flag is right when it begins, that it does not leave alone
an interval after one that it found uncounted, and that its two reads of VAL are less than an interval apart. -/
def readable (onlyIfChanged : Bool) (S : SystickTime) : Folding → Prop
  | .restarting _ _ (.read .val) => S.Seen
  | .restarting _ _ (.read .again) => (S.restartStep onlyIfChanged (.read .again)).2 ≠ none
  | .restarting _ _ (.second _ _ _ time) => S.clock ≤ time + S.currentReload
  | _ => True

instance (onlyIfChanged : Bool) (S : SystickTime) : (place : Folding) → Decidable (readable onlyIfChanged S place)
  | .restarting _ _ (.read .val) => inferInstanceAs (Decidable S.Seen)
  | .restarting _ _ (.read .again) => inferInstanceAs (Decidable (_ ≠ none))
  | .restarting _ _ (.second _ _ _ time) => inferInstanceAs (Decidable (S.clock ≤ time + S.currentReload))
  | .before _ | .after .. | .done .. | .restarting _ _ (.read (.ctrl ..)) | .restarting _ _ (.writeLoad ..)
  | .restarting _ _ (.writeVal ..) | .restarting _ _ (.clear ..) => isTrue trivial

/-- The count still goes by the interval that the restart found. -/
def counting : Folding → Bool
  | .before _ | .restarting _ none _ | .after _ none _ => true
  | _ => false

/-- **The condition.**  In an interval after one that `base` lacks the counter does not reach zero again. -/
def paced (onlyIfChanged : Bool) (x : SystickTime × Folding) (act : Access) : Prop :=
  (counting x.2 = true → x.1.regs.val = 1 → x.1.unfolded = false) ∧
    (act = .access → readable onlyIfChanged x.1 x.2)

instance (onlyIfChanged : Bool) (x : SystickTime × Folding) (act : Access) :
    Decidable (paced onlyIfChanged x act) :=
  inferInstanceAs (Decidable ((_ → _ → _) ∧ (_ → _)))

/-! ### The count -/

/-- What VAL stands for: a zero is one clock before the reload. -/
def shown (reload val : ℕ) : ℕ := if val = 0 then reload + 1 else val

/-- **What `base` is worth**: the present interval began `behind` clocks after it. -/
structure Tracks (S : SystickTime) (behind : ℕ) : Prop where
  long : 63 ≤ S.currentReload
  load : S.regs.load = S.currentReload
  val : S.regs.val ≤ S.currentReload
  count : S.clock + shown S.currentReload S.regs.val =
    S.base + behind + S.currentReload + (if S.unfolded then S.currentReload + 1 else 0)
  reached : S.base ≤ S.clock
  flag : S.regs.countflag = true → S.unfolded = true

variable {S S' : SystickTime} {onlyIfChanged : Bool} {behind count first time : ℕ} {earlier second : Option ℕ}

theorem Tracks.tick (h : S.Tracks behind) (hwrap : S.regs.val = 1 → S.unfolded = false) :
    S.clockTick.Tracks behind := by
  obtain ⟨hlong, hload, hval, hcount, hreached, hflag⟩ := h
  refine ⟨hlong, hload, ?_, ?_, hreached.trans (Nat.le_succ _), ?_⟩
  · show (if S.regs.val = 0 then S.regs.load else S.regs.val - 1) ≤ S.currentReload
    split <;> omega
  · show S.clock + 1 + shown S.currentReload (if S.regs.val = 0 then S.regs.load else S.regs.val - 1) =
      S.base + behind + S.currentReload +
        (if (S.unfolded || S.regs.val == 1) = true then S.currentReload + 1 else 0)
    by_cases hone : S.regs.val = 1
    · -- the counter reaches zero: the interval is over, and a clock is left until the reload
      rw [hwrap hone, hone] at hcount ⊢
      simp [shown] at hcount ⊢
      omega
    · rw [show (S.regs.val == 1) = false from beq_false_of_ne hone, Bool.or_false]
      by_cases hzero : S.regs.val = 0
      · rw [hzero] at hcount ⊢
        simp only [shown, if_true, hload] at hcount ⊢
        rw [if_neg (by omega)]
        omega
      · simp only [shown, if_neg hzero, if_neg (show S.regs.val - 1 ≠ 0 by omega)] at hcount ⊢
        omega
  · show (S.regs.countflag || S.regs.val == 1) = true → (S.unfolded || S.regs.val == 1) = true
    rw [Bool.or_eq_true, Bool.or_eq_true]
    exact Or.imp_left hflag

theorem Tracks.clearFlag (h : S.Tracks behind) : S.clearFlag.Tracks behind :=
  ⟨h.long, h.load, h.val, h.count, h.reached, by rintro ⟨⟩⟩

/-- A clock does not change whether the flag is right. -/
theorem Tracks.seen_tick (h : S.Tracks behind) (hwrap : S.regs.val = 1 → S.unfolded = false) :
    S.clockTick.Seen ↔ S.Seen := by
  show (S.regs.countflag || S.regs.val == 1) = (S.unfolded || S.regs.val == 1) ↔ S.regs.countflag = S.unfolded
  by_cases hone : S.regs.val = 1
  · have hnot : S.regs.countflag = false := by
      rw [← Bool.not_eq_true]
      intro hf
      cases (hwrap hone).symm.trans (h.flag hf)
    simp [hone, hwrap hone, hnot]
  · rw [show (S.regs.val == 1) = false from beq_false_of_ne hone, Bool.or_false, Bool.or_false]

/-- After a clock in which it did not reach zero the counter shows no zero. -/
theorem Tracks.val_tick_ne (h : S.Tracks behind) (hone : S.regs.val ≠ 1) : S.clockTick.regs.val ≠ 0 := by
  have hlong := h.long
  have hload := h.load
  show (if S.regs.val = 0 then S.regs.load else S.regs.val - 1) ≠ 0
  split <;> omega

/-! ### A read -/

/-- What was returned earlier is below the clock. -/
def Below (behind : ℕ) (earlier : Option ℕ) (clock : ℕ) : Prop := ∀ n ∈ earlier, n + behind ≤ clock

theorem Below.mono {a b : ℕ} (h : Below behind earlier a) (hle : a ≤ b) : Below behind earlier b :=
  fun n hn => (h n hn).trans hle

/-- What `now_tickless_locked` may rely on. -/
def ReadOk (S : SystickTime) (behind : ℕ) (earlier : Option ℕ) : ReadPlace → Prop
  | .val => S.Seen ∧ Below behind earlier S.clock
  | .ctrl val time => S.Seen ∧ Below behind earlier time ∧ time < S.clock ∧
      (S.unfolded = false → S.base ≤ time ∧ val ≤ S.currentReload ∧
        time + shown S.currentReload val = S.base + behind + S.currentReload)
  | .again => S.unfolded = true ∧ S.regs.val ≠ 0 ∧ Below behind earlier S.clock

/-- **The count of a read** is the true time less `behind`, or a clock more in the window after a write, and
belongs to the VAL that goes with it; `folded` says whether the interval that `base` lacks is in it. -/
structure Counted (S : SystickTime) (behind : ℕ) (earlier : Option ℕ) (count first time : ℕ) : Prop where
  below : Below behind earlier time
  time_lt : time < S.clock
  count_le : count ≤ time
  le_count : time ≤ count + behind
  ahead : count + behind ≤ time + 1
  val : ∃ folded : Bool, (folded = true → S.unfolded = true) ∧
    time + first = S.base + behind + S.currentReload + (if folded then S.currentReload + 1 else 0)

theorem Counted.earlier_le (h : S.Counted behind earlier count first time) : ∀ n ∈ earlier, n ≤ count := by
  intro n hn
  have hbelow := h.below n hn
  have hle := h.le_count
  omega

theorem unfolded_tick (hu : S.unfolded = true) : S.clockTick.unfolded = true := by
  show (S.unfolded || S.regs.val == 1) = true
  rw [hu, Bool.true_or]

theorem Counted.tick (h : S.Counted behind earlier count first time) :
    S.clockTick.Counted behind earlier count first time := by
  obtain ⟨folded, hfolded, hval⟩ := h.val
  exact ⟨h.below, h.time_lt.trans (Nat.lt_succ_self _), h.count_le, h.le_count, h.ahead, folded,
    fun hf => unfolded_tick (hfolded hf), hval⟩

theorem ReadOk.tick {place : ReadPlace} (htracks : S.Tracks behind) (h : S.ReadOk behind earlier place)
    (hwrap : S.regs.val = 1 → S.unfolded = false) : S.clockTick.ReadOk behind earlier place := by
  have hseen := htracks.seen_tick hwrap
  cases place with
  | val => exact ⟨hseen.2 h.1, h.2.mono (Nat.le_succ _)⟩
  | ctrl val time =>
      obtain ⟨hs, hbelow, htime, hval⟩ := h
      refine ⟨hseen.2 hs, hbelow, htime.trans (Nat.lt_succ_self _), fun hnot => ?_⟩
      exact hval (Bool.or_eq_false_iff.1 hnot).1
  | again =>
      obtain ⟨hu, -, hbelow⟩ := h
      refine ⟨unfolded_tick hu, htracks.val_tick_ne fun hone => ?_, hbelow.mono (Nat.le_succ _)⟩
      cases hu.symm.trans (hwrap hone)

/-- A read changes nothing but the flag. -/
theorem readStep_fst (S : SystickTime) (place : ReadPlace) :
    (S.readStep place).1 = S ∨ (S.readStep place).1 = S.clearFlag := by
  cases place with
  | val | again => exact Or.inl rfl
  | ctrl val time =>
      right
      simp only [readStep]
      split
      · rfl
      · split <;> rfl

theorem Tracks.readStep (h : S.Tracks behind) (hwrap : S.regs.val = 1 → S.unfolded = false) (place : ReadPlace) :
    (S.readStep place).1.clockTick.Tracks behind := by
  rcases readStep_fst S place with hsame | hclear
  · rw [hsame]
    exact h.tick hwrap
  · rw [hclear]
    exact h.clearFlag.tick hwrap

/-- The flag is right after an access if it was right before, unless the access has found it set. -/
theorem Tracks.seen_readStep (h : S.Tracks behind) (hwrap : S.regs.val = 1 → S.unfolded = false)
    (place : ReadPlace) :
    (S.readStep place).1.clockTick.Seen ↔ S.Seen ∧ (S.readStep place).2 ≠ .inl .again := by
  cases place with
  | val | again =>
      rw [SystickTime.readStep, h.seen_tick hwrap]
      simp
  | ctrl val time =>
      have hclear : S.clearFlag.clockTick.Seen ↔ S.unfolded = false :=
        (h.clearFlag.seen_tick hwrap).trans eq_comm
      simp only [SystickTime.readStep]
      split
      · next hf => simp [hclear, h.flag hf]
      · next hf =>
        have hseen : S.Seen ↔ S.unfolded = false := by
          rw [Seen, Bool.eq_false_iff.2 hf]
          exact eq_comm
        split <;> simp [hclear, hseen]

/-- What an access of `now_tickless_locked` gives. -/
def ReadGives (behind : ℕ) (earlier : Option ℕ) : SystickTime × (ReadPlace ⊕ (ℕ × ℕ × ℕ)) → Prop
  | (S', .inl place) => S'.clockTick.ReadOk behind earlier place
  | (S', .inr (count, first, time)) => S'.clockTick.Counted behind earlier count first time

theorem readStep_gives {place : ReadPlace} (htracks : S.Tracks behind) (h : S.ReadOk behind earlier place)
    (hwrap : S.regs.val = 1 → S.unfolded = false) : ReadGives behind earlier (S.readStep place) := by
  cases place with
  | val =>
      refine ⟨(htracks.seen_tick hwrap).2 h.1, h.2, Nat.lt_succ_self _, fun hnot => ?_⟩
      have hcount := htracks.count
      rw [(Bool.or_eq_false_iff.1 hnot).1] at hcount
      exact ⟨htracks.reached, htracks.val, hcount⟩
  | ctrl val time =>
      obtain ⟨hseen, hbelow, htime, hval⟩ := h
      rw [readStep]
      split
      · next hf =>
        -- the counter has reached zero, and reloads at the latest with this access
        have hu := htracks.flag hf
        refine ⟨unfolded_tick hu, htracks.clearFlag.val_tick_ne fun hone => ?_,
          hbelow.mono (htime.le.trans (Nat.le_succ _))⟩
        cases hu.symm.trans (hwrap hone)
      · next hf =>
        obtain ⟨hbase, hle, hcount⟩ := hval (hseen.symm.trans (Bool.eq_false_iff.2 hf))
        have hlater : time < S.clock + 1 := htime.trans (Nat.lt_succ_self _)
        split
        · next hzero =>
          -- the window after a write
          rw [hzero, shown, if_pos rfl] at hcount
          exact ⟨hbelow, hlater, hbase, by omega, by omega, false, by rintro ⟨⟩, hcount⟩
        · next hzero =>
          rw [shown, if_neg hzero] at hcount
          exact ⟨hbelow, hlater, by omega, by omega, by omega, false, by rintro ⟨⟩, hcount⟩
  | again =>
      obtain ⟨hu, hne, hbelow⟩ := h
      have hcount := htracks.count
      have hle := htracks.val
      rw [hu, shown, if_neg hne, if_pos rfl] at hcount
      exact ⟨hbelow, Nat.lt_succ_self _, by omega, by omega, by omega, true, fun _ => unfolded_tick hu, hcount⟩

/-- No read returns less than `base`. -/
theorem base_le_of_readStep {place : ReadPlace} (h : (S.readStep place).2 = .inr (count, first, time)) :
    S.base ≤ count := by
  cases place with
  | val => cases h
  | ctrl val time =>
      simp only [readStep] at h
      split at h
      · cases h
      · split at h <;> cases h <;> omega
  | again =>
      cases h
      omega

/-! ### The restart -/

/-- The clocks between the two reads of VAL, as the code computes them. -/
theorem Counted.between {clock second : ℕ} (h : S.Counted behind earlier count first time) (hclock : time ≤ clock)
    (hprompt : clock ≤ time + S.currentReload) (hsecond : second ≤ S.currentReload + 1)
    (hcount : clock + second = S.base + behind + S.currentReload +
      (if S.unfolded then S.currentReload + 1 else 0)) :
    (if second ≤ first then first - second else first + (S.currentReload + 1 - second)) = clock - time := by
  obtain ⟨folded, hfolded, hval⟩ := h.val
  cases hf : folded with
  | true =>
      rw [hfolded hf] at hcount
      rw [hf] at hval
      simp only [if_true] at hcount hval
      rw [if_pos (by omega)]
      omega
  | false =>
      rw [hf] at hval
      cases hu : S.unfolded with
      | true =>
          -- the counter ran out between the two reads
          rw [hu] at hcount
          simp only [if_true, Bool.false_eq_true, if_false] at hcount hval
          rw [if_neg (by omega)]
          omega
      | false =>
          rw [hu] at hcount
          simp only [Bool.false_eq_true, if_false] at hcount hval
          rw [if_pos (by omega)]
          omega

/-- The base that the restart has computed. -/
structure Folded (earlier : Option ℕ) (clock base : ℕ) : Prop where
  le : base ≤ clock
  close : clock ≤ base + 1
  earlier : ∀ n ∈ earlier, n ≤ base

/-- What `restart_from_now_locked` may rely on. -/
def RestartOk (S : SystickTime) (behind : ℕ) (earlier second : Option ℕ) : Restart → Prop
  | .read place => second = none ∧ S.Tracks behind ∧ ((place = .val → S.Seen) → S.ReadOk behind earlier place)
  | .second count first _ time => second = none ∧ S.Tracks behind ∧ S.Counted behind earlier count first time
  | .writeLoad base _ _ | .writeVal base _ _ | .clear base _ =>
      ∃ clock, second = some clock ∧ Folded earlier clock base

/-- **What holds between steps.** -/
def FoldingOk (onlyIfChanged : Bool) (behind : ℕ) (S : SystickTime) : Folding → Prop
  | .before place => S.Tracks behind ∧ (S.Seen → place ≠ .again ∧ S.ReadOk behind none place)
  | .restarting earlier second place => S.RestartOk behind earlier second place
  | .after earlier none place => onlyIfChanged = true ∧ S.Tracks behind ∧ S.ReadOk behind earlier place
  | .after earlier (some clock) _ => Folded earlier clock S.base
  | .done earlier _ later => ∀ n ∈ earlier, n ≤ later

theorem FoldingOk.tick {place : Folding} (h : FoldingOk onlyIfChanged behind S place)
    (hwrap : counting place = true → S.regs.val = 1 → S.unfolded = false) :
    FoldingOk onlyIfChanged behind S.clockTick place := by
  cases place with
  | before place =>
      refine ⟨h.1.tick (hwrap rfl), fun hseen => ?_⟩
      obtain ⟨hne, hread⟩ := h.2 ((h.1.seen_tick (hwrap rfl)).1 hseen)
      exact ⟨hne, hread.tick h.1 (hwrap rfl)⟩
  | restarting earlier second place =>
      cases place with
      | read place =>
          obtain ⟨rfl, htracks, hread⟩ := h
          refine ⟨rfl, htracks.tick (hwrap rfl), fun hseen => ?_⟩
          exact (hread fun hp => (htracks.seen_tick (hwrap rfl)).1 (hseen hp)).tick htracks (hwrap rfl)
      | second count first next time =>
          obtain ⟨rfl, htracks, hcounted⟩ := h
          exact ⟨rfl, htracks.tick (hwrap rfl), hcounted.tick⟩
      | writeLoad | writeVal | clear => exact h
  | after earlier second place =>
      cases second with
      | none =>
          obtain ⟨honly, htracks, hread⟩ := h
          exact ⟨honly, htracks.tick (hwrap rfl), hread.tick htracks (hwrap rfl)⟩
      | some clock => exact h
  | done earlier second later => exact h

section Accesses

variable {x : SystickTime × Folding}

/-- An access of the first `now()`. -/
theorem FoldingOk.before {place : ReadPlace} (h : FoldingOk onlyIfChanged behind S (.before place))
    (hwrap : S.regs.val = 1 → S.unfolded = false)
    (hnext : foldNext onlyIfChanged (S, .before place) .access = some x) :
    FoldingOk onlyIfChanged behind x.1 x.2 := by
  obtain ⟨htracks, hread⟩ := h
  have htracks' := htracks.readStep hwrap place
  have hseen := htracks.seen_readStep hwrap place
  have hgives := fun hs => readStep_gives htracks (hread hs).2 hwrap
  simp only [foldNext] at hnext
  cases hstep : S.readStep place with
  | mk S₁ result =>
      rw [hstep] at hnext htracks' hseen hgives
      cases result with
      | inl place' =>
          cases hnext
          refine ⟨htracks', fun hs => ⟨?_, hgives (hseen.1 hs).1⟩⟩
          rintro rfl
          exact (hseen.1 hs).2 rfl
      | inr triple =>
          obtain ⟨count, first, time⟩ := triple
          cases hnext
          refine ⟨rfl, htracks', fun hs => ⟨hs rfl, ?_⟩⟩
          have hcounted := hgives (hseen.1 (hs rfl)).1
          rintro n ⟨⟩
          exact hcounted.ahead.trans hcounted.time_lt

/-- An access of the restart. -/
theorem RestartOk.access {place : Restart} (h : S.RestartOk behind earlier second place) (hbehind : behind ≤ 1)
    (hwrap : second = none → S.regs.val = 1 → S.unfolded = false)
    (hreadable : readable onlyIfChanged S (.restarting earlier second place))
    (hnext : foldNext onlyIfChanged (S, .restarting earlier second place) .access = some x) :
    FoldingOk onlyIfChanged behind x.1 x.2 := by
  cases place with
  | read place =>
      obtain ⟨rfl, htracks, hread⟩ := h
      have hread := hread (by rintro rfl; exact hreadable)
      have htracks' := htracks.readStep (hwrap rfl) place
      have hseen := htracks.seen_readStep (hwrap rfl) place
      have hgives := readStep_gives htracks hread (hwrap rfl)
      simp only [foldNext, restartStep] at hnext
      cases hstep : S.readStep place with
      | mk S₁ result =>
          rw [hstep] at hnext htracks' hseen hgives
          cases result with
          | inl place' =>
              cases hnext
              exact ⟨rfl, htracks', fun _ => hgives⟩
          | inr triple =>
              obtain ⟨count, first, time⟩ := triple
              dsimp only at hnext
              by_cases halone : onlyIfChanged = true ∧ desiredReload S₁.armedDeadline count = S₁.currentReload
              · rw [if_pos halone] at hnext
                cases hnext
                refine ⟨halone.1, htracks', hseen.2 ⟨?_, by rintro ⟨⟩⟩, hgives.below.mono hgives.time_lt.le⟩
                cases place with
                | val => cases hstep
                | ctrl val time => exact hread.1
                | again =>
                    refine absurd ?_ hreadable
                    rw [restartStep, hstep]
                    simp only [if_pos halone]
              · rw [if_neg halone] at hnext
                cases hnext
                exact ⟨rfl, htracks', hgives⟩
  | second count first next time =>
      obtain ⟨rfl, htracks, hcounted⟩ := h
      cases hnext
      refine ⟨S.clock, rfl, ?_⟩
      have hle : shown S.currentReload S.regs.val ≤ S.currentReload + 1 := by
        have hval := htracks.val
        unfold shown
        split <;> omega
      have hbetween := hcounted.between hcounted.time_lt.le hreadable hle htracks.count
      have htime := hcounted.time_lt
      have hcount := hcounted.count_le
      have hback := hcounted.le_count
      unfold shown at hbetween
      refine ⟨?_, ?_, fun n hn => ?_⟩
      · rw [hbetween]
        omega
      · rw [hbetween]
        omega
      · exact (hcounted.earlier_le n hn).trans (Nat.le_add_right _ _)
  | writeLoad base next time | writeVal base next time =>
      obtain ⟨clock, rfl, hfolded⟩ := h
      cases hnext
      exact ⟨clock, rfl, hfolded⟩
  | clear base next =>
      obtain ⟨clock, rfl, hfolded⟩ := h
      cases hnext
      exact hfolded

/-- An access of the second `now()`. -/
theorem FoldingOk.after {place : ReadPlace} (h : FoldingOk onlyIfChanged behind S (.after earlier second place))
    (hwrap : second = none → S.regs.val = 1 → S.unfolded = false)
    (hnext : foldNext onlyIfChanged (S, .after earlier second place) .access = some x) :
    FoldingOk onlyIfChanged behind x.1 x.2 := by
  have hfst := readStep_fst S place
  have hbase : ∀ c f t, (S.readStep place).2 = .inr (c, f, t) → S.base ≤ c := fun _ _ _ => base_le_of_readStep
  simp only [foldNext] at hnext
  cases second with
  | none =>
      obtain ⟨honly, htracks, hread⟩ := h
      have htracks' := htracks.readStep (hwrap rfl) place
      have hgives := readStep_gives htracks hread (hwrap rfl)
      cases hstep : S.readStep place with
      | mk S₁ result =>
          rw [hstep] at hnext htracks' hgives
          cases result with
          | inl place' =>
              cases hnext
              exact ⟨honly, htracks', hgives⟩
          | inr triple =>
              obtain ⟨count, first, time⟩ := triple
              cases hnext
              exact Counted.earlier_le hgives
  | some clock =>
      cases hstep : S.readStep place with
      | mk S₁ result =>
          rw [hstep] at hnext hfst hbase
          cases result with
          | inl place' =>
              cases hnext
              rcases hfst with rfl | rfl
              · exact h
              · exact h
          | inr triple =>
              obtain ⟨count, first, time⟩ := triple
              cases hnext
              exact fun n hn => (h.earlier n hn).trans (hbase _ _ _ rfl)

end Accesses

/-- **One step.** -/
theorem FoldingOk.next {x x' : SystickTime × Folding} {act : Access} (hbehind : behind ≤ 1)
    (h : FoldingOk onlyIfChanged behind x.1 x.2) (hpaced : paced onlyIfChanged x act)
    (hnext : foldNext onlyIfChanged x act = some x') : FoldingOk onlyIfChanged behind x'.1 x'.2 := by
  obtain ⟨S, place⟩ := x
  obtain ⟨hwrap, hreadable⟩ := hpaced
  cases act with
  | tick =>
      cases hnext
      exact h.tick hwrap
  | access =>
      cases place with
      | before place => exact h.before (hwrap rfl) hnext
      | restarting earlier second place =>
          exact RestartOk.access h hbehind (by rintro rfl; exact hwrap rfl) (hreadable rfl) hnext
      | after earlier second place => exact h.after (by rintro rfl; exact hwrap rfl) hnext
      | done earlier second later => cases hnext

/-! ### The accesses that are left -/

/-- How many accesses are left at most. -/
def left : Folding → ℕ
  | .before .val => 13
  | .before (.ctrl ..) => 12
  | .before .again => 11
  | .restarting _ _ (.read .val) => 10
  | .restarting _ _ (.read (.ctrl ..)) => 9
  | .restarting _ _ (.read .again) => 8
  | .restarting _ _ (.second ..) => 7
  | .restarting _ _ (.writeLoad ..) => 6
  | .restarting _ _ (.writeVal ..) => 5
  | .restarting _ _ (.clear ..) => 4
  | .after _ _ .val => 3
  | .after _ _ (.ctrl ..) => 2
  | .after _ _ .again => 1
  | .done .. => 0

/-- An access can be made until all is done, and takes one of those that are left. -/
theorem left_access (onlyIfChanged : Bool) (S : SystickTime) {place : Folding} (h : left place ≠ 0) :
    ∃ x, foldNext onlyIfChanged (S, place) .access = some x ∧ left x.2 < left place := by
  rcases place with (_ | ⟨val, time⟩ | _) | ⟨earlier, second, (_ | ⟨val, time⟩ | _) | _ | _ | _ | _⟩ |
    ⟨earlier, second, _ | ⟨val, time⟩ | _⟩ | ⟨earlier, second, later⟩
  case done => exact absurd rfl h
  all_goals simp only [foldNext, readStep, restartStep]
  -- what the flag and VAL were, and whether the interval is left alone
  all_goals try split_ifs
  all_goals try dsimp only
  all_goals try split_ifs
  all_goals exact ⟨_, rfl, by simp [left]⟩

/-- **A restart folds the time exactly**, from any state that tracks the true time to within a clock, whether a
`now()` comes before it or not.  The base it sets is within one clock of the true time at its second read of VAL,
and not above it; if it leaves the interval alone, which only a call with `only_if_changed` does, the time is
still tracked as before.  A `now()` after it returns no less than one before it.  And the calls come to their
end: until all is done an access can be made, and fewer are left after it. -/
theorem restart_folds_time (onlyIfChanged : Bool) (behind : ℕ) (hbehind : behind ≤ 1) (S : SystickTime)
    (hS : S.Tracks behind) (start : Folding)
    (hstart : start = .before .val ∨ start = .restarting none none (.read .val)) (acts : List Access)
    (hpaced : Meets (foldNext onlyIfChanged) (paced onlyIfChanged) (S, start) acts) (S' : SystickTime)
    (place : Folding) (hrun : run (foldNext onlyIfChanged) (S, start) acts = some (S', place)) :
    (∀ earlier clock read, place = .after earlier (some clock) read → S'.base ≤ clock ∧ clock ≤ S'.base + 1) ∧
      (∀ earlier read, place = .after earlier none read → onlyIfChanged = true ∧ S'.Tracks behind) ∧
      (∀ earlier second later, place = .done earlier second later → ∀ n ∈ earlier, n ≤ later) ∧
      (left place ≠ 0 →
        ∃ x, foldNext onlyIfChanged (S', place) .access = some x ∧ left x.2 < left place) := by
  have hok : FoldingOk onlyIfChanged behind S start := by
    rcases hstart with rfl | rfl
    · exact ⟨hS, fun hseen => ⟨by rintro ⟨⟩, hseen, by rintro n ⟨⟩⟩⟩
    · exact ⟨rfl, hS, fun hseen => ⟨hseen rfl, by rintro n ⟨⟩⟩⟩
  have hok' : FoldingOk onlyIfChanged behind S' place :=
    run_invariant_of_meets (I := fun x => FoldingOk onlyIfChanged behind x.1 x.2)
      (fun x act x' h hpaced hnext => h.next hbehind hpaced hnext) hok hpaced hrun
  refine ⟨?_, ?_, ?_, left_access onlyIfChanged S'⟩
  · rintro earlier clock read rfl
    exact ⟨hok'.le, hok'.close⟩
  · rintro earlier read rfl
    exact ⟨hok'.1, hok'.2.1⟩
  · rintro earlier second later rfl
    exact hok'

/-- The shortest interval, begun at zero. -/
def shortest (val clock armedDeadline : ℕ) : SystickTime :=
  { boot with
    regs := ⟨63, val, false, false⟩
    currentReload := 63
    armedDeadline := armedDeadline
    clock := clock }

theorem tracks_shortest {val clock armedDeadline behind : ℕ} (hval : val ≤ 63)
    (hcount : clock + shown 63 val = behind + 63) : (shortest val clock armedDeadline).Tracks behind := by
  refine ⟨le_refl _, rfl, hval, ?_, Nat.zero_le _, by rintro ⟨⟩⟩
  show clock + shown 63 val = 0 + behind + 63 + 0
  omega

/-- From the window after a write, in which VAL reads zero: the restart is made at once, with its reads a clock
apart, and sets a base of 2 at the clock 2. -/
theorem restart_folds_time_window :
    ∃ S place, run (foldNext false) (shortest 0 0 70, .restarting none none (.read .val))
        (List.replicate 6 .access) = some (S, place) ∧
      place = .after none (some 2) .val ∧ S.base ≤ 2 ∧ 2 ≤ S.base + 1 := by
  have hrun : (run (foldNext false) (shortest 0 0 70, .restarting none none (.read .val))
      (List.replicate 6 .access)).map Prod.snd = some (.after none (some 2) .val) := by decide +kernel
  obtain ⟨⟨S, place⟩, hS, hplace⟩ := Option.map_eq_some_iff.1 hrun
  have hfolds := restart_folds_time false 1 (le_refl _) (shortest 0 0 70) (tracks_shortest (by decide) rfl) _
    (Or.inr rfl) (List.replicate 6 .access) (by decide +kernel) S place hS
  exact ⟨S, place, hS, hplace, hfolds.1 none 2 .val hplace⟩

/-- **Without the condition an interval can be lost.**  The flag is right when the restart begins, and `base`
lacks one interval at most.  A restart that finds an interval uncounted and leaves the counter alone has cleared
the flag: the `now()` before it returned 61, and the one after it 2.  And of two reads of VAL that are 70 clocks
apart, with an interval of 64, one is lost: at the clock 123 the base is set to 59. -/
theorem restart_can_lose_interval :
    (shortest 2 61 70).Tracks 0 ∧ (shortest 2 61 70).Seen ∧
      (run (foldNext true) (shortest 2 61 70, .before .val) (List.replicate 2 .access)).map
        (fun x => (x.2, x.1.regs.countflag, x.1.unfolded)) =
          some (.restarting (some 61) none (.read .val), true, true) ∧
      (run (foldNext true) (shortest 2 61 70, .before .val) (List.replicate 7 .access)).map Prod.snd =
        some (.done (some 61) none 2) ∧
    (shortest 10 53 70).Tracks 0 ∧ (shortest 10 53 70).Seen ∧
      (run (foldNext false) (shortest 10 53 70, .restarting none none (.read .val))
        (List.replicate 2 .access ++ List.replicate 68 .tick ++ List.replicate 4 .access)).map
          (fun x => (x.2, x.1.base)) = some (.after none (some 123) .val, 59) := by
  refine ⟨tracks_shortest (by decide) rfl, rfl, ?_, ?_, tracks_shortest (by decide) rfl, rfl, ?_⟩
  · decide +kernel
  · decide +kernel
  · decide +kernel

end SystickTime

end Cyros.Port
