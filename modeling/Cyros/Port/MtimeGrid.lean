import Mathlib.Data.UInt
import Cyros.Port.TickCount

/-!
# The periodic ticks of MTIME

`cyros_port_time_setup` reads the counter once and puts the compare value a period later, and `interrupt` moves it
on by whole periods until it is past the counter again.  The passes of that loop are what the tick count, which is
held in two words of 32 bits, is advanced by.

* `ticks_on_grid`: after every interrupt the count is the number of whole periods since `setup`, and the compare value
  is the next point of the grid, in every run whose interrupts come before 2^32 ticks are missed and whose compare
  values fit in 64 bits.
* `ticks_lost_at_limit`: at 2^32 missed ticks the count of the loop wraps, though the counter has advanced by less than
  2^32 periods.
-/

namespace Cyros.Port

open Cyros.Lib

/-- The periodic source, with the core that keeps the count.  `start` and `last` are ghosts: the counter as `setup` and
as the last interrupt read it. -/
structure MtimeTicks where
  period : UInt64
  nextTick : UInt64
  tickLow : UInt32
  tickHigh : UInt32
  start : UInt64
  last : UInt64
  deriving DecidableEq, Repr

namespace MtimeTicks

/-- `cyros_port_time_setup`, on the time core and with the counter at `start`. -/
def setup (period start : UInt64) : MtimeTicks where
  period := period
  nextTick := start + period
  tickLow := 0
  tickHigh := 0
  start := start
  last := start

/-- The loop of `interrupt`, for so many passes; `none` where it is not over by then. -/
def stepPast (period now : UInt64) : ℕ → UInt64 → UInt32 → Option (UInt64 × UInt32)
  | 0, _, _ => none
  | passes + 1, nextTick, ticks =>
      if nextTick ≤ now then stepPast period now passes (nextTick + period) (ticks + 1) else some (nextTick, ticks)

/-- `advance_count` -/
def advanceCount (M : MtimeTicks) (ticks : UInt32) : MtimeTicks :=
  let next := M.tickLow + ticks
  { M with
    tickHigh := if next < M.tickLow then M.tickHigh + 1 else M.tickHigh
    tickLow := next }

/-- `interrupt`, with the counter at `now`, which never goes back.  The loop comes by a compare value twice in 2^64
passes, so it ends in as many or not at all. -/
def interrupt (M : MtimeTicks) (now : UInt64) : Option MtimeTicks :=
  if M.last ≤ now then
    (stepPast M.period now (2 ^ 64) M.nextTick 0).map fun r =>
      ({ M with nextTick := r.1, last := now } : MtimeTicks).advanceCount r.2
  else none

/-- `periodic_count` -/
def count (M : MtimeTicks) : ℕ := joinWords M.tickHigh.toNat M.tickLow.toNat

/-- The whole periods from `setup` to a value of the counter. -/
def periods (M : MtimeTicks) (now : UInt64) : ℕ := (now.toNat - M.start.toNat) / M.period.toNat

/-- Fewer than 2^32 ticks are missed, and the next compare value fits. -/
def InTime (M : MtimeTicks) (now : UInt64) : Prop :=
  M.periods now < M.periods M.last + 2 ^ 32 ∧ M.start.toNat + (M.periods now + 1) * M.period.toNat < 2 ^ 64

instance (M : MtimeTicks) (now : UInt64) : Decidable (M.InTime now) := inferInstanceAs (Decidable (_ ∧ _))

/-! ### The loop and the count -/

/-- The loop passes once for every compare value that the counter has reached. -/
theorem stepPast_eq {period now : UInt64} {k passes : ℕ} {nextTick : UInt64} {ticks : UInt32}
    (hreached : ∀ i < k, nextTick.toNat + i * period.toNat ≤ now.toNat)
    (hpast : now.toNat < nextTick.toNat + k * period.toNat)
    (hfits : nextTick.toNat + k * period.toNat < 2 ^ 64) (hpasses : k < passes) : ∃ r,
stepPast period now passes nextTick ticks = some r ∧
      r.1.toNat = nextTick.toNat + k * period.toNat ∧ r.2.toNat = (ticks.toNat + k) % 2 ^ 32 := by
  induction k generalizing passes nextTick ticks with
  | zero =>
      obtain ⟨passes, rfl⟩ : ∃ n, passes = n + 1 := ⟨passes - 1, by omega⟩
      have hnot : ¬nextTick ≤ now := by
        rw [UInt64.le_iff_toNat_le]
        omega
      have := ticks.toNat_lt
      exact ⟨_, if_neg hnot, by simp, (Nat.mod_eq_of_lt (by omega)).symm⟩
  | succ k ih =>
      obtain ⟨passes, rfl⟩ : ∃ n, passes = n + 1 := ⟨passes - 1, by omega⟩
      have hle : nextTick ≤ now := by
        rw [UInt64.le_iff_toNat_le]
        simpa using hreached 0 (Nat.succ_pos k)
      have hnext : (nextTick + period).toNat = nextTick.toNat + period.toNat := by
        rw [UInt64.toNat_add, Nat.mod_eq_of_lt]
        rw [Nat.add_mul] at hfits
        omega
      have hsum : ∀ i, (nextTick + period).toNat + i * period.toNat = nextTick.toNat + (i + 1) * period.toNat := by
        intro i
        rw [hnext, Nat.add_mul]
        omega
      have hticks : (ticks + 1).toNat = (ticks.toNat + 1) % 2 ^ 32 := by
        rw [UInt32.toNat_add]
        rfl
      have hreached' : ∀ i < k, (nextTick + period).toNat + i * period.toNat ≤ now.toNat := by
        intro i hi
        rw [hsum]
        exact hreached (i + 1) (by omega)
      rw [← hsum] at hpast hfits
      obtain ⟨r, hr, hval, hcount⟩ := @ih passes _ (ticks + 1) hreached' hpast hfits (by omega)
      refine ⟨r, (if_pos hle).trans hr, by rw [hval, hsum], ?_⟩
      rw [hcount, hticks]
      omega

/-- The two words are the count, with the carry. -/
theorem count_advanceCount {M : MtimeTicks} {ticks : UInt32} (h : M.count + ticks.toNat < 2 ^ 64) :
    (M.advanceCount ticks).count = M.count + ticks.toNat := by
  have hlow := M.tickLow.toNat_lt
  have hhigh := M.tickHigh.toNat_lt
  have hticks := ticks.toNat_lt
  unfold count at h ⊢
  rw [joinWords_eq (M.tickLow.toNat_lt)] at h ⊢
  rw [joinWords_eq (UInt32.toNat_lt _)]
  unfold wordSize at h ⊢
  have hnext : (M.tickLow + ticks).toNat = (M.tickLow.toNat + ticks.toNat) % 2 ^ 32 := UInt32.toNat_add _ _
  dsimp only [advanceCount]
  split
  · next hcarry =>
    rw [UInt32.lt_iff_toNat_lt, hnext] at hcarry
    rw [UInt32.toNat_add, hnext, show (1 : UInt32).toNat = 1 from rfl]
    omega
  · next hcarry =>
    rw [UInt32.lt_iff_toNat_lt, hnext] at hcarry
    rw [hnext]
    omega

/-! ### The grid -/

/-- The count and the compare value are those of the last interrupt's place on the grid. -/
structure OnGrid (period start : UInt64) (M : MtimeTicks) : Prop where
  hasPeriod : M.period = period
  hasStart : M.start = start
  lastFrom : start ≤ M.last
  counts : M.count = M.periods M.last
  compare : M.nextTick.toNat = start.toNat + (M.count + 1) * period.toNat

variable {period start : UInt64} {M M' : MtimeTicks} {now : UInt64}

theorem onGrid_setup (hfits : start.toNat + period.toNat < 2 ^ 64) : OnGrid period start (setup period start) := by
  refine ⟨rfl, rfl, UInt64.le_refl start, ?_, ?_⟩
  · simp [count, joinWords, periods, setup]
  · simpa [count, joinWords, setup] using hfits

/-- An interrupt in time returns, and its count and compare value are on the grid. -/
theorem OnGrid.interrupt (hpos : 0 < period) (hg : OnGrid period start M) (hle : M.last ≤ now) (hok : M.InTime now) :
    ∃ M', M.interrupt now = some M' ∧ OnGrid period start M' ∧ M'.last = now := by
  obtain ⟨rfl, rfl, hlast, hcount, hnext⟩ := hg
  obtain ⟨hmissed, hfits⟩ := hok
  have hp : 0 < M.period.toNat := UInt64.lt_iff_toNat_lt.1 hpos
  have hfrom : M.start.toNat ≤ now.toNat :=
    (UInt64.le_iff_toNat_le.1 hlast).trans (UInt64.le_iff_toNat_le.1 hle)
  have hmono : M.count ≤ M.periods now := by
    rw [hcount]
    exact Nat.div_le_div_right (Nat.sub_le_sub_right (UInt64.le_iff_toNat_le.1 hle) _)
  -- the points of the grid that the counter has reached since the last interrupt
  have hreached : ∀ j ≤ M.periods now, M.start.toNat + j * M.period.toNat ≤ now.toNat := by
    intro j hj
    have := (Nat.le_div_iff_mul_le hp).1 hj
    omega
  have hpast : now.toNat < M.start.toNat + (M.periods now + 1) * M.period.toNat := by
    have := Nat.lt_mul_div_succ (now.toNat - M.start.toNat) hp
    rw [Nat.mul_comm] at this
    unfold periods
    omega
  have hpoint : ∀ i, M.nextTick.toNat + i * M.period.toNat = M.start.toNat + (M.count + 1 + i) * M.period.toNat := by
    intro i
    rw [hnext, Nat.add_mul (M.count + 1)]
    omega
  have hmiss : M.count + 1 + (M.periods now - M.count) = M.periods now + 1 := by omega
  have hnowLt : M.periods now < 2 ^ 64 := (Nat.div_le_self _ _).trans_lt ((Nat.sub_le _ _).trans_lt now.toNat_lt)
  have hloop : ∃ r, stepPast M.period now (2 ^ 64) M.nextTick 0 = some r ∧
      r.1.toNat = M.nextTick.toNat + (M.periods now - M.count) * M.period.toNat ∧
      r.2.toNat = ((0 : UInt32).toNat + (M.periods now - M.count)) % 2 ^ 32 := by
    apply stepPast_eq
    · intro i hi
      rw [hpoint]
      exact hreached _ (by omega)
    · rwa [hpoint, hmiss]
    · rwa [hpoint, hmiss]
    · omega
  obtain ⟨r, hr, hval, hticks⟩ := hloop
  have hticks : r.2.toNat = M.periods now - M.count := by
    rw [hticks, UInt32.toNat_zero, Nat.zero_add, Nat.mod_eq_of_lt (by omega)]
  refine ⟨_, by rw [MtimeTicks.interrupt, if_pos hle, hr]; rfl, ?_, rfl⟩
  have hsum : (({ M with nextTick := r.1, last := now } : MtimeTicks).advanceCount r.2).count = M.periods now := by
    rw [count_advanceCount]
    · rw [hticks]
      exact Nat.add_sub_cancel' hmono
    · rw [hticks]
      exact (Nat.add_sub_cancel' hmono).trans_lt hnowLt
  refine ⟨rfl, rfl, UInt64.le_trans hlast hle, hsum, ?_⟩
  rw [hsum, ← hmiss, ← hpoint]
  exact hval

/-- **Ticks stay on the grid**: from a `setup` at `start`, every run of interrupts that come in time goes through, and
after each of them the count is the number of whole periods since then and the compare value the next point. -/
theorem ticks_on_grid (hpos : 0 < period) (hfits : start.toNat + period.toNat < 2 ^ 64) {reads : List UInt64}
    (hmono : (start :: reads).Pairwise (· ≤ ·)) (hok : Meets interrupt InTime (setup period start) reads) :
    ∃ M, run interrupt (setup period start) reads = some M ∧ M.last = (start :: reads).getLast (List.cons_ne_nil _ _) ∧
      M.count = (M.last.toNat - start.toNat) / period.toNat ∧
      M.nextTick.toNat = start.toNat + (M.count + 1) * period.toNat := by
  have hall : ∀ (reads : List UInt64) (M : MtimeTicks), OnGrid period start M →
      (M.last :: reads).Pairwise (· ≤ ·) → Meets MtimeTicks.interrupt InTime M reads →
      ∃ M', run MtimeTicks.interrupt M reads = some M' ∧ OnGrid period start M' ∧
        M'.last = (M.last :: reads).getLast (List.cons_ne_nil _ _) := by
    intro reads
    induction reads with
    | nil =>
        intro M hg _ _
        exact ⟨M, rfl, hg, rfl⟩
    | cons now reads ih =>
        intro M hg hmono hok
        obtain ⟨hnow, hrest⟩ := List.pairwise_cons.1 hmono
        obtain ⟨M', hM', hg', hlast⟩ := hg.interrupt hpos (hnow now List.mem_cons_self) hok.1
        have hok' : Meets MtimeTicks.interrupt InTime M' reads := by
          have := hok.2
          rwa [hM'] at this
        obtain ⟨M'', hrun, hg'', hlast''⟩ := ih M' hg' (by rwa [hlast]) hok'
        refine ⟨M'', by rw [run_cons, hM']; exact hrun, hg'', ?_⟩
        rw [hlast'', List.getLast_cons_cons]
        simp only [hlast]
  obtain ⟨M, hrun, hg, hlast⟩ := hall reads (setup period start) (onGrid_setup hfits) hmono hok
  refine ⟨M, hrun, hlast, ?_, hg.compare⟩
  rw [hg.counts, periods, hg.hasPeriod, hg.hasStart]

/-- Three interrupts, the second of them late by three periods. -/
theorem ticks_on_grid_late : 0 < (10 : UInt64) ∧
    ∃ M, run interrupt (setup 10 7) [18, 59, 60] = some M ∧ M.last = 60 ∧ M.count = 5 ∧
      M.nextTick.toNat = 7 + (M.count + 1) * 10 := by
  obtain ⟨M, hM, hlast, hcount, hnext⟩ :=
    @ticks_on_grid 10 7 (by decide) (by decide) [18, 59, 60] (by decide) (by decide +kernel)
  refine ⟨by decide, M, hM, hlast, ?_, hnext⟩
  rw [hcount, hlast]
  decide

/-- A period of 2, and interrupts at 3 and at 2^33 + 2: 2^32 ticks are missed in less than 2^32 periods, the count of
the loop wraps to 0, and the tick count stays 1. -/
theorem ticks_lost_at_limit : ∃ M, run interrupt (setup 2 0) [3, 8589934594] = some M ∧ M.count = 1 ∧
    M.periods M.last = 2 ^ 32 + 1 ∧ 8589934594 - 3 < 2 ^ 32 * M.period.toNat := by
  have hfirst : (setup 2 0).interrupt 3 = some ⟨2, 4, 1, 0, 0, 3⟩ := by decide +kernel
  obtain ⟨r, hr, hval, hticks⟩ : ∃ r, stepPast 2 8589934594 (2 ^ 64) 4 0 = some r ∧
      r.1.toNat = (4 : UInt64).toNat + 2 ^ 32 * (2 : UInt64).toNat ∧
      r.2.toNat = ((0 : UInt32).toNat + 2 ^ 32) % 2 ^ 32 := by
    apply stepPast_eq
    · intro i hi
      change 4 + i * 2 ≤ 8589934594
      omega
    · decide
    · decide
    · decide
  obtain rfl : r = (8589934596, 0) := Prod.ext (UInt64.toNat_inj.1 hval) (UInt32.toNat_inj.1 hticks)
  refine ⟨⟨2, 8589934596, 1, 0, 0, 8589934594⟩, ?_, by decide +kernel⟩
  rw [run_cons, hfirst, Option.bind_some, run_cons, interrupt, if_pos (by decide), hr]
  rfl

end MtimeTicks

end Cyros.Port
