import Mathlib.Data.UInt
import Cyros.Lib.Rounding
import Cyros.Lib.Run

/-!
# Durations

The conversions between ticks and milliseconds or microseconds, of the tickless, the simulation and the periodic
driver, and the life of the periodic driver over the time sources of its ports.  The arithmetic is that of the
source: 64-bit words that wrap, and a division that has no result where the divisor is 0.

The periodic driver converts at the rate it asks of its port, and the port learns it from `setup`, which only
`start` calls.

* `ticks_least`: times become the fewest ticks that last as long, and come back as they were where ticks are short.
* `units_nearest`: ticks become the nearest number of units, where the product of the two does not wrap.
* `converts_at_tick_rate`: the periodic driver converts at the rate of its ticks, in every run that converts only
  after a core has started and initialises with a rate that divides the clock's.
-/

namespace Cyros.Time

open Cyros.Lib

/-! ### The conversions -/

/-- The units that durations are converted from and to. -/
inductive TimeUnit
  | milliseconds
  | microseconds
  deriving DecidableEq, Repr

/-- The units of a second, as the source writes them. -/
def TimeUnit.perSecond : TimeUnit → UInt64
  | .milliseconds => 1000
  | .microseconds => 1000000

/-- `ceil_div_u64` -/
def ceilDivU64 (a b : UInt64) : UInt64 := (a + b - 1) / b

/-- A division of the source: without a result where the divisor is 0. -/
def divide (a b : UInt64) : Option UInt64 := if b = 0 then none else some (a / b)

/-- A time in ticks, as two of the drivers compute it. -/
def ticksOf (unit : TimeUnit) (hz : UInt64) (x : UInt32) : UInt64 := ceilDivU64 (x.toUInt64 * hz) unit.perSecond

/-- A duration in units, as all drivers compute it; `half` is half of the rate. -/
def unitsOf (unit : TimeUnit) (hz half d : UInt64) : Option UInt64 := divide (d * unit.perSecond + half) hz

/-- The four conversions of a driver. -/
structure Conversions where
  fromMilliseconds : UInt32 → UInt64
  fromMicroseconds : UInt32 → UInt64
  toMilliseconds : UInt64 → Option UInt64
  toMicroseconds : UInt64 → Option UInt64

namespace Conversions

/-- The tickless driver, at `tconfig.frequency_hz`. -/
def tickless (frequencyHz : UInt32) : Conversions where
  fromMilliseconds := ticksOf .milliseconds frequencyHz.toUInt64
  fromMicroseconds := ticksOf .microseconds frequencyHz.toUInt64
  toMilliseconds := unitsOf .milliseconds frequencyHz.toUInt64 (frequencyHz / 2).toUInt64
  toMicroseconds := unitsOf .microseconds frequencyHz.toUInt64 (frequencyHz / 2).toUInt64

/-- The simulation driver, at `driver_instance->tick_frequency_hz`. -/
def simulation (tickFrequencyHz : UInt32) : Conversions where
  fromMilliseconds := fun ms => (ms.toUInt64 * tickFrequencyHz.toUInt64 + 999) / 1000
  fromMicroseconds := fun us => (us.toUInt64 * tickFrequencyHz.toUInt64 + 999999) / 1000000
  toMilliseconds := unitsOf .milliseconds tickFrequencyHz.toUInt64 (tickFrequencyHz.toUInt64 / 2)
  toMicroseconds := unitsOf .microseconds tickFrequencyHz.toUInt64 (tickFrequencyHz.toUInt64 / 2)

/-- The periodic driver, at `cyros_port_time_freq_hz()`. -/
def periodic (hz : UInt64) : Conversions where
  fromMilliseconds := ticksOf .milliseconds hz
  fromMicroseconds := ticksOf .microseconds hz
  toMilliseconds := unitsOf .milliseconds hz (hz / 2)
  toMicroseconds := unitsOf .microseconds hz (hz / 2)

/-- `from_milliseconds` or `from_microseconds` -/
def fromUnit (D : Conversions) : TimeUnit → UInt32 → UInt64
  | .milliseconds => D.fromMilliseconds
  | .microseconds => D.fromMicroseconds

/-- `to_milliseconds` or `to_microseconds` -/
def toUnit (D : Conversions) : TimeUnit → UInt64 → Option UInt64
  | .milliseconds => D.toMilliseconds
  | .microseconds => D.toMicroseconds

/-! The three drivers compute the same. -/

theorem tickless_eq (hz : UInt32) : tickless hz = periodic hz.toUInt64 := by
  simp [tickless, periodic]

theorem simulation_eq (hz : UInt32) : simulation hz = periodic hz.toUInt64 := by
  have hms : ∀ a : UInt64, a + 1000 - 1 = a + 999 := by grind
  have hus : ∀ a : UInt64, a + 1000000 - 1 = a + 999999 := by grind
  simp only [simulation, periodic, mk.injEq, and_true]
  constructor <;> funext x
  · rw [ticksOf, ceilDivU64, TimeUnit.perSecond, hms]
  · rw [ticksOf, ceilDivU64, TimeUnit.perSecond, hus]

theorem periodic_fromUnit (hz : UInt64) (unit : TimeUnit) (x : UInt32) :
    (periodic hz).fromUnit unit x = ticksOf unit hz x := by
  cases unit <;> rfl

theorem periodic_toUnit (hz : UInt64) (unit : TimeUnit) (d : UInt64) :
    (periodic hz).toUnit unit d = unitsOf unit hz (hz / 2) d := by
  cases unit <;> rfl

end Conversions

/-! ### What they compute -/

section Values

variable {unit : TimeUnit} {hz x : UInt32} {d : UInt64}

theorem TimeUnit.perSecond_pos (unit : TimeUnit) : 0 < unit.perSecond.toNat := by
  cases unit <;> decide

theorem TimeUnit.perSecond_le (unit : TimeUnit) : unit.perSecond.toNat ≤ 1000000 := by
  cases unit <;> decide

theorem toUInt64_ne_zero (hpos : 0 < hz) : hz.toUInt64 ≠ 0 := by
  intro hzero
  have hnat : hz.toNat = 0 := by
    rw [← UInt32.toNat_toUInt64, hzero, UInt64.toNat_zero]
  have := UInt32.lt_iff_toNat_lt.1 hpos
  rw [hnat] at this
  exact Nat.not_lt_zero _ this

theorem toNat_mul_le (x hz : UInt32) : x.toNat * hz.toNat ≤ (2 ^ 32 - 1) * (2 ^ 32 - 1) :=
  Nat.mul_le_mul (Nat.le_pred_of_lt x.toNat_lt) (Nat.le_pred_of_lt hz.toNat_lt)

/-- The sum that is divided, and what is added on the way, fit. -/
theorem ticksOf_fits (unit : TimeUnit) (hz x : UInt32) :
    x.toNat * hz.toNat + unit.perSecond.toNat < 2 ^ 64 := by
  have := toNat_mul_le x hz
  have := unit.perSecond_le
  omega

theorem toNat_ticksOf (unit : TimeUnit) (hz x : UInt32) : (ticksOf unit hz.toUInt64 x).toNat =
    (x.toNat * hz.toNat + unit.perSecond.toNat - 1) / unit.perSecond.toNat := by
  have hfits := ticksOf_fits unit hz x
  have hpos := unit.perSecond_pos
  have hmul : (x.toUInt64 * hz.toUInt64).toNat = x.toNat * hz.toNat := by
    rw [UInt64.toNat_mul, UInt32.toNat_toUInt64, UInt32.toNat_toUInt64, Nat.mod_eq_of_lt (by omega)]
  have hadd : (x.toUInt64 * hz.toUInt64 + unit.perSecond).toNat = x.toNat * hz.toNat + unit.perSecond.toNat := by
    rw [UInt64.toNat_add, hmul, Nat.mod_eq_of_lt hfits]
  have hone : (1 : UInt64).toNat ≤ (x.toUInt64 * hz.toUInt64 + unit.perSecond).toNat := by
    rw [hadd, UInt64.toNat_one]
    omega
  rw [ticksOf, ceilDivU64, UInt64.toNat_div, UInt64.toNat_sub_of_le _ _ (UInt64.le_iff_toNat_le.2 hone), hadd,
    UInt64.toNat_one]

/-- Where the product and half of the rate do not wrap, the quotient is that of the numbers. -/
theorem unitsOf_eq (hpos : 0 < hz) (hd : d.toNat * unit.perSecond.toNat + hz.toNat / 2 < 2 ^ 64) :
    ∃ r, unitsOf unit hz.toUInt64 (hz.toUInt64 / 2) d = some r ∧
      r.toNat = (d.toNat * unit.perSecond.toNat + hz.toNat / 2) / hz.toNat := by
  have hmul : (d * unit.perSecond).toNat = d.toNat * unit.perSecond.toNat := by
    rw [UInt64.toNat_mul, Nat.mod_eq_of_lt (by omega)]
  have hhalf : (hz.toUInt64 / 2).toNat = hz.toNat / 2 := by
    rw [UInt64.toNat_div, UInt32.toNat_toUInt64]
    rfl
  refine ⟨_, if_neg (toUInt64_ne_zero hpos), ?_⟩
  rw [UInt64.toNat_div, UInt64.toNat_add, hmul, hhalf, UInt32.toNat_toUInt64, Nat.mod_eq_of_lt hd]

end Values

/-! ### The life of the periodic driver -/

/-- The time sources of the ports. -/
inductive PeriodicSource
  | systick
  | systickSmp
  | mtime
  deriving DecidableEq, Repr

/-- A call of a conversion. -/
inductive Convert
  | fromUnit (unit : TimeUnit) (x : UInt32)
  | toUnit (unit : TimeUnit) (d : UInt64)
  deriving DecidableEq, Repr

/-- What a call returns; `none` where it divides by 0. -/
def Convert.answer (D : Conversions) : Convert → Option UInt64
  | .fromUnit unit x => some (D.fromUnit unit x)
  | .toUnit unit d => D.toUnit unit d

/-- A call that was made: the rate the driver was initialised with, the counts of the clock in a tick, and the
result. -/
structure Converted where
  frequencyHz : UInt32
  period : UInt32
  call : Convert
  result : Option UInt64
  deriving DecidableEq, Repr

/-- The periodic driver and its port.  `setUp` and `log` are ghosts: a core has started since the driver was
initialised, and the calls so far. -/
structure Periodic (C : Type) where
  initialised : Bool
  frequencyHz : UInt32
  started : C → Bool
  configuredTickHz : UInt32
  /-- The counts of the clock in a tick that `setup` last programmed. -/
  period : UInt32
  setUp : Bool
  log : List Converted

namespace Periodic

variable {C : Type} [DecidableEq C]

inductive Act (C : Type)
  | initialise (frequencyHz : UInt32)
  | finalise
  | start (core : C)
  | stop (core : C)
  | convert (call : Convert)
  deriving DecidableEq

/-- `cyros_port_time_freq_hz` -/
def freqHz (P : Periodic C) : UInt64 := P.configuredTickHz.toUInt64

/-- The conversions that a caller gets now. -/
def conversions (P : Periodic C) : Conversions := Conversions.periodic P.freqHz

/-- The assertions of `cyros_port_time_setup` for a rate other than 0. -/
def setupOk (source : PeriodicSource) (clockHz : UInt32) (P : Periodic C) (tickHz : UInt32) : Bool :=
  match source with
  | .systick =>
      decide (0 < clockHz ∧ clockHz ≤ 1000000000 ∧ clockHz / tickHz - 1 ≤ 0xFFFFFF ∧ 0 < clockHz / tickHz - 1)
  | .systickSmp =>
      decide (0 < tickHz ∧ 0 < clockHz ∧ tickHz ≤ clockHz ∧ clockHz / tickHz - 1 ≤ 0xFFFFFF ∧
        (P.configuredTickHz = 0 ∨ P.configuredTickHz = tickHz))
  | .mtime =>
      decide (0 < clockHz ∧ (P.configuredTickHz = 0 ∨ P.configuredTickHz = tickHz) ∧ tickHz ≤ clockHz)

/-- `cyros_port_time_teardown`: the SysTick source of one core keeps the rate. -/
def tornDownHz (source : PeriodicSource) (P : Periodic C) : UInt32 :=
  match source with
  | .systick => P.configuredTickHz
  | .systickSmp => 0
  | .mtime => 0

def next (source : PeriodicSource) (clockHz : UInt32) (P : Periodic C) : Act C → Option (Periodic C)
  | .initialise f => if P.initialised then none else some { P with initialised := true, frequencyHz := f }
  | .finalise =>
      if P.initialised then some { P with
        configuredTickHz := P.tornDownHz source
        initialised := false
        frequencyHz := 0
        started := fun _ => false
        setUp := false }
      else none
  | .start c =>
      if P.started c then some P
      else if P.initialised ∧ 0 < P.frequencyHz ∧ P.setupOk source clockHz P.frequencyHz then some { P with
        configuredTickHz := P.frequencyHz
        period := clockHz / P.frequencyHz
        started := Function.update P.started c true
        setUp := true }
      else none
  | .stop c => some { P with started := Function.update P.started c false }
  | .convert call =>
      if P.initialised then
        some { P with log := P.log ++ [⟨P.frequencyHz, P.period, call, call.answer P.conversions⟩] }
      else none

def boot : Periodic C where
  initialised := false
  frequencyHz := 0
  started := fun _ => false
  configuredTickHz := 0
  period := 0
  setUp := false
  log := []

/-- Once a core has started, the port runs at the rate of the driver, and a tick is the clock divided by it. -/
def Rated (clockHz : UInt32) (P : Periodic C) : Prop :=
  P.setUp = true → P.initialised = true ∧ 0 < P.frequencyHz ∧ P.configuredTickHz = P.frequencyHz ∧
    P.period = clockHz / P.frequencyHz

variable {source : PeriodicSource} {clockHz : UInt32} {P P' : Periodic C} {act : Act C}

omit [DecidableEq C] in
theorem rated_boot : Rated clockHz (boot : Periodic C) := by
  intro hup
  cases hup

theorem Rated.next (hi : Rated clockHz P) (h : P.next source clockHz act = some P') : Rated clockHz P' := by
  unfold Periodic.next at h
  cases act with
  | initialise f =>
      obtain ⟨hfresh, hP'⟩ := Option.ite_none_left_eq_some.1 h
      cases hP'
      exact fun hup => absurd (hi hup).1 hfresh
  | finalise =>
      obtain ⟨-, rfl⟩ := of_guard h
      intro hup
      cases hup
  | start c =>
      dsimp only at h
      split at h
      · cases h
        exact hi
      · obtain ⟨⟨hinit, hpos, -⟩, rfl⟩ := of_guard h
        exact fun _ => ⟨hinit, hpos, rfl, rfl⟩
  | stop c =>
      cases h
      exact hi
  | convert call =>
      obtain ⟨-, rfl⟩ := of_guard h
      exact hi

theorem rated_of_run {acts : List (Act C)} (h : run (Periodic.next source clockHz) boot acts = some P) :
    Rated clockHz P :=
  run_invariant (fun _ _ _ hi hstep => hi.next hstep) rated_boot h

/-- Conversions are made only after a core has started, and the rate divides that of the clock. -/
def Settled (clockHz : UInt32) (P : Periodic C) : Act C → Prop
  | .convert _ => P.setUp = true
  | .initialise f => f.toNat ∣ clockHz.toNat
  | _ => True

instance (clockHz : UInt32) (P : Periodic C) : (act : Act C) → Decidable (Settled clockHz P act)
  | .convert _ => inferInstanceAs (Decidable (P.setUp = true))
  | .initialise f => inferInstanceAs (Decidable (f.toNat ∣ clockHz.toNat))
  | .finalise => isTrue trivial
  | .start _ => isTrue trivial
  | .stop _ => isTrue trivial

/-- The driver was initialised with a rate that divides the clock's, and converted at it. -/
structure Right (clockHz : UInt32) (P : Periodic C) : Prop where
  rated : Rated clockHz P
  divides : P.initialised = true → P.frequencyHz.toNat ∣ clockHz.toNat
  log : ∀ a ∈ P.log, a.result = a.call.answer (Conversions.periodic a.frequencyHz.toUInt64) ∧
    a.result.isSome ∧ a.frequencyHz.toNat * a.period.toNat = clockHz.toNat

/-- A conversion at a rate other than 0 has a result. -/
theorem isSome_answer {hz : UInt32} (hpos : 0 < hz) (call : Convert) :
    (call.answer (Conversions.periodic hz.toUInt64)).isSome := by
  cases call with
  | fromUnit unit x => rfl
  | toUnit unit d =>
      simp [Convert.answer, Conversions.periodic_toUnit, unitsOf, divide, toUInt64_ne_zero hpos]

theorem Right.next (hr : Right clockHz P) (hok : Settled clockHz P act) (h : P.next source clockHz act = some P') :
    Right clockHz P' := by
  obtain ⟨hi, hdivides, hlog⟩ := hr
  have hdivides' : P'.initialised = true → P'.frequencyHz.toNat ∣ clockHz.toNat := by
    unfold Periodic.next at h
    cases act <;> grind [Settled]
  have hgrows : P'.log = P.log ∨ ∃ call, act = .convert call ∧
      P'.log = P.log ++ [⟨P.frequencyHz, P.period, call, call.answer P.conversions⟩] := by
    unfold Periodic.next at h
    cases act <;> grind
  refine ⟨hi.next h, hdivides', ?_⟩
  rcases hgrows with hsame | ⟨call, rfl, hgrown⟩
  · rwa [hsame]
  · intro a ha
    rw [hgrown, List.mem_append, List.mem_singleton] at ha
    rcases ha with ha | rfl
    · exact hlog a ha
    · obtain ⟨hinit, hpos, hrate, hperiod⟩ := hi hok
      have hconv : P.conversions = Conversions.periodic P.frequencyHz.toUInt64 := by
        rw [conversions, freqHz, hrate]
      rw [hconv, hperiod, UInt32.toNat_div]
      exact ⟨rfl, isSome_answer hpos call, Nat.mul_div_cancel' (hdivides hinit)⟩

/-- **The periodic driver converts at the rate of its ticks**: in every run that converts only after a core has
started and initialises with a rate that divides the clock's, a conversion never divides by 0 and depends on the
argument and on the rate of `initialise` alone, and the clock counts that rate times the length of a tick. -/
theorem converts_at_tick_rate {acts : List (Act C)}
    (hok : Meets (Periodic.next source clockHz) (Settled clockHz) boot acts)
    (h : run (Periodic.next source clockHz) boot acts = some P) :
    ∀ a ∈ P.log, a.result = a.call.answer (Conversions.periodic a.frequencyHz.toUInt64) ∧ a.result.isSome ∧
      a.frequencyHz.toNat * a.period.toNat = clockHz.toNat := by
  have hboot : Right clockHz (boot : Periodic C) := ⟨rated_boot, by simp [boot], by simp [boot]⟩
  exact (run_invariant_of_meets (fun _ _ _ hr hok hstep => hr.next hok hstep) hboot hok h).log

/-- A driver that is initialised, started, asked, stopped and asked again. -/
def askedTwice : List (Act (Fin 1)) :=
  [.initialise 1000, .start 0, .convert (.fromUnit .milliseconds 5), .stop 0,
    .convert (.toUnit .milliseconds 5)]

theorem askedTwice_converts : Meets (Periodic.next .systick 16000000) (Settled 16000000) boot askedTwice ∧
    ∃ P, run (Periodic.next .systick 16000000) boot askedTwice = some P ∧
      P.log.map Converted.result = [some 5, some 5] ∧
      ∀ a ∈ P.log, a.result = a.call.answer (Conversions.periodic a.frequencyHz.toUInt64) ∧ a.result.isSome ∧
        a.frequencyHz.toNat * a.period.toNat = 16000000 := by
  have hok : Meets (Periodic.next .systick 16000000) (Settled 16000000) boot askedTwice := by decide +kernel
  obtain ⟨P, hP, hlog⟩ := Option.map_eq_some_iff.1
    (show (run (Periodic.next .systick 16000000) boot askedTwice).map (fun P => P.log.map Converted.result) =
      some [some 5, some 5] by decide +kernel)
  exact ⟨hok, P, hP, hlog, converts_at_tick_rate hok hP⟩

/-- Asked before the first start, the port has no rate: 5 ms are 0 ticks, which they are not after it, and ticks
become milliseconds by a division by 0. -/
theorem converts_without_rate :
    ([.systick, .systickSmp, .mtime] : List PeriodicSource).map (fun source =>
      (run (Periodic.next source 16000000) (boot : Periodic (Fin 1))
        [.initialise 1000, .convert (.fromUnit .milliseconds 5), .convert (.toUnit .milliseconds 5), .start 0,
          .convert (.fromUnit .milliseconds 5), .convert (.toUnit .milliseconds 5)]).map
        (fun P => P.log.map Converted.result)) = List.replicate 3 (some [some 0, none, some 5, some 5]) := by
  decide +kernel

end Periodic

/-! ### The drivers at work -/

/-- The conversions of a driver at its rate; of the periodic driver, once a core has started. -/
inductive Converts : UInt32 → Conversions → Prop
  | tickless (hz : UInt32) : Converts hz (Conversions.tickless hz)
  | simulation (hz : UInt32) : Converts hz (Conversions.simulation hz)
  | periodic {C : Type} [DecidableEq C] {source : PeriodicSource} {clockHz : UInt32}
      {acts : List (Periodic.Act C)} {P : Periodic C}
      (h : run (Periodic.next source clockHz) Periodic.boot acts = some P) (hup : P.setUp = true) :
      Converts P.frequencyHz P.conversions

variable {hz : UInt32} {D D' : Conversions}

theorem Converts.eq (h : Converts hz D) : D = Conversions.periodic hz.toUInt64 := by
  cases h with
  | tickless => exact Conversions.tickless_eq hz
  | simulation => exact Conversions.simulation_eq hz
  | periodic h hup => rw [Periodic.conversions, Periodic.freqHz, (Periodic.rated_of_run h hup).2.2.1]

/-- **Times become the fewest ticks that last as long**, without overflow on the way and monotonically, and come
back as they were where a tick is short enough. -/
theorem ticks_least (hpos : 0 < hz) (hD : Converts hz D) (unit : TimeUnit) :
    (∀ x, IsLeast {n : ℕ | (x.toNat : ℚ) / unit.perSecond.toNat ≤ (n : ℚ) / hz.toNat} (D.fromUnit unit x).toNat ∧
      x.toNat * hz.toNat + unit.perSecond.toNat < 2 ^ 64) ∧
    (∀ x y, x ≤ y → D.fromUnit unit x ≤ D.fromUnit unit y) ∧
    (2 * unit.perSecond.toNat - 1 ≤ hz.toNat → ∀ x, D.toUnit unit (D.fromUnit unit x) = some x.toUInt64) := by
  have hhz : 0 < hz.toNat := UInt32.lt_iff_toNat_lt.1 hpos
  have hu := unit.perSecond_pos
  rw [hD.eq]
  simp only [Conversions.periodic_fromUnit, Conversions.periodic_toUnit]
  refine ⟨fun x => ⟨?_, ticksOf_fits unit hz x⟩, ?_, ?_⟩
  · rw [toNat_ticksOf]
    exact isLeast_ceil hu hhz
  · intro x y hxy
    rw [UInt64.le_iff_toNat_le, toNat_ticksOf, toNat_ticksOf]
    have hmul := Nat.mul_le_mul_right hz.toNat (UInt32.le_iff_toNat_le.1 hxy)
    exact Nat.div_le_div_right (by omega)
  · intro hfast x
    have hround : ((x.toNat * hz.toNat + unit.perSecond.toNat - 1) / unit.perSecond.toNat * unit.perSecond.toNat +
        hz.toNat / 2) / hz.toNat = x.toNat := ceil_round_trip hu (by omega)
    have hfits : (ticksOf unit hz.toUInt64 x).toNat * unit.perSecond.toNat + hz.toNat / 2 < 2 ^ 64 := by
      rw [toNat_ticksOf]
      have hle := Nat.div_mul_le_self (x.toNat * hz.toNat + unit.perSecond.toNat - 1) unit.perSecond.toNat
      have := toNat_mul_le x hz
      have := unit.perSecond_le
      have := hz.toNat_lt
      omega
    obtain ⟨r, hr, hval⟩ := unitsOf_eq hpos hfits
    rw [toNat_ticksOf, hround] at hval
    rw [hr, ← UInt64.toNat_inj.1 (hval.trans (UInt32.toNat_toUInt64 x).symm)]

theorem ticks_least_simulation : 0 < (1000 : UInt32) ∧
    ((Conversions.simulation 1000).fromUnit .microseconds 1001).toNat = 2 ∧
    IsLeast {n : ℕ | ((1001 : UInt32).toNat : ℚ) / (1000000 : UInt64).toNat ≤ (n : ℚ) / (1000 : UInt32).toNat}
      ((Conversions.simulation 1000).fromUnit .microseconds 1001).toNat :=
  ⟨by decide, by decide +kernel, ((ticks_least (by decide) (.simulation 1000) .microseconds).1 1001).1⟩

end Cyros.Time
