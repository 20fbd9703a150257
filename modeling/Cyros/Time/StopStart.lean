import Cyros.Time.Filling

/-!
# Stopping and starting again

`stop` turns the delivery of the timer interrupt off, disarms the port under the tickless driver, and marks the core as
not started; the timers stay in the table.  The next `start` sets the port up again.  The deadlines are absolute, and the
count that they are measured in is the port's, so everything hangs on what `cyros_port_time_setup` does to it: both modes
of the SysTick source set it to zero, and so does the periodic mode of the MTIME source on the core that counts for all.

* `Restarts` is a core of the time drivers with `stop`, and with the count as the sources keep it.  `readings` are the
  values that `time::now()` returned, `held` the timers that were live when `stop` returned and that have neither been
  cancelled nor fired since.  A reading is one step here, and `start` and `stop` are called by threads.
* `Steady` is the condition: a setup that sets the count to zero finds it there, and no deadline wraps.
* `stop_start_keeps_time`: then the readings never decrease, and what is held stays in its slot with its deadline until
  it is cancelled or its deadline has come.
-/

namespace Cyros.Time

open Cyros.Lib

variable {C A : Type}

/-- The time source of a core.  One core of the MTIME source counts the periodic ticks for all. -/
inductive Source
  | systick
  | mtime (timeCore : Bool)
  deriving DecidableEq, Repr

/-- Whether `cyros_port_time_setup` sets the count to zero. -/
def Source.resets : Source → Driver → Bool
  | .systick, _ => true
  | .mtime timeCore, .periodic => timeCore
  | .mtime _, .tickless => false

/-- Whether the count is another core's. -/
def Source.borrowed : Source → Driver → Bool
  | .mtime false, .periodic => true
  | _, _ => false

/-- The interrupt of the periodic mode: every tick is delivered. -/
def periodicTick : OneShot DeadlineGate :=
  { mtimeOneShot with interrupt := fun p _ => (p, p.delivery) }

def oneShotOf : Driver → OneShot DeadlineGate
  | .tickless => mtimeOneShot
  | .periodic => periodicTick

/-- The time that the interrupt read. -/
def IsrPlace.time : IsrPlace C A → Option ℕ
  | .out | .entered => none
  | .walk _ now | .moving _ now _ _ | .callback _ now => some now

/-- Where `stop` is. -/
inductive StopPlace
  | out
  | disabled
  | disarmed
  deriving DecidableEq, Repr

structure Restarts (C A : Type) where
  core : Core DeadlineGate C A
  stop : StopPlace
  readings : List ℕ
  held : Index → Option (Slot C A)

namespace Restarts

inductive Act (C A : Type)
  | core (act : Time.Act C A)
  | now
  | irqDisable
  | disarm
  | stopped
  /-- The core that counts for all is set up. -/
  | elsewhere

def boot (now : ℕ) : Restarts C A := ⟨.boot ⟨never, false⟩ now, .out, [], fun _ => none⟩

abbrev slot (S : Restarts C A) (i : Index) : Slot C A := S.core.table.slots i

/-- The slot that a step writes to. -/
def written (S : Core DeadlineGate C A) : Time.Act C A → Option Index
  | .scheduleAt tp cb arg => (Nested.filled S (.scheduleAt tp cb arg)).map Prod.fst
  | .scheduleRecurring interval cb arg => (Nested.filled S (.scheduleRecurring interval cb arg)).map Prod.fst
  | .cancel id => if id = 0 then none else S.table.findSlot id
  | .look =>
      match S.isr with
      | .walk i now =>
          if h : i < maxScheduledCallbacks then
            if (S.table.slots ⟨i, h⟩).id ≠ 0 ∧ (S.table.slots ⟨i, h⟩).when ≤ now then some ⟨i, h⟩ else none
          else none
      | _ => none
  | .move =>
      match S.isr with
      | .moving i _ _ _ => some i
      | _ => none
  | _ => none

/-- The timer that is cancelled or begins to fire. -/
def dropped (S : Restarts C A) (act : Time.Act C A) : Option Index :=
  match act with
  | .cancel _ | .look => written S.core act
  | _ => none

def drop (held : Index → Option (Slot C A)) : Option Index → Index → Option (Slot C A)
  | some i => Function.update held i none
  | none => held

/-- What a setup does to the count. -/
def recount (source : Source) (driver : Driver) (act : Time.Act C A) (core : Core DeadlineGate C A) :
    Core DeadlineGate C A :=
  match act with
  | .setUp => if source.resets driver then { core with now := 0 } else core
  | _ => core

/-- **One step.** -/
def next (source : Source) (driver : Driver) (S : Restarts C A) : Act C A → Option (Restarts C A)
  | .core act => (S.core.next (oneShotOf driver) driver act).map fun core =>
      { S with core := recount source driver act core, held := drop S.held (S.dropped act) }
  | .now => some { S with readings := S.core.now :: S.readings }
  | .irqDisable =>
      match S.stop, S.core.startPlace, S.core.isr with
      | .out, .live, .out => some { S with
          core := { S.core with port := { S.core.port with delivery := false } }
          stop := .disabled }
      | _, _, _ => none
  | .disarm =>
      match S.stop, driver with
      | .disabled, .tickless => some { S with
          core := { S.core with port := (oneShotOf driver).disarm S.core.port }
          stop := .disarmed }
      | _, _ => none
  | .stopped =>
      match S.stop, driver with
      | .disarmed, .tickless | .disabled, .periodic => some { S with
          core := { S.core with table := { S.core.table with started := false }, startPlace := .before }
          stop := .out
          held := fun i => if (S.slot i).id ≠ 0 then some (S.slot i) else none }
      | _, _ => none
  | .elsewhere =>
      if source.borrowed driver then some { S with core := { S.core with now := 0 } } else none

/-- **What does not happen**: a setup sets the count back, and a deadline wraps. -/
def Steady (source : Source) (driver : Driver) (S : Restarts C A) : Act C A → Prop
  | .core .setUp => source.resets driver = true → S.core.now = 0
  | .core .anchor => ∀ i, S.core.now + (S.slot i).period < tickSize
  | .core (.scheduleRecurring interval _ _) => S.core.now + interval < tickSize
  | .core .look | .core .move => Core.moveFits S.core.table S.core.isr
  | .elsewhere => S.core.now = 0
  | _ => True

instance (source : Source) (driver : Driver) (S : Restarts C A) (act : Act C A) :
    Decidable (Steady source driver S act) :=
  match act with
  | .core .setUp => inferInstanceAs (Decidable (_ → _))
  | .core .anchor => inferInstanceAs (Decidable (∀ _, _))
  | .core (.scheduleRecurring ..) => inferInstanceAs (Decidable (_ < _))
  | .core .look | .core .move => inferInstanceAs (Decidable (Core.moveFits S.core.table S.core.isr))
  | .elsewhere => inferInstanceAs (Decidable (_ = _))
  | .core (.tick _) | .core .irqEnable | .core (.scheduleAt ..) | .core (.cancel _) | .core .interrupt
  | .core .readTime | .core .ret | .core .leave | .now | .irqDisable | .disarm | .stopped => isTrue trivial

/-! ### What a step of the drivers leaves alone -/

section Frames

variable {driver : Driver}

theorem delivery_rearmLocked (driver : Driver) (S : Core DeadlineGate C A) :
    (S.rearmLocked (oneShotOf driver) driver).port.delivery = S.port.delivery := by
  unfold Core.rearmLocked
  cases driver with
  | tickless =>
      dsimp only
      split
      · rfl
      · show (if _ then _ else _ : DeadlineGate).delivery = _
        split <;> rfl
  | periodic => rfl

/-- An interrupt leaves the delivery as it is, and is delivered only when it is on. -/
theorem delivery_interrupt (driver : Driver) (p : DeadlineGate) (now : ℕ) :
    ((oneShotOf driver).interrupt p now).1.delivery = p.delivery ∧
      (p.delivery = false → ((oneShotOf driver).interrupt p now).2 = false) := by
  cases driver with
  | tickless =>
      show (if p.armed ≠ never ∧ p.armed ≤ now then (_, _) else (_, _) : DeadlineGate × Bool).1.delivery = _ ∧
        (_ → (if p.armed ≠ never ∧ p.armed ≤ now then (_, _) else (_, _) : DeadlineGate × Bool).2 = false)
      split
      · exact ⟨rfl, fun hoff => hoff⟩
      · exact ⟨rfl, fun _ => rfl⟩
  | periodic => exact ⟨rfl, fun hoff => hoff⟩

/-- What a step leaves alone that is not one of `start` and no interrupt.  `i` is the slot that it writes to. -/
structure Frame (S S' : Core DeadlineGate C A) (i : Option Index) : Prop where
  now : S.now ≤ S'.now
  startPlace : S'.startPlace = S.startPlace
  started : S'.table.started = S.table.started
  delivery : S'.port.delivery = S.port.delivery
  isr : S.isr = .out → S'.isr = .out
  slots : ∀ j, i ≠ some j → S'.table.slots j = S.table.slots j
  time : ∀ n, S'.isr.time = some n → S.isr.time = some n ∨ n = S.now
  moving : ∀ j n cb arg, S'.isr = .moving j n cb arg → i = some j ∨ S.isr = .moving j n cb arg

theorem Frame.refl (S : Core DeadlineGate C A) (i : Option Index) : Frame S S i :=
  ⟨le_refl _, rfl, rfl, rfl, fun h => h, fun _ _ => rfl, fun _ h => .inl h, fun _ _ _ _ h => .inr h⟩

theorem Frame.rearmLocked {S S₁ : Core DeadlineGate C A} {i : Option Index} (h : Frame S S₁ i) :
    Frame S (S₁.rearmLocked (oneShotOf driver) driver) i := by
  have hdelivery := delivery_rearmLocked driver S₁
  obtain ⟨port, hport⟩ := Core.rearmLocked_eq (oneShotOf driver) driver S₁
  rw [hport] at hdelivery ⊢
  exact ⟨h.now, h.startPlace, h.started, hdelivery.trans h.delivery, h.isr, h.slots, h.time, h.moving⟩

theorem Frame.settle {S S₁ : Core DeadlineGate C A} {i : Option Index} (h : Frame S S₁ i) :
    Frame S (S₁.settle (oneShotOf driver) driver) i := by
  unfold Core.settle
  split
  · exact h.rearmLocked
  · exact h

/-- A slot is written to, and nothing else that counts here. -/
theorem frame_setSlot {S : Core DeadlineGate C A} {table : Timetable C A} (hstarted : table.started = S.table.started)
    (hslots : table.slots = S.table.slots) (i : Index) (s : Slot C A) (records : ℕ → Option (Record C A))
    (due : List ℕ) :
    Frame S { S with table := table.setSlot i s, records := records, due := due } (some i) where
  now := le_refl _
  startPlace := rfl
  started := hstarted
  delivery := rfl
  isr := fun h => h
  slots := by
    intro j hj
    show (table.setSlot i s).slots j = S.table.slots j
    rw [Timetable.setSlot_of_ne _ _ fun hji => hj (congrArg some hji.symm), hslots]
  time := fun _ h => .inl h
  moving := fun _ _ _ _ h => .inr h

theorem frame_fill (S : Core DeadlineGate C A) (i : Index) (when period : ℕ) (cb : C) (arg : Option A) :
    Frame S (S.fill (oneShotOf driver) driver i when period cb arg).2 (some i) := by
  obtain ⟨hstarted, hslots⟩ := S.table.nextHandleId_same
  exact Frame.settle (frame_setSlot hstarted hslots i _ _ S.due)

/-- The walk goes on: the interrupt has the time that it had. -/
theorem frame_isr {S S₁ : Core DeadlineGate C A} {i : Option Index} (h : Frame S S₁ i) (place : IsrPlace C A)
    (hin : S.isr ≠ .out) (htime : place.time = S.isr.time)
    (hmoving : ∀ j n cb arg, place = .moving j n cb arg → i = some j)
    (records : ℕ → Option (Record C A)) (ranNow due : List ℕ) :
    Frame S { S₁ with isr := place, records := records, ranNow := ranNow, due := due } i where
  now := h.now
  startPlace := h.startPlace
  started := h.started
  delivery := h.delivery
  isr := fun hout => absurd hout hin
  slots := h.slots
  time := fun _ hn => .inl (htime ▸ hn)
  moving := fun j n cb arg hplace => .inl (hmoving j n cb arg hplace)

theorem frame_moveOn (S : Core DeadlineGate C A) {i : Index} {now : ℕ} {cb : Option C} {arg : Option A}
    (htime : S.isr.time = some now) : Frame S (S.moveOn i now cb arg) (some i) := by
  have hin : S.isr ≠ .out := by
    intro hout
    rw [hout] at htime
    cases htime
  have hset := fun s => frame_setSlot (S := S) rfl rfl i s S.records S.due
  unfold Core.moveOn
  dsimp only
  split
  · refine frame_isr (hset _) (.moving i now cb arg) hin htime.symm ?_ S.records S.ranNow S.due
    rintro j n cb arg ⟨⟩
    rfl
  · refine frame_isr (hset _) (.callback i now) hin htime.symm ?_ _ _ _
    rintro j n cb arg ⟨⟩

theorem frame_fireDue (S : Core DeadlineGate C A) {i : ℕ} {now : ℕ} (hi : i < maxScheduledCallbacks)
    (hisr : S.isr = .walk i now) : Frame S (S.fireDue ⟨i, hi⟩ now) (written S .look) := by
  have htime : S.isr.time = some now := by rw [hisr]; rfl
  have hin : S.isr ≠ .out := by simp [hisr]
  simp only [written, hisr, dif_pos hi]
  unfold Core.fireDue
  dsimp only
  split
  · split
    · have hset := frame_setSlot (S := S) rfl rfl ⟨i, hi⟩ .free S.records S.due
      refine frame_isr hset (.callback ⟨i, hi⟩ now) hin htime.symm ?_ _ _ _
      rintro j n cb arg ⟨⟩
    · exact frame_moveOn S htime
  · refine frame_isr (Frame.refl S none) (.walk (i + 1) now) hin htime.symm ?_ S.records S.ranNow S.due
    rintro j n cb arg ⟨⟩

/-- **What a step leaves alone.** -/
theorem frame_next {S S' : Core DeadlineGate C A} {act : Time.Act C A}
    (h : S.next (oneShotOf driver) driver act = some S')
    (hact : act ≠ .setUp ∧ act ≠ .anchor ∧ act ≠ .irqEnable ∧ act ≠ .interrupt) : Frame S S' (written S act) := by
  cases Core.effect_of_next h with
  | tick =>
      exact ⟨Nat.le_add_right .., rfl, rfl, rfl, fun hout => hout, fun _ _ => rfl, fun _ hn => .inl hn,
        fun _ _ _ _ hplace => .inr hplace⟩
  | setUp => exact absurd rfl hact.1
  | anchor => exact absurd rfl hact.2.1
  | irqEnable => exact absurd rfl hact.2.2.1
  | interrupt => exact absurd rfl hact.2.2.2
  | @scheduleAt tp cb arg =>
      cases cb with
      | none => exact .refl S _
      | some cb =>
          simp only [written, Nested.filled, Core.scheduleAt]
          cases hfound : S.table.findSlot 0 with
          | none => exact .refl S _
          | some i => exact frame_fill S i tp 0 cb arg
  | @scheduleRecurring interval cb arg =>
      cases cb with
      | none => exact .refl S _
      | some cb =>
          simp only [written, Nested.filled, Core.scheduleRecurring]
          cases hfound : S.table.findSlot 0 with
          | none => exact .refl S _
          | some i =>
              by_cases hzero : interval = 0
              · simp only [if_pos hzero]
                exact .refl S _
              · simp only [if_neg hzero]
                exact frame_fill S i (if S.table.started then (S.now + interval) % tickSize else 0) interval cb arg
  | @cancel id =>
      simp only [written, Core.cancel]
      by_cases hid : id = 0
      · simp only [if_pos hid]
        exact .refl S _
      · simp only [if_neg hid]
        cases S.table.findSlot id with
        | none => exact .refl S _
        | some i => exact Frame.settle (frame_setSlot rfl rfl i .free _ _)
  | readTime hisr =>
      refine ⟨le_refl _, rfl, rfl, rfl, fun hout => absurd (hisr.symm.trans hout) (by simp), fun _ _ => rfl,
        fun n hn => .inr (Option.some.inj hn).symm, ?_⟩
      rintro j n cb arg ⟨⟩
  | @look i now hisr => exact frame_fireDue S i.isLt hisr
  | move hisr =>
      simp only [written, hisr]
      exact frame_moveOn S (by rw [hisr]; rfl)
  | @ret i now hisr =>
      refine frame_isr (Frame.refl S none) (.walk (i + 1) now) (by simp [hisr]) (by rw [hisr]; rfl) ?_ S.records
        S.ranNow S.due
      rintro j n cb arg ⟨⟩
  | leave =>
      have hrearm : Frame S (S.rearmLocked (oneShotOf driver) driver) none := (Frame.refl S none).rearmLocked
      refine ⟨hrearm.now, hrearm.startPlace, hrearm.started, hrearm.delivery, fun _ => rfl, hrearm.slots, ?_, ?_⟩
      · rintro n ⟨⟩
      · rintro j n cb arg ⟨⟩

/-- A turn that moves a recurring timer on leaves it no deadline of zero. -/
theorem moveOn_anchored {S : Core DeadlineGate C A} {i : Index} {now : ℕ} {cb : Option C} {arg : Option A}
    (hfits : (S.table.slots i).when + (S.table.slots i).period < tickSize)
    (hperiod : ((S.moveOn i now cb arg).table.slots i).period ≠ 0) :
    ((S.moveOn i now cb arg).table.slots i).when ≠ 0 := by
  have hslot : (S.moveOn i now cb arg).table.slots i =
      { S.table.slots i with when := ((S.table.slots i).when + (S.table.slots i).period) % tickSize } := by
    unfold Core.moveOn
    dsimp only
    split
    · exact Timetable.setSlot_self ..
    · exact Timetable.setSlot_self ..
  rw [hslot] at hperiod ⊢
  dsimp only at hperiod ⊢
  rw [Nat.mod_eq_of_lt hfits]
  omega

/-- What a step writes, on a started core: no recurring timer with the deadline zero. -/
theorem written_anchored {S S' : Core DeadlineGate C A} {act : Time.Act C A}
    (h : S.next (oneShotOf driver) driver act = some S') (hstarted : S.table.started = true)
    (hrecurring : ∀ interval cb arg, act = .scheduleRecurring interval cb arg → S.now + interval < tickSize)
    (hmove : act = .look ∨ act = .move → Core.moveFits S.table S.isr) {i : Index} (hi : written S act = some i)
    (hlive : (S'.table.slots i).id ≠ 0) (hperiod : (S'.table.slots i).period ≠ 0) :
    (S'.table.slots i).when ≠ 0 := by
  cases Core.effect_of_next h with
  | tick | setUp | anchor | irqEnable | interrupt | readTime | ret | leave => cases hi
  | @scheduleAt tp cb arg =>
      obtain ⟨⟨j, t⟩, hfilled, rfl⟩ := Option.map_eq_some_iff.1 hi
      have hholds := ((Nested.schedules_at (oneShotOf driver) driver S tp cb arg).filled j t hfilled).2.1
      rw [hholds.period] at hperiod
      rw [hholds.when]
      have hlate := Nested.filled_late hstarted (by rintro _ _ _ ⟨⟩) hfilled hperiod
      omega
  | @scheduleRecurring interval cb arg =>
      obtain ⟨⟨j, t⟩, hfilled, rfl⟩ := Option.map_eq_some_iff.1 hi
      have hholds :=
        ((Nested.schedules_recurring (oneShotOf driver) driver S interval cb arg).filled j t hfilled).2.1
      rw [hholds.period] at hperiod
      rw [hholds.when]
      have hroom := hrecurring interval cb arg rfl
      have hlate := Nested.filled_late hstarted (by rintro _ _ _ ⟨⟩; exact hroom) hfilled hperiod
      omega
  | @cancel id =>
      have htable := (Nested.cancel_spec (oneShotOf driver) driver S id).2
      rw [show (if id = 0 then none else S.table.findSlot id) = some i from hi] at htable
      rw [htable, Timetable.setSlot_self] at hlive
      exact absurd rfl hlive
  | @look k now hisr =>
      have hfits := hmove (.inl rfl)
      simp only [written, hisr, dif_pos k.isLt] at hi
      split at hi
      · next hdue =>
        cases hi
        rw [hisr] at hfits
        unfold Core.fireDue at hlive hperiod ⊢
        simp only [if_pos hdue] at hlive hperiod ⊢
        split at hlive
        · exact absurd (by rw [Core.callCallback, Timetable.setSlot_self]; rfl) hlive
        · next hp =>
          rw [if_neg hp] at hperiod ⊢
          exact moveOn_anchored (hfits k.isLt hdue.2) hperiod
      · cases hi
  | move hisr =>
      have hfits := hmove (.inr rfl)
      simp only [written, hisr, Option.some.injEq] at hi
      subst hi
      rw [hisr] at hfits
      exact moveOn_anchored hfits hperiod

end Frames

/-! ### The invariant -/

variable {S S' : Restarts C A} {source : Source} {driver : Driver}

/-- The core is being stopped, is stopped, or is being started. -/
def Quiet (S : Restarts C A) : Prop := S.core.startPlace ≠ .live ∨ S.stop ≠ .out

/-- **The invariant.**  While the core is quiet nothing fires, on a started core no live timer waits for `start`, and
what is held is as it was. -/
structure Inv (S : Restarts C A) : Prop where
  read : ∀ r ∈ S.readings, r ≤ S.core.now
  order : S.readings.Pairwise (· ≥ ·)
  time : ∀ n, S.core.isr.time = some n → n ≤ S.core.now
  quiet : S.Quiet → S.core.port.delivery = false ∧ S.core.isr = .out
  stopping : S.stop ≠ .out → S.core.startPlace = .live
  started : S.core.startPlace = .anchored ∨ S.core.startPlace = .live → S.core.table.started = true
  anchored : S.core.table.started = true → ∀ i, ¬Timetable.Pended (S.slot i)
  held : ∀ i s, S.held i = some s → S.slot i = s ∧ s.id ≠ 0 ∧ ¬Timetable.Pended s
  moving : ∀ i n cb arg, S.core.isr = .moving i n cb arg → S.held i = none

theorem Inv.boot (now : ℕ) : (boot now : Restarts C A).Inv where
  read := fun r hr => absurd hr List.not_mem_nil
  order := .nil
  time := by rintro n ⟨⟩
  quiet := fun _ => ⟨rfl, rfl⟩
  stopping := fun h => absurd rfl h
  started := by
    rintro (hplace | hplace)
    · cases hplace
    · cases hplace
  anchored := by rintro ⟨⟩
  held := by rintro i s ⟨⟩
  moving := by rintro i n cb arg ⟨⟩

/-- A step that leaves the rest alone keeps the invariant when it writes to no timer that stays held. -/
theorem Inv.frame (h : S.Inv) {core : Core DeadlineGate C A} {held : Index → Option (Slot C A)} {i : Option Index}
    (hframe : Frame S.core core i) (hheld : ∀ j s, held j = some s → S.held j = some s)
    (hdropped : ∀ j, i = some j → held j = none)
    (hwritten : S.core.table.started = true → ∀ j, i = some j → ¬Timetable.Pended (core.table.slots j)) :
    Inv { S with core := core, held := held } where
  read := fun r hr => (h.read r hr).trans hframe.now
  order := h.order
  time := by
    intro n hn
    refine le_trans ?_ hframe.now
    rcases hframe.time n hn with hold | rfl
    · exact h.time n hold
    · exact le_refl _
  quiet := by
    intro hquiet
    have hold : S.Quiet := hquiet.imp_left fun hplace => hframe.startPlace ▸ hplace
    exact ⟨hframe.delivery.trans (h.quiet hold).1, hframe.isr (h.quiet hold).2⟩
  stopping := fun hstop => hframe.startPlace.trans (h.stopping hstop)
  started := fun hplace => hframe.started.trans (h.started (hframe.startPlace ▸ hplace))
  anchored := by
    intro hstarted j
    have hold : S.core.table.started = true := hframe.started.symm.trans hstarted
    by_cases hj : i = some j
    · exact hwritten hold j hj
    · show ¬Timetable.Pended (core.table.slots j)
      rw [hframe.slots j hj]
      exact h.anchored hold j
  held := by
    intro j s hs
    have hold := h.held j s (hheld j s hs)
    have hj : i ≠ some j := by
      intro hj
      have hnone := hdropped j hj
      rw [show held j = some s from hs] at hnone
      cases hnone
    exact ⟨(hframe.slots j hj).trans hold.1, hold.2⟩
  moving := by
    intro j n cb arg hplace
    rcases hframe.moving j n cb arg hplace with hj | hold
    · exact hdropped j hj
    · refine Option.eq_none_iff_forall_ne_some.2 fun s hs => ?_
      have hnone := h.moving j n cb arg hold
      rw [hheld j s hs] at hnone
      cases hnone

theorem held_of_drop {held : Index → Option (Slot C A)} {i : Option Index} {j : Index} {s : Slot C A}
    (h : drop held i j = some s) : held j = some s := by
  cases i with
  | none => exact h
  | some i =>
      by_cases hj : j = i
      · subst hj
        rw [drop, Function.update_self] at h
        cases h
      · rwa [drop, Function.update_of_ne hj] at h

/-- A slot that is written to is not held, or no longer. -/
theorem Inv.drop_written (h : S.Inv) {core : Core DeadlineGate C A} {act : Time.Act C A}
    (hcore : S.core.next (oneShotOf driver) driver act = some core) {j : Index} (hj : written S.core act = some j) :
    drop S.held (S.dropped act) j = none := by
  have hfree : (S.slot j).id = 0 → S.held j = none := by
    intro hid
    refine Option.eq_none_iff_forall_ne_some.2 fun s hs => ?_
    obtain ⟨hslot, hlive, -⟩ := h.held j s hs
    exact hlive (hslot ▸ hid)
  cases Core.effect_of_next hcore with
  | tick | setUp | anchor | irqEnable | interrupt | readTime | ret | leave => cases hj
  | @scheduleAt tp cb arg =>
      obtain ⟨⟨i, t⟩, hfilled, rfl⟩ := Option.map_eq_some_iff.1 hj
      exact hfree ((Nested.schedules_at (oneShotOf driver) driver S.core tp cb arg).filled i t hfilled).1
  | @scheduleRecurring interval cb arg =>
      obtain ⟨⟨i, t⟩, hfilled, rfl⟩ := Option.map_eq_some_iff.1 hj
      exact hfree ((Nested.schedules_recurring (oneShotOf driver) driver S.core interval cb arg).filled i t hfilled).1
  | @cancel id =>
      rw [show S.dropped (.cancel id) = some j from hj]
      exact Function.update_self ..
  | look =>
      rw [show S.dropped .look = some j from hj]
      exact Function.update_self ..
  | move hisr =>
      simp only [written, hisr, Option.some.injEq] at hj
      subst hj
      exact h.moving _ _ _ _ hisr

/-- A step of a driver that is not one of `start` and no interrupt. -/
theorem Inv.core (h : S.Inv) {core : Core DeadlineGate C A} {act : Time.Act C A}
    (hact : act ≠ .setUp ∧ act ≠ .anchor ∧ act ≠ .irqEnable ∧ act ≠ .interrupt)
    (hsteady : Steady source driver S (.core act))
    (hcore : S.core.next (oneShotOf driver) driver act = some core) :
    Inv { S with core := core, held := drop S.held (S.dropped act) } := by
  refine h.frame (frame_next hcore hact) (fun _ _ => held_of_drop) (fun _ => h.drop_written hcore) ?_
  rintro hstarted j hj ⟨hlive, hperiod, hwhen⟩
  refine written_anchored hcore hstarted ?_ ?_ hj hlive hperiod hwhen
  · rintro interval cb arg rfl
    exact hsteady
  · rintro (rfl | rfl)
    · exact hsteady
    · exact hsteady

theorem Inv.setUp (h : S.Inv) {core : Core DeadlineGate C A} (hsteady : Steady source driver S (.core .setUp))
    (hcore : S.core.next (oneShotOf driver) driver .setUp = some core) :
    Inv { S with core := recount source driver .setUp core } := by
  cases Core.effect_of_next hcore with
  | setUp hplace hisr =>
    have hdelivery : ((oneShotOf driver).setup S.core.port).delivery = false := by cases driver <;> rfl
    have hset : Inv { S with core :=
        { S.core with startPlace := .setUp, port := (oneShotOf driver).setup S.core.port } } := by
      refine ⟨h.read, h.order, h.time, fun _ => ⟨hdelivery, hisr⟩, fun hstop => ?_, ?_, h.anchored, h.held, h.moving⟩
      · cases hplace.symm.trans (h.stopping hstop)
      · rintro (hlater | hlater)
        · cases hlater
        · cases hlater
    unfold recount
    dsimp only
    split
    · next hresets =>
      -- it was at zero
      have hnow := hsteady hresets
      exact { hset with
        read := fun r hr => hnow ▸ h.read r hr
        time := fun n hn => hnow ▸ h.time n hn }
    · exact hset

theorem anchored_eq {now : ℕ} {s : Slot C A} (h : ¬Timetable.Pended s) : Timetable.anchored now s = s := if_neg h

theorem not_pended_anchored {now : ℕ} {s : Slot C A} (h : now + s.period < tickSize) :
    ¬Timetable.Pended (Timetable.anchored now s) := by
  unfold Timetable.anchored
  split
  · next hpended =>
    rintro ⟨-, -, hwhen⟩
    have hsum : (now + s.period) % tickSize = 0 := hwhen
    rw [Nat.mod_eq_of_lt h] at hsum
    exact hpended.2.1 (Nat.eq_zero_of_add_eq_zero_left hsum)
  · assumption

theorem Inv.anchor (h : S.Inv) {core : Core DeadlineGate C A} (hsteady : Steady source driver S (.core .anchor))
    (hcore : S.core.next (oneShotOf driver) driver .anchor = some core) : Inv { S with core := core } := by
  cases Core.effect_of_next hcore with
  | anchor hplace hisr =>
    have hquiet := h.quiet (.inl (by rw [hplace]; simp))
    let armed := { S.core with
      table := { S.core.table.anchorPendedRecurring S.core.now with started := true }
      startPlace := .anchored
      records := fun id => (S.core.records id).map (Record.anchored S.core.now) }
    have hdelivery := delivery_rearmLocked driver armed
    obtain ⟨port, hport⟩ := Core.rearmLocked_eq (oneShotOf driver) driver armed
    rw [Core.anchor, hport]
    rw [hport] at hdelivery
    refine ⟨h.read, h.order, h.time, fun _ => ⟨hdelivery.trans hquiet.1, hquiet.2⟩, fun hstop => ?_, fun _ => rfl,
      fun _ i => not_pended_anchored (hsteady i), fun i s hs => ?_, h.moving⟩
    · cases hplace.symm.trans (h.stopping hstop)
    · obtain ⟨hslot, hlive, hpended⟩ := h.held i s hs
      refine ⟨?_, hlive, hpended⟩
      show Timetable.anchored S.core.now (S.slot i) = s
      rw [hslot, anchored_eq hpended]

theorem Inv.irqEnable (h : S.Inv) {core : Core DeadlineGate C A}
    (hcore : S.core.next (oneShotOf driver) driver .irqEnable = some core) : Inv { S with core := core } := by
  cases Core.effect_of_next hcore with
  | irqEnable hplace hisr =>
    refine ⟨h.read, h.order, h.time, ?_, fun _ => rfl, fun _ => h.started (.inl hplace), h.anchored, h.held, h.moving⟩
    rintro (hlive | hstop)
    · exact absurd rfl hlive
    · cases hplace.symm.trans (h.stopping hstop)

theorem Inv.interrupt (h : S.Inv) {core : Core DeadlineGate C A}
    (hcore : S.core.next (oneShotOf driver) driver .interrupt = some core) : Inv { S with core := core } := by
  cases Core.effect_of_next hcore with
  | interrupt hisr hstarted =>
    obtain ⟨hdelivery, hoff⟩ := delivery_interrupt driver S.core.port S.core.now
    refine ⟨h.read, h.order, ?_, fun hquiet => ?_, h.stopping, h.started, h.anchored, h.held, ?_⟩
    · intro n hn
      dsimp only at hn
      split at hn <;> cases hn
    · have hold := h.quiet hquiet
      refine ⟨hdelivery.trans hold.1, ?_⟩
      show (if _ = true then IsrPlace.entered else IsrPlace.out) = _
      rw [hoff hold.1]
      rfl
    · intro i n cb arg hmoving
      dsimp only at hmoving
      split at hmoving <;> cases hmoving

/-- `stop` returns. -/
theorem Inv.stopped (h : S.Inv) (hstop : S.stop ≠ .out) : Inv { S with
    core := { S.core with table := { S.core.table with started := false }, startPlace := .before }
    stop := .out
    held := fun i => if (S.slot i).id ≠ 0 then some (S.slot i) else none } where
  read := h.read
  order := h.order
  time := h.time
  quiet := fun _ => h.quiet (.inr hstop)
  stopping := fun hout => absurd rfl hout
  started := by
    rintro (hplace | hplace)
    · cases hplace
    · cases hplace
  anchored := by rintro ⟨⟩
  held := by
    intro i s hs
    dsimp only at hs
    split at hs
    · next hlive =>
      cases hs
      exact ⟨rfl, hlive, h.anchored (h.started (.inr (h.stopping hstop))) i⟩
    · cases hs
  moving := by
    intro i n cb arg hmoving
    rw [show S.core.isr = .out from (h.quiet (.inr hstop)).2] at hmoving
    cases hmoving

/-- **A step keeps the invariant.** -/
theorem Inv.next (h : S.Inv) {act : Act C A} (hsteady : Steady source driver S act)
    (hnext : S.next source driver act = some S') : S'.Inv := by
  cases act with
  | core act =>
      obtain ⟨core, hcore, rfl⟩ := Option.map_eq_some_iff.1 hnext
      cases act with
      | setUp => exact h.setUp hsteady hcore
      | anchor => exact h.anchor hsteady hcore
      | irqEnable => exact h.irqEnable hcore
      | interrupt => exact h.interrupt hcore
      | tick _ | scheduleAt _ _ _ | scheduleRecurring _ _ _ | cancel _ | readTime | look | move | ret | leave =>
          exact h.core (by simp) hsteady hcore
  | now =>
      cases hnext
      refine { h with read := fun r hr => ?_, order := List.pairwise_cons.2 ⟨fun r hr => h.read r hr, h.order⟩ }
      rcases List.mem_cons.1 hr with rfl | hr
      · exact le_refl _
      · exact h.read r hr
  | irqDisable =>
      simp only [Restarts.next] at hnext
      split at hnext
      · next hstop hplace hisr =>
        cases hnext
        exact { h with quiet := fun _ => ⟨rfl, hisr⟩, stopping := fun _ => hplace }
      · cases hnext
  | disarm =>
      simp only [Restarts.next] at hnext
      split at hnext
      · next hstop =>
        cases hnext
        have hstop : S.stop ≠ .out := by rw [hstop]; simp
        exact { h with quiet := fun _ => h.quiet (.inr hstop), stopping := fun _ => h.stopping hstop }
      · cases hnext
  | stopped =>
      simp only [Restarts.next] at hnext
      split at hnext
      · next hstop =>
        cases hnext
        exact h.stopped (by rw [hstop]; simp)
      · next hstop =>
        cases hnext
        exact h.stopped (by rw [hstop]; simp)
      · cases hnext
  | elsewhere =>
      simp only [Restarts.next] at hnext
      split at hnext
      · cases hnext
        have hnow : S.core.now = 0 := hsteady
        exact { h with
          read := fun r hr => hnow ▸ h.read r hr
          time := fun n hn => hnow ▸ h.time n hn }
      · cases hnext

/-- A held timer leaves when it is cancelled, and when it fires at its deadline or later. -/
theorem Inv.leaves (h : S.Inv) {act : Act C A} (hnext : S.next source driver act = some S') {i : Index} {s : Slot C A}
    (hs : S.held i = some s) :
    S'.held i = some s ∨ act = .core (.cancel s.id) ∨ act = .core .look ∧ s.when ≤ S.core.now := by
  obtain ⟨hslot, hlive, -⟩ := h.held i s hs
  have hdrop : ∀ {w : Option Index}, w ≠ some i → drop S.held w i = some s := by
    intro w hw
    cases w with
    | none => exact hs
    | some j => rwa [drop, Function.update_of_ne fun hij => hw (congrArg some hij.symm)]
  cases act with
  | core act =>
      obtain ⟨core, hcore, rfl⟩ := Option.map_eq_some_iff.1 hnext
      by_cases hw : S.dropped act = some i
      · refine .inr ?_
        cases Core.effect_of_next hcore with
        | tick | setUp | anchor | irqEnable | scheduleAt | scheduleRecurring | interrupt | readTime | move | ret
        | leave => cases hw
        | cancel =>
            simp only [dropped, written] at hw
            split at hw
            · cases hw
            · rw [← hslot, Timetable.findSlot_id hw]
              exact .inl rfl
        | @look k n hisr =>
            refine .inr ⟨rfl, ?_⟩
            simp only [dropped, written, hisr, dif_pos k.isLt] at hw
            split at hw
            · next hdue =>
              cases hw
              rw [← hslot]
              exact hdue.2.trans (h.time n (by rw [hisr]; rfl))
            · cases hw
      · exact .inl (hdrop hw)
  | now =>
      cases hnext
      exact .inl hs
  | irqDisable | disarm | elsewhere =>
      simp only [Restarts.next] at hnext
      split at hnext
      · cases hnext
        exact .inl hs
      · cases hnext
  | stopped =>
      have hheld : (if (S.slot i).id ≠ 0 then some (S.slot i) else none) = some s := by
        rw [hslot, if_pos hlive]
      simp only [Restarts.next] at hnext
      split at hnext
      · cases hnext
        exact .inl hheld
      · cases hnext
        exact .inl hheld
      · cases hnext

end Restarts

/-! ### Stop and start keep time -/

open Restarts in
/-- **Stop and start keep time.**  In every run in which no setup sets the count back and no deadline wraps, the
readings never decrease, and a timer that was live when `stop` returned is in its slot with the deadline that it had;
it leaves only when it is cancelled or when its deadline has come. -/
theorem stop_start_keeps_time {source : Source} {driver : Driver} {now : ℕ} {acts : List (Restarts.Act C A)}
    {S : Restarts C A} (hsteady : Meets (Restarts.next source driver) (Steady source driver) (boot now) acts)
    (hrun : run (Restarts.next source driver) (boot now) acts = some S) :
    S.readings.Pairwise (· ≥ ·) ∧
      ∀ i s, S.held i = some s → S.slot i = s ∧
        ∀ act S', S.next source driver act = some S' →
          S'.held i = some s ∨ act = .core (.cancel s.id) ∨ act = .core .look ∧ s.when ≤ S.core.now := by
  have hinv : S.Inv := run_invariant_of_meets (fun _ _ _ h hok hnext => h.next hok hnext) (Inv.boot now) hsteady hrun
  refine ⟨hinv.order, fun i s hs => ⟨(hinv.held i s hs).1, fun act S' hnext => ?_⟩⟩
  exact hinv.leaves hnext hs

namespace Restarts

def starts : List (Act Unit Unit) := [.core .setUp, .core .anchor, .core .irqEnable]

def stops : Driver → List (Act Unit Unit)
  | .tickless => [.irqDisable, .disarm, .stopped]
  | .periodic => [.irqDisable, .stopped]

/-- A timer for 150 is scheduled, at 100 the core is stopped, and it is started again. -/
def stopsWithTimer (driver : Driver) : List (Act Unit Unit) :=
  starts ++ [.core (.scheduleAt 150 (some ()) none), .core (.tick 100), .now] ++ stops driver ++ starts ++ [.now]

def timerFor150 : Slot Unit Unit := ⟨1, 150, 0, some (), none⟩

end Restarts

open Restarts in
/-- The tickless mode of the MTIME source: the timer is fifty ticks away before and after. -/
theorem stop_start_keeps_time_mtime :
    ∃ S, run (Restarts.next (.mtime true) .tickless) (boot 0) (stopsWithTimer .tickless) = some S ∧
      S.readings = [100, 100] ∧ S.held 0 = some timerFor150 ∧ S.readings.Pairwise (· ≥ ·) ∧ S.slot 0 = timerFor150 := by
  have hrun : (run (Restarts.next (.mtime true) .tickless) (boot 0) (stopsWithTimer .tickless)).map
      (fun S => (S.readings, S.held 0)) = some ([100, 100], some timerFor150) := by decide +kernel
  obtain ⟨S, hrun, heq⟩ := Option.map_eq_some_iff.1 hrun
  simp only [Prod.mk.injEq] at heq
  obtain ⟨horder, hheld⟩ := stop_start_keeps_time (by decide +kernel) hrun
  exact ⟨S, hrun, heq.1, heq.2, horder, (hheld 0 timerFor150 heq.2).1⟩

open Restarts in
/-- **The count goes back.**  Both modes of the SysTick source, and the periodic mode of the MTIME source on the core
that counts: `now` returns 100 and then 0, and the timer that was fifty ticks away is a hundred and fifty away. -/
theorem stop_start_loses_time :
    (∃ S, run (Restarts.next .systick .tickless) (boot 0) (stopsWithTimer .tickless) = some S ∧
      S.readings = [0, 100] ∧ S.core.now = 0 ∧ S.held 0 = some timerFor150) ∧
    (∃ S, run (Restarts.next .systick .periodic) (boot 0) (stopsWithTimer .periodic) = some S ∧
      S.readings = [0, 100] ∧ S.core.now = 0 ∧ S.held 0 = some timerFor150) ∧
    (∃ S, run (Restarts.next (.mtime true) .periodic) (boot 0) (stopsWithTimer .periodic) = some S ∧
      S.readings = [0, 100] ∧ S.core.now = 0 ∧ S.held 0 = some timerFor150) := by
  have hrun : ∀ source driver, Source.resets source driver = true →
      (run (Restarts.next source driver) (boot 0) (stopsWithTimer driver)).map
        (fun S => (S.readings, S.core.now, S.held 0)) = some ([0, 100], 0, some timerFor150) := by
    intro source driver hresets
    cases source with
    | systick => cases driver <;> decide +kernel
    | mtime timeCore =>
        cases driver with
        | tickless => cases hresets
        | periodic =>
            cases hresets
            decide +kernel
  have hreach : ∀ source driver, Source.resets source driver = true →
      ∃ S, run (Restarts.next source driver) (boot 0) (stopsWithTimer driver) = some S ∧
        S.readings = [0, 100] ∧ S.core.now = 0 ∧ S.held 0 = some timerFor150 := by
    intro source driver hresets
    obtain ⟨S, hrun, heq⟩ := Option.map_eq_some_iff.1 (hrun source driver hresets)
    simp only [Prod.mk.injEq] at heq
    exact ⟨S, hrun, heq.1, heq.2.1, heq.2.2⟩
  exact ⟨hreach _ _ rfl, hreach _ _ rfl, hreach _ _ rfl⟩

end Cyros.Time
