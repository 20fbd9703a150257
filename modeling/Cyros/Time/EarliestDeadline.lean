import Cyros.Time.Timetable

/-!
# The tickless driver drives the earliest deadline

On a started core the port is armed for a deadline no later than that of any live timer whenever no timer
interrupt is under way: every operation that changes the table ends in `rearm_locked`, and so does every
interrupt that reaches the driver.

An interrupt that does not reach the driver must leave the deadline armed for that.  The ports' interrupts
do, except while delivery is off: then they forget a deadline that is reached and call nobody.  `start`
arms first and turns delivery on afterwards, with interrupts open in between.
-/

namespace Cyros.Time

open Cyros.Lib

variable {P C A : Type}

/-! ### The loop of rearm_locked -/

theorem Timetable.foldl_earliest (t : Timetable C A) (is : List Index) (bound : ℕ) :
    is.foldl (fun earliest i => if (t.slots i).id ≠ 0 ∧ (t.slots i).when < earliest then (t.slots i).when
        else earliest) bound ≤ bound ∧
      ∀ i ∈ is, (t.slots i).id ≠ 0 →
        is.foldl (fun earliest i => if (t.slots i).id ≠ 0 ∧ (t.slots i).when < earliest
          then (t.slots i).when else earliest) bound ≤ (t.slots i).when := by
  induction is generalizing bound with
  | nil =>
      refine ⟨le_refl _, ?_⟩
      intro i hi
      cases hi
  | cons j is ih =>
      rw [List.foldl_cons]
      obtain ⟨hle, hall⟩ := ih (if (t.slots j).id ≠ 0 ∧ (t.slots j).when < bound then (t.slots j).when else bound)
      constructor
      · refine hle.trans ?_
        split
        · next h => exact h.2.le
        · exact le_refl _
      · intro i hi hlive
        rcases List.mem_cons.1 hi with rfl | hi
        · refine hle.trans ?_
          split
          · exact le_refl _
          · next h => exact Nat.le_of_not_lt fun hlt => h ⟨hlive, hlt⟩
        · exact hall i hi hlive

theorem Timetable.earliest_le (t : Timetable C A) {i : Index} (hlive : (t.slots i).id ≠ 0) :
    t.earliest ≤ (t.slots i).when :=
  (t.foldl_earliest _ never).2 i (List.mem_finRange i) hlive

namespace Core

/-- The port is armed for no later than any live timer's deadline. -/
def Armed (O : OneShot P) (S : Core P C A) : Prop :=
  ∀ i, (S.table.slots i).id ≠ 0 → (S.table.slots i).when < never → O.armed S.port ≤ (S.table.slots i).when

variable {O : OneShot P} {S S' : Core P C A}

theorem rearmLocked_startPlace (O : OneShot P) (driver : Driver) (S : Core P C A) :
    (S.rearmLocked O driver).startPlace = S.startPlace := by
  obtain ⟨port, h⟩ := rearmLocked_eq O driver S
  rw [h]

/-- **What `rearm_locked` is for.** -/
theorem armed_rearmLocked (S : Core P C A) : Armed O (S.rearmLocked O .tickless) := by
  intro i hlive hnever
  rw [rearmLocked_table] at hlive hnever ⊢
  have hle := S.table.earliest_le hlive
  unfold rearmLocked
  dsimp only
  split
  · next hnone => omega
  · exact (O.arm_le S.port _).trans hle

/-! ### Every step -/

/-- An interrupt that is not delivered to the driver leaves the deadline armed. -/
def keepsDeadline (O : OneShot P) (S : Core P C A) : Act C A → Prop
  | .interrupt => (O.interrupt S.port S.now).2 = false →
      O.armed (O.interrupt S.port S.now).1 ≤ O.armed S.port
  | _ => True

instance (O : OneShot P) (S : Core P C A) : (act : Act C A) → Decidable (keepsDeadline O S act)
  | .interrupt => inferInstanceAs (Decidable (_ → _))
  | .tick _ => isTrue trivial
  | .setUp => isTrue trivial
  | .anchor => isTrue trivial
  | .irqEnable => isTrue trivial
  | .scheduleAt _ _ _ => isTrue trivial
  | .scheduleRecurring _ _ _ => isTrue trivial
  | .cancel _ => isTrue trivial
  | .readTime => isTrue trivial
  | .look => isTrue trivial
  | .move => isTrue trivial
  | .ret => isTrue trivial
  | .leave => isTrue trivial

structure ArmedInv (O : OneShot P) (S : Core P C A) : Prop where
  place : S.startPlace = .before ∨ S.startPlace = .setUp → S.table.started = false
  armed : S.table.started = true → S.isr = .out → Armed O S

/-- An operation that changed the table of a started core has re-armed. -/
theorem ArmedInv.settle (hi : ArmedInv O S) (hstarted : S'.table.started = S.table.started)
    (hplace : S'.startPlace = S.startPlace) : ArmedInv O (S'.settle O .tickless) := by
  unfold Core.settle
  split
  · next h =>
    refine ⟨?_, fun _ _ => armed_rearmLocked S'⟩
    rw [rearmLocked_startPlace, rearmLocked_table, hstarted, hplace]
    exact hi.place
  · next h =>
    refine ⟨?_, fun hstart => absurd hstart h⟩
    rw [hstarted, hplace]
    exact hi.place

theorem ArmedInv.fill (hi : ArmedInv O S) (i : Index) (when period : ℕ) (cb : C) (arg : Option A) :
    ArmedInv O (S.fill O .tickless i when period cb arg).2 :=
  hi.settle S.table.nextHandleId_same.1 rfl

/-- A step that neither ends an interrupt nor touches the table at thread level. -/
theorem ArmedInv.inside (hi : ArmedInv O S) (hstarted : S'.table.started = S.table.started)
    (hplace : S'.startPlace = S.startPlace) (hisr : S'.isr ≠ .out) : ArmedInv O S' := by
  refine ⟨?_, fun _ h => absurd h hisr⟩
  rw [hstarted, hplace]
  exact hi.place

theorem ArmedInv.next {act : Act C A} (hi : ArmedInv O S) (hkeeps : keepsDeadline O S act)
    (h : Core.next O .tickless S act = some S') : ArmedInv O S' := by
  have hplace := hi.place
  cases effect_of_next h with
  | tick => exact ⟨hi.place, hi.armed⟩
  | setUp hbefore _ =>
    have hnot := hplace (Or.inl hbefore)
    exact ⟨fun _ => hnot, fun hstarted => absurd (hnot.symm.trans hstarted) Bool.false_ne_true⟩
  | anchor =>
    refine ⟨?_, fun _ _ => armed_rearmLocked _⟩
    rw [Core.anchor, rearmLocked_startPlace]
    rintro (hplace | hplace) <;> cases hplace
  | irqEnable _ hout =>
    refine ⟨?_, fun hstarted _ i hlive hnever => ?_⟩
    · rintro (hplace | hplace) <;> cases hplace
    · exact (O.irqEnable_le S.port).trans (hi.armed hstarted hout i hlive hnever)
  | scheduleAt =>
    unfold Core.scheduleAt
    split
    · exact hi.fill _ _ _ _ _
    · exact hi
  | scheduleRecurring =>
    unfold Core.scheduleRecurring
    split
    · split
      · exact hi
      · exact hi.fill _ _ _ _ _
    · exact hi
  | cancel =>
    unfold Core.cancel
    split
    · exact hi
    · split
      · exact hi.settle rfl rfl
      · exact hi
  | interrupt hout _ =>
    refine ⟨hi.place, fun hstarted hisr i hlive hnever => ?_⟩
    have hdelivered : (O.interrupt S.port S.now).2 = false := by grind
    exact (hkeeps hdelivered).trans (hi.armed hstarted hout i hlive hnever)
  | readTime => exact hi.inside rfl rfl nofun
  | look =>
    unfold Core.fireDue Core.moveOn
    dsimp only
    split_ifs <;> exact hi.inside rfl rfl nofun
  | move =>
    unfold Core.moveOn
    dsimp only
    split_ifs <;> exact hi.inside rfl rfl nofun
  | ret => exact hi.inside rfl rfl nofun
  | leave =>
    refine ⟨?_, fun _ _ => armed_rearmLocked S⟩
    obtain ⟨port, heq⟩ := rearmLocked_eq O .tickless S
    rw [heq]
    exact hi.place

/-- **The armed deadline is the earliest.**  For every port that keeps the contract of arming, in every run
in which no interrupt takes an armed deadline without delivering it: on a started core with no timer
interrupt under way the port is armed for no later than the deadline of any live timer. -/
theorem earliest_deadline_armed (O : OneShot P) (port : P) (now : ℕ) (acts : List (Act C A))
    (S : Core P C A) (hrun : run (Core.next O .tickless) (boot port now) acts = some S)
    (hkeeps : Meets (Core.next O .tickless) (keepsDeadline O) (boot port now) acts)
    (hstarted : S.table.started = true) (hisr : S.isr = .out) (i : Index)
    (hlive : (S.table.slots i).id ≠ 0) (hwhen : (S.table.slots i).when < 2 ^ 64 - 1) :
    O.armed S.port ≤ (S.table.slots i).when := by
  have hboot : ArmedInv O (boot port now : Core P C A) :=
    ⟨fun _ => rfl, fun h => absurd h Bool.false_ne_true⟩
  have hi : ArmedInv O S := run_invariant_of_meets (I := ArmedInv O)
    (fun _ _ _ hi hok h => hi.next hok h) hboot hkeeps hrun
  exact hi.armed hstarted hisr i hlive hwhen

/-- A one-shot pended before `start`, a recurring timer after it, and the recurring timer's interrupt. -/
def startedRun : List (Act Unit Unit) :=
  [.scheduleAt 100 (some ()) none, .setUp, .anchor, .irqEnable, .scheduleRecurring 7 (some ()) none,
    .tick 7, .interrupt, .readTime, .look, .look, .ret] ++ List.replicate 14 .look ++ [.leave]

theorem earliest_deadline_armed_recurring :
    ∃ S, run (Core.next mtimeOneShot .tickless) (boot ⟨never, false⟩ 5) startedRun = some S ∧
      (S.table.slots 1).when = 19 ∧ mtimeOneShot.armed S.port ≤ (S.table.slots 1).when := by
  have hrun : (run (Core.next mtimeOneShot .tickless) (boot ⟨never, false⟩ 5) startedRun).map
      (fun S => (S.table.started, S.isr, S.table.slots 1)) =
        some (true, .out, ⟨2, 19, 7, some (), none⟩) := rfl
  obtain ⟨S, hS, hview⟩ := Option.map_eq_some_iff.mp hrun
  rw [Prod.mk.injEq, Prod.mk.injEq] at hview
  obtain ⟨hstarted, hisr, hslot⟩ := hview
  refine ⟨S, hS, by rw [hslot], earliest_deadline_armed _ _ _ _ S hS (by decide) hstarted hisr 1 ?_ ?_⟩
  · rw [hslot]
    decide
  · rw [hslot]
    decide

/-- A one-shot whose deadline has passed is pended; the interrupt comes before `start` turns delivery on. -/
def forgottenRun : List (Act Unit Unit) :=
  [.scheduleAt 0 (some ()) none, .setUp, .anchor, .interrupt, .irqEnable]

/-- **A live timer without an interrupt.**  `start` has returned, nothing is under way, the one-shot is live
and due, and the MTIME source is armed for nothing. -/
theorem start_forgets_deadline :
    ∃ S, run (Core.next mtimeOneShot .tickless) (boot ⟨never, false⟩ 5) forgottenRun = some S ∧
      S.startPlace = .live ∧ S.table.started = true ∧ S.isr = .out ∧ (S.table.slots 0).id ≠ 0 ∧
      (S.table.slots 0).when < 2 ^ 64 - 1 ∧ ¬ mtimeOneShot.armed S.port ≤ (S.table.slots 0).when := by
  have hrun : (run (Core.next mtimeOneShot .tickless) (boot ⟨never, false⟩ 5) forgottenRun).map
      (fun S => (S.startPlace, S.table.started, S.isr, S.table.slots 0, S.port)) =
        some (.live, true, .out, ⟨1, 0, 0, some (), none⟩, ⟨never, true⟩) := rfl
  obtain ⟨S, hS, hview⟩ := Option.map_eq_some_iff.mp hrun
  simp only [Prod.mk.injEq] at hview
  obtain ⟨hplace, hstarted, hisr, hslot, hport⟩ := hview
  refine ⟨S, hS, hplace, hstarted, hisr, ?_⟩
  rw [hslot, hport]
  decide

end Core

end Cyros.Time
