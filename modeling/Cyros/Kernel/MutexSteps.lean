import Cyros.Kernel.MutexWords

/-!
# Steps on mutexes

Every step of `Mutexes` keeps the invariant of its words and waiters (`Inv.next`).

* A thread's step in a wait changes what is said of that thread only (`Inv.pass`).
* A bit of a mask is written while the slot it stands for is the mutex's that is worked on, so nobody else's
  bit changes with it (`SameWords.of_mask`).
-/

namespace Cyros.Kernel.Mutexes

open Cyros.Lib

variable {n : ℕ} {T : Fin n → Type} {M Q : Type}
variable {S S' : Mutexes T M Q} {m : M} {t : Σ c, T c}

/-! ### Caches and masks -/

/-- Nothing here reads the inheritance cache. -/
theorem Inv.caches (hi : Inv S) (top : M → ℕ) (bridges : M → Bool) :
    Inv { S with topPriority := top, mayHaveBridges := bridges } :=
  ⟨hi.waits, hi.nodes, hi.place, hi.recorded, hi.bits, hi.handed, hi.starved, hi.inside, hi.trying⟩

theorem refreshTop_eq [DecidableEq M] (S : Mutexes T M Q) (m : M) :
    ∃ top bridges, S.refreshTop m = { S with topPriority := top, mayHaveBridges := bridges } := by
  unfold refreshTop
  split <;> exact ⟨_, _, rfl⟩

theorem Inv.refreshTop [DecidableEq M] (hi : Inv S) (m : M) : Inv (S.refreshTop m) := by
  obtain ⟨top, bridges, heq⟩ := refreshTop_eq S m
  rw [heq]
  exact hi.caches top bridges

theorem getLsbD_slotBit (i : Fin 4) (j : ℕ) : (slotBit i).getLsbD j = decide (j = i.val) := by
  have hlt : i.val < 8 := by omega
  rw [show slotBit i = BitVec.twoPow 8 i.val from rfl, BitVec.getLsbD_twoPow, decide_eq_true hlt,
    Bool.true_and]
  simp only [eq_comm]

theorem getLsbD_mark (mask : BitVec 8) (i : Fin 4) (j : ℕ) :
    (mask ||| slotBit i).getLsbD j = (mask.getLsbD j || decide (j = i.val)) := by
  rw [BitVec.getLsbD_or, getLsbD_slotBit]

theorem getLsbD_unmark (mask : BitVec 8) (i : Fin 4) (j : ℕ) :
    (mask &&& ~~~slotBit i).getLsbD j = (mask.getLsbD j && !decide (j = i.val)) := by
  rw [BitVec.getLsbD_and, BitVec.getLsbD_not, getLsbD_slotBit]
  cases hj : mask.getLsbD j with
  | false => simp
  | true =>
      have hlt := BitVec.lt_of_getLsbD hj
      simp [hlt]

/-! ### Steps of the waits -/

section WaitSteps

variable [∀ c, DecidableEq (T c)] [DecidableEq M] [DecidableEq Q] [∀ c, Fintype (T c)]
variable {v : Waits T (MutexQueue M Q)}

omit [∀ c, DecidableEq (T c)] [DecidableEq M] [DecidableEq Q] [∀ c, Fintype (T c)] in
/-- A step of the waits that writes no mask, and no queue whose lock is held. -/
theorem SameWords.of_waits (hmask : v.heldMask = S.waits.heldMask) (x : M)
    (hqueue : S.queueLock x = true → v.queue (.mutex x) = S.waits.queue (.mutex x)) :
    SameWords S { S with waits := v } x :=
  ⟨rfl, rfl, fun _ _ => Iff.rfl, fun t i _ => by
    show (v.heldMask t).getLsbD i.val = (S.waits.heldMask t).getLsbD i.val
    rw [hmask], fun h => ⟨h, hqueue h⟩⟩

/-- **A step of a thread in its wait**: what it says of the other threads does not change. -/
theorem Inv.pass (hi : Inv S) {act : PassAct (T t.1) (MutexQueue M Q)}
    (h : S.waits.next (.pass t act) = some v) (hplace : PlaceOk (S.stage t) (v.place t))
    (hqueue : ∀ x, S.queueLock x = true → v.queue (.mutex x) = S.waits.queue (.mutex x))
    (hhanded : ∀ x, (.mutex x, false) ∈ (v.place t).armed → (t, false) ∉ v.queue (.mutex x) →
      S.owner x = some t)
    (hstarved : ∀ x, failed (v.place t) = some (.mutex x) → (t, false) ∈ v.queue (.mutex x) →
      S.owner x ≠ none) : Inv { S with waits := v } := by
  have hmask := Waits.heldMask_next h rfl
  have hmove := Waits.next_pass_move h
  have hother : ∀ u, u ≠ t → v.place u = S.waits.place u ∧
      ∀ x : M, (u, false) ∈ v.queue (.mutex x) ↔ (u, false) ∈ S.waits.queue (.mutex x) := fun u hu =>
    ⟨Waits.next_pass_place_of_ne h hu, fun x => hmove.mem_of_ne (x := (u, false)) hu _⟩
  exact {
    waits := hi.waits.next h
    nodes := hi.nodes.next h
    place := fun u => by
      by_cases hu : u = t
      · rw [hu]
        exact hplace
      · show PlaceOk (S.stage u) (v.place u)
        rw [(hother u hu).1]
        exact hi.place u
    recorded := fun x => (SameWords.of_waits hmask x (hqueue x)).recorded (hi.recorded x)
      (fun _ => Iff.rfl) fun _ _ => rfl
    bits := fun u i hb => by
      rw [show Mutexes.mask { S with waits := v } u = S.mask u from congrFun hmask u] at hb
      exact hi.bits u i hb
    handed := fun u x harmed hgone => by
      by_cases hu : u = t
      · subst hu
        exact hhanded x harmed hgone
      · obtain ⟨hp, hq⟩ := hother u hu
        exact hi.handed u x (hp ▸ harmed) fun hmem => hgone ((hq x).2 hmem)
    starved := fun u x hf hmem => by
      by_cases hu : u = t
      · subst hu
        exact hstarved x hf hmem
      · obtain ⟨hp, hq⟩ := hother u hu
        exact hi.starved u x (hp ▸ hf) ((hq x).1 hmem)
    inside := hi.inside
    trying := hi.trying }

/-- A step that touches no place and no queue of a mutex. -/
theorem Inv.aside (hi : Inv S) {act : WaitAct T (MutexQueue M Q)} (h : S.waits.next act = some v)
    (hact : Waits.writesMask act = false) (hplace : v.place = S.waits.place)
    (hqueue : ∀ x, v.queue (.mutex x) = S.waits.queue (.mutex x)) : Inv { S with waits := v } := by
  have hmask := Waits.heldMask_next h hact
  exact {
    waits := hi.waits.next h
    nodes := hi.nodes.next h
    place := fun u => by
      show PlaceOk (S.stage u) (v.place u)
      rw [hplace]
      exact hi.place u
    recorded := fun x => (SameWords.of_waits hmask x fun _ => hqueue x).recorded (hi.recorded x)
      (fun _ => Iff.rfl) fun _ _ => rfl
    bits := fun u i hb => by
      rw [show Mutexes.mask { S with waits := v } u = S.mask u from congrFun hmask u] at hb
      exact hi.bits u i hb
    handed := fun u x harmed hgone =>
      hi.handed u x (hplace ▸ harmed) fun hmem => hgone (by rw [show v.queue _ = _ from hqueue x]; exact hmem)
    starved := fun u x hf hmem => hi.starved u x (hplace ▸ hf) (hqueue x ▸ hmem)
    inside := hi.inside
    trying := hi.trying }

omit [∀ c, Fintype (T c)] in
/-- A wait on another queue touches no queue of a mutex. -/
theorem passMove_other {priority : (Σ c, T c) → ℕ} {queue queue' : MutexQueue M Q → List ((Σ c, T c) × Bool)}
    {p p' : WaitPlace (MutexQueue M Q)} {act : PassAct (T t.1) (MutexQueue M Q)}
    (hmove : Waits.PassMove t priority queue p act p' queue')
    (hp : ∀ m : M, p.source ≠ some (.mutex m) ∧ p.cancel ≠ some (.mutex m))
    (hstart : ∀ w cancel, act = .start w cancel → ∀ m : M, w ≠ .mutex m ∧ cancel ≠ some (.mutex m)) :
    (∀ m : M, p'.source ≠ some (.mutex m) ∧ p'.cancel ≠ some (.mutex m)) ∧
      ∀ m : M, queue' (.mutex m) = queue (.mutex m) := by
  cases hmove with
  | startFirst w cancel | startAgain w cancel =>
      refine ⟨fun m => ?_, fun _ => rfl⟩
      have := hstart w cancel rfl m
      simpa [WaitPlace.source, WaitPlace.cancel] using this
  | arm w | armFirst w c | disarm w | disarmFirst w c =>
      refine ⟨fun m => ?_, fun m => ?_⟩
      · have := hp m
        simpa [WaitPlace.source, WaitPlace.cancel] using this
      · have := (hp m).1
        exact Function.update_of_ne (fun he => this (by simp [WaitPlace.source, he])) _ _
  | armCancel w c | disarmCancel w c =>
      refine ⟨fun m => ?_, fun m => ?_⟩
      · have := hp m
        simpa [WaitPlace.source, WaitPlace.cancel] using this
      · have := (hp m).2
        exact Function.update_of_ne (fun he => this (by simp [WaitPlace.cancel, he])) _ _
  | pollEnds | pollFails | settle | settleAfter | commit =>
      refine ⟨fun m => ?_, fun _ => rfl⟩
      have := hp m
      simpa [WaitPlace.source, WaitPlace.cancel] using this
  | finish => exact ⟨fun m => ⟨by rintro ⟨⟩, by rintro ⟨⟩⟩, fun _ => rfl⟩

omit [DecidableEq M] [DecidableEq Q] in
theorem source_of_failed {p : WaitPlace (MutexQueue M Q)} {q : MutexQueue M Q} (h : failed p = some q) :
    p.source = some q := by
  cases p with
  | committing => exact h
  | disarming w cancel satisfied =>
      cases satisfied with
      | false => exact h
      | true => cases h
  | _ => cases h

/-- A step in a wait that is not for a mutex. -/
theorem Inv.passOther (hi : Inv S) {act : PassAct (T t.1) (MutexQueue M Q)} (hs : S.stage t = .idle)
    (h : S.waits.next (.pass t act) = some v)
    (hstart : ∀ w cancel, act = .start w cancel → ∀ m : M, w ≠ .mutex m ∧ cancel ≠ some (.mutex m)) :
    Inv { S with waits := v } ∧ ∀ x, v.queue (.mutex x) = S.waits.queue (.mutex x) := by
  obtain ⟨hp', hqueue⟩ := passMove_other (Waits.next_pass_move h) (hi.placed hs) hstart
  refine ⟨?_, hqueue⟩
  refine hi.pass h (by rw [hs]; exact hp') (fun x _ => hqueue x) (fun x harmed _ => ?_) fun x hf _ => ?_
  · exact absurd (source_of_armed (hp' x).2 harmed).1 (hp' x).1
  · exact absurd (source_of_failed hf) (hp' x).1

/-- A step that ends the poll of the loop of `lock`, or parks its thread. -/
theorem Inv.passLoop (hi : Inv S) {act : PassAct (T t.1) (MutexQueue M Q)} (hs : S.stage t = .looping m)
    (hact : act = .settle ∨ ∃ fold, act = .commit fold) (h : S.waits.next (.pass t act) = some v) :
    Inv { S with waits := v } ∧ ∀ x, v.queue (.mutex x) = S.waits.queue (.mutex x) := by
  have hmove := Waits.next_pass_move h
  have hplace := hi.placed hs
  have hhanded := hi.handed t
  have hstarved := hi.starved t
  generalize S.waits.place t = p at hmove hplace hhanded hstarved
  suffices hview : v.queue = S.waits.queue ∧ PlaceOk (.looping m : MutexStage T M) (v.place t) ∧
      (v.place t).armed = p.armed ∧ ∀ x : M, failed (v.place t) = some (.mutex x) →
        failed p = some (.mutex x) by
    obtain ⟨hqueue, hok, harmed, hfailed⟩ := hview
    refine ⟨?_, fun x => by rw [hqueue]⟩
    refine hi.pass h (by rw [hs]; exact hok) (fun x _ => by rw [hqueue]) (fun x ha hgone => ?_)
      fun x hf hmem => ?_
    · exact hhanded x (harmed ▸ ha) (hqueue ▸ hgone)
    · exact hstarved x (hfailed x hf) (hqueue ▸ hmem)
  generalize v.place t = p' at hmove
  generalize v.queue = queue' at hmove
  cases hmove with
  | settle w cancel satisfied =>
      rcases hplace with hp | ⟨hsource, hcancel, hsat⟩
      · cases hp
      · cases satisfied with
        | false => exact absurd rfl (hsat w cancel)
        | true => exact ⟨rfl, Or.inr ⟨hsource, hcancel, by simp⟩, rfl, by rintro _ ⟨⟩⟩
  | settleAfter w chosen => exact ⟨rfl, hplace, rfl, by rintro _ ⟨⟩⟩
  | commit w cancel fold =>
      rcases hplace with hp | ⟨hsource, hcancel, -⟩
      · cases hp
      · exact ⟨rfl, Or.inr ⟨hsource, hcancel, by simp⟩, rfl, fun x hx => hx⟩
  | startFirst | startAgain | arm | armFirst | armCancel | pollEnds | pollFails | disarm | disarmFirst
  | disarmCancel | finish => rcases hact with hact | ⟨fold, hact⟩ <;> cases hact

/-- **A step that is left as it is** touches no queue of a mutex and writes no mask. -/
theorem Inv.waitAct (hi : Inv S) {act : WaitAct T (MutexQueue M Q)} (hallow : S.allows act = true)
    (h : S.waits.next act = some v) : Inv { S with waits := v } ∧ Waits.writesMask act = false ∧
      ∀ x, v.queue (.mutex x) = S.waits.queue (.mutex x) := by
  cases act with
  | core c a =>
      have hmask : Waits.writesMask (.core c a : WaitAct T (MutexQueue M Q)) = false := by
        cases a <;> first | rfl | cases hallow
      obtain ⟨hplace, hqueue⟩ := Waits.next_core h
      exact ⟨hi.aside h hmask hplace fun x => congrFun hqueue _, hmask, fun x => congrFun hqueue _⟩
  | call c u policy =>
      obtain ⟨hplace, hqueue⟩ := Waits.next_call h
      exact ⟨hi.aside h rfl hplace fun x => congrFun hqueue _, rfl, fun x => congrFun hqueue _⟩
  | wake q kind =>
      cases q with
      | mutex x => cases kind <;> cases hallow
      | other q =>
          have hmask : Waits.writesMask (.wake (.other q) kind : WaitAct T (MutexQueue M Q)) = false := by
            cases kind <;> first | rfl | cases hallow
          have hqueue : ∀ x, v.queue (.mutex x) = S.waits.queue (.mutex x) := fun x =>
            Waits.next_wake_queue_of_ne h (by simp)
          exact ⟨hi.aside h hmask (Waits.next_wake h).1 hqueue, hmask, hqueue⟩
  | pass u act =>
      suffices hpass : Inv { S with waits := v } ∧ ∀ x, v.queue (.mutex x) = S.waits.queue (.mutex x) from
        ⟨hpass.1, rfl, hpass.2⟩
      have hidle : ((S.stage u).isIdle && (onMutex (S.waits.place u)).isNone) = true → S.stage u = .idle := by
        intro hg
        cases hs : S.stage u <;> simp [hs, MutexStage.isIdle] at hg ⊢
      have hloop : (act = .settle ∨ ∃ fold, act = .commit fold) → (S.stage u).works.isNone = true →
          Inv { S with waits := v } ∧ ∀ x, v.queue (.mutex x) = S.waits.queue (.mutex x) := by
        intro hact hworks
        cases hs : S.stage u with
        | idle => exact hi.passOther hs h fun w cancel he => by rcases hact with rfl | ⟨_, rfl⟩ <;> cases he
        | looping m => exact hi.passLoop hs hact h
        | trying m blocking =>
            have hmove := Waits.next_pass_move h
            rw [show S.waits.place u = .outside from hi.placed hs] at hmove
            rcases hact with rfl | ⟨fold, rfl⟩ <;> cases hmove
        | checking | registering | retiring | entering | committing | filing =>
            simp [hs, MutexStage.works] at hworks
      cases act with
      | settle => exact hloop (Or.inl rfl) hallow
      | commit fold => exact hloop (Or.inr ⟨fold, rfl⟩) hallow
      | start w cancel =>
          cases w with
          | mutex x => cases cancel <;> cases hallow
          | other q =>
              cases cancel with
              | none =>
                  exact hi.passOther (hidle hallow) h fun w cancel he x => by
                    cases he
                    exact ⟨by rintro ⟨⟩, by rintro ⟨⟩⟩
              | some c =>
                  cases c with
                  | mutex x => cases hallow
                  | other c =>
                      exact hi.passOther (hidle hallow) h fun w cancel he x => by
                        cases he
                        exact ⟨by rintro ⟨⟩, by rintro ⟨⟩⟩
      | arm => exact hi.passOther (hidle hallow) h (by simp)
      | armCancel => exact hi.passOther (hidle hallow) h (by simp)
      | poll satisfied cancelled => exact hi.passOther (hidle hallow) h (by simp)
      | disarm => exact hi.passOther (hidle hallow) h (by simp)
      | disarmCancel => exact hi.passOther (hidle hallow) h (by simp)
      | finish => exact hi.passOther (hidle hallow) h (by simp)

/-! ### The loop of `lock` -/

omit [DecidableEq Q] [∀ c, Fintype (T c)] in
/-- A call that has got the mutex returns. -/
theorem Inv.returns (hi : Inv S) (hs : S.stage t = .looping m) (ho : S.owner m = some t)
    (hp : S.waits.place t = .outside) : Inv ((S.setStage t .idle).setInside t m true) := by
  have hsame : ∀ u, u ≠ t → ((S.setStage t .idle).setInside t m true).stage u = S.stage u :=
    fun u hu => Function.update_of_ne hu _ _
  have hstage : ((S.setStage t .idle).setInside t m true).stage t = .idle := Function.update_self ..
  refine Inv.of_owner (t := t) hsame hi rfl rfl ?_ ?_ (fun _ _ h _ => h) (fun u x hx => ?_) ?_ ?_
  · rw [hstage, hp]
    exact fun x => ⟨by rintro ⟨⟩, by rintro ⟨⟩⟩
  · intro x
    refine (SameWords.setStage .idle x).recorded (hi.recorded x) (fun u => ?_) fun u hu => ?_
    · by_cases hu : u = t
      · subst hu
        simp [hs, MutexStage.works]
      · rw [stage_setStage_of_ne hu]
    · refine stage_setStage_of_ne fun hut => ?_
      rw [hut, hs] at hu
      cases hu
  · by_cases hu : u = t
    · subst hu
      by_cases hxm : x = m
      · subst hxm
        exact Or.inr ⟨rfl, ho⟩
      · exact Or.inl (by simpa [setInside, Mutexes.setStage, hxm] using hx)
    · exact Or.inl (by simpa [setInside, Mutexes.setStage, hu] using hx)
  · intro x _
    rw [hstage]
    exact ⟨by rintro ⟨⟩, by rintro ⟨⟩⟩
  · rw [hstage]
    simp

omit [∀ c, DecidableEq (T c)] [DecidableEq M] [DecidableEq Q] [∀ c, Fintype (T c)] in
/-- The place of a thread in the loop, where it is in a wait at all. -/
theorem Inv.loopPlace (hi : Inv S) (hs : S.stage t = .looping m) :
    S.waits.place t = .outside ∨ (S.waits.place t).source = some (.mutex m) ∧
      (S.waits.place t).cancel = none ∧ ∀ w c, S.waits.place t ≠ .settling w c false :=
  hi.placed hs

theorem Inv.loop (hi : Inv S) (hs : S.stage t = .looping m)
    (h : S.waits.next (.pass t (.start (.mutex m) none)) = some v) : Inv { S with waits := v } := by
  have hview : v.queue = S.waits.queue ∧ v.place t = .arming (.mutex m) none := by
    have hmove := Waits.next_pass_move h
    generalize v.place t = p' at hmove
    generalize v.queue = queue' at hmove
    generalize S.waits.place t = p at hmove
    cases hmove <;> exact ⟨rfl, rfl⟩
  obtain ⟨hqueue, hplace⟩ := hview
  refine hi.pass h ?_ (fun x _ => by rw [hqueue]) ?_ ?_
  · rw [hs, hplace]
    exact Or.inr ⟨rfl, rfl, by simp⟩
  · rw [hplace]
    rintro x ⟨⟩
  · rw [hplace]
    rintro x ⟨⟩

theorem Inv.arm_view (hi : Inv S) (hs : S.stage t = .looping m) {w : MutexQueue M Q}
    {cancel : Option (MutexQueue M Q)} (hp : S.waits.place t = .arming w cancel)
    (h : S.waits.next (.pass t .arm) = some v) :
    v.place t = .polling (.mutex m) none ∧ v.queue = Function.update S.waits.queue (.mutex m)
      (Waits.link S.waits.basePriority (t, false) (S.waits.queue (.mutex m))) := by
  rcases hi.loopPlace hs with hout | ⟨hsource, hcancel, -⟩
  · rw [hp] at hout
    cases hout
  · rw [hp] at hsource hcancel
    obtain rfl : w = .mutex m := Option.some.inj hsource
    obtain rfl : cancel = none := hcancel
    have hmove := Waits.next_pass_move h
    rw [hp] at hmove
    generalize v.place t = p' at hmove
    generalize v.queue = queue' at hmove
    cases hmove
    exact ⟨rfl, rfl⟩

theorem Inv.arm (hi : Inv S) (hs : S.stage t = .looping m) {w : MutexQueue M Q}
    {cancel : Option (MutexQueue M Q)} (hp : S.waits.place t = .arming w cancel)
    (hlock : S.queueLock m = false) (h : S.waits.next (.pass t .arm) = some v) :
    Inv { S with waits := v } := by
  obtain ⟨hplace, hqueue⟩ := hi.arm_view hs hp h
  refine hi.pass h ?_ (fun x hx => ?_) (fun x harmed hgone => ?_) ?_
  · rw [hs, hplace]
    exact Or.inr ⟨rfl, rfl, by simp⟩
  · rw [hqueue, Function.update_of_ne]
    intro he
    cases he
    rw [hlock] at hx
    cases hx
  · rw [hplace] at harmed
    obtain rfl : x = m := by simpa [WaitPlace.armed] using harmed
    rw [hqueue, Function.update_self] at hgone
    exact absurd (Waits.mem_link.2 (Or.inl rfl)) hgone
  · rw [hplace]
    rintro x ⟨⟩

/-- The poll of a mutex that is not free. -/
theorem Inv.polls (hi : Inv S) (hs : S.stage t = .looping m) {w : MutexQueue M Q}
    {cancel : Option (MutexQueue M Q)} (hp : S.waits.place t = .polling w cancel)
    (hheld : S.owner m ≠ none) {satisfied : Bool}
    (h : S.waits.next (.pass t (.poll satisfied false)) = some v) : Inv { S with waits := v } := by
  rcases hi.loopPlace hs with hout | ⟨hsource, hcancel, -⟩
  · rw [hp] at hout
    cases hout
  · rw [hp] at hsource hcancel
    obtain rfl : w = .mutex m := Option.some.inj hsource
    obtain rfl : cancel = none := hcancel
    have hview : v.queue = S.waits.queue ∧ (v.place t = .settling (.mutex m) none true ∨
        v.place t = .committing (.mutex m) none) := by
      have hmove := Waits.next_pass_move h
      rw [hp] at hmove
      generalize v.place t = p' at hmove
      generalize v.queue = queue' at hmove
      cases hmove with
      | pollEnds _ _ _ _ hends =>
          obtain rfl : satisfied = true := by simpa using hends
          exact ⟨rfl, Or.inl rfl⟩
      | pollFails => exact ⟨rfl, Or.inr rfl⟩
    obtain ⟨hqueue, hplace⟩ := hview
    have harmed : (v.place t).armed = (S.waits.place t).armed := by
      rcases hplace with hplace | hplace <;> rw [hplace, hp] <;> rfl
    refine hi.pass h ?_ (fun x _ => by rw [hqueue]) (fun x ha hgone => ?_) fun x hf _ => ?_
    · rw [hs]
      rcases hplace with hplace | hplace <;> rw [hplace] <;> exact Or.inr ⟨rfl, rfl, by simp⟩
    · exact hi.handed t x (harmed ▸ ha) (hqueue ▸ hgone)
    · have hx : x = m := by
        rcases hplace with hplace | hplace <;> rw [hplace] at hf
        · cases hf
        · cases hf
          rfl
      rw [hx]
      exact hheld

theorem Inv.disarm_view (hi : Inv S) (hs : S.stage t = .looping m) {w : MutexQueue M Q}
    {cancel : Option (MutexQueue M Q)} {satisfied : Bool}
    (hp : S.waits.place t = .disarming w cancel satisfied)
    (h : S.waits.next (.pass t .disarm) = some v) :
    (∃ chosen, v.place t = .polled (.mutex m) none satisfied chosen) ∧
      v.queue = Function.update S.waits.queue (.mutex m) ((S.waits.queue (.mutex m)).erase (t, false)) := by
  rcases hi.loopPlace hs with hout | ⟨hsource, hcancel, -⟩
  · rw [hp] at hout
    cases hout
  · rw [hp] at hsource hcancel
    obtain rfl : w = .mutex m := Option.some.inj hsource
    obtain rfl : cancel = none := hcancel
    have hmove := Waits.next_pass_move h
    rw [hp] at hmove
    generalize v.place t = p' at hmove
    generalize v.queue = queue' at hmove
    cases hmove
    exact ⟨⟨_, rfl⟩, rfl⟩

theorem Inv.disarm (hi : Inv S) (hs : S.stage t = .looping m) {w : MutexQueue M Q}
    {cancel : Option (MutexQueue M Q)} {satisfied : Bool}
    (hp : S.waits.place t = .disarming w cancel satisfied) (hlock : S.queueLock m = false)
    (h : S.waits.next (.pass t .disarm) = some v) : Inv { S with waits := v } := by
  obtain ⟨⟨chosen, hplace⟩, hqueue⟩ := hi.disarm_view hs hp h
  refine hi.pass h ?_ (fun x hx => ?_) ?_ ?_
  · rw [hs, hplace]
    exact Or.inr ⟨rfl, rfl, by simp⟩
  · rw [hqueue, Function.update_of_ne]
    intro he
    cases he
    rw [hlock] at hx
    cases hx
  · rw [hplace]
    rintro x ⟨⟩
  · rw [hplace]
    rintro x ⟨⟩

theorem Inv.acquired (hi : Inv S) (hs : S.stage t = .looping m) (ho : S.owner m = some t)
    (h : S.waits.next (.pass t .finish) = some v) :
    Inv ((Mutexes.setStage { S with waits := v } t .idle).setInside t m true) := by
  have hview : v.queue = S.waits.queue ∧ v.place t = .outside := by
    have hmove := Waits.next_pass_move h
    generalize v.place t = p' at hmove
    generalize v.queue = queue' at hmove
    generalize S.waits.place t = p at hmove
    cases hmove
    exact ⟨rfl, rfl⟩
  obtain ⟨hqueue, hplace⟩ := hview
  have hinv : Inv { S with waits := v } := by
    refine hi.pass h ?_ (fun x _ => by rw [hqueue]) ?_ ?_
    · rw [hs, hplace]
      exact Or.inl rfl
    · rw [hplace]
      rintro x ⟨⟩
    · rw [hplace]
      rintro x ⟨⟩
  exact hinv.returns hs ho hplace

/-! ### Masks -/

omit [DecidableEq M] [DecidableEq Q] [∀ c, Fintype (T c)] in
/-- Where slot `i` of `t` is that of `m`, its bit is nobody else's. -/
theorem SameWords.of_mask {i : Fin 4} {mask : BitVec 8} {x : M} (hx : x ≠ m)
    (hslot : S.heldSlots t i = some m)
    (hmask : S'.waits.heldMask = Function.update S.waits.heldMask t mask)
    (hbits : ∀ j, j ≠ i.val → mask.getLsbD j = (S.mask t).getLsbD j) (howner : S'.owner x = S.owner x)
    (hheld : S'.heldSlot x = S.heldSlot x) (hslots : S'.heldSlots = S.heldSlots)
    (hlock : S.queueLock x = true →
      S'.queueLock x = true ∧ S'.waits.queue (.mutex x) = S.waits.queue (.mutex x)) :
    SameWords S S' x := by
  refine ⟨howner, hheld, fun u j => by rw [hslots], fun u j hj => ?_, hlock⟩
  show (S'.waits.heldMask u).getLsbD j.val = (S.waits.heldMask u).getLsbD j.val
  rw [hmask]
  by_cases hu : u = t
  · subst hu
    rw [Function.update_self]
    refine hbits j fun hji => hx ?_
    rw [Fin.ext hji, hslot] at hj
    exact (Option.some.inj hj).symm
  · rw [Function.update_of_ne hu]

/-- **The thread writes the bit of a slot that is the mutex's it works on.** -/
theorem Inv.holds (hi : Inv S) {g : MutexStage T M} {i : Fin 4} {bits : BitVec 8}
    (hrun : S.waits.executes t = true) (h : S.waits.next (.core t.1 (.hold bits)) = some v)
    (hold : (S.stage t).works = some m) (hnew : g.works = some m)
    (hplace : ∀ p : WaitPlace (MutexQueue M Q), PlaceOk (S.stage t) p → PlaceOk g p)
    (hslot : S.heldSlots t i = some m) (hbits : ∀ j, j ≠ i.val → bits.getLsbD j = (S.mask t).getLsbD j)
    (hrec : (Mutexes.setStage { S with waits := v } t g).StageRecord m t g) :
    Inv (Mutexes.setStage { S with waits := v } t g) := by
  obtain ⟨hmask, hplaces, hqueue⟩ := Waits.next_hold hrun h
  have hsame : ∀ u, u ≠ t → (Mutexes.setStage { S with waits := v } t g).stage u = S.stage u :=
    fun u hu => stage_setStage_of_ne hu
  have hmine : ∀ u x, S.inside u x = true → (Mutexes.setStage { S with waits := v } t g).owner x = some u ∧
      ((Mutexes.setStage { S with waits := v } t g).stage u).works ≠ some x ∧
      (Mutexes.setStage { S with waits := v } t g).stage u ≠ .looping x := by
    intro u x hin
    refine ⟨(hi.inside u x hin).1, ?_⟩
    by_cases hu : u = t
    · subst hu
      rw [stage_setStage]
      exact hi.inside_of_works hold hnew x hin
    · rw [hsame u hu]
      exact (hi.inside u x hin).2
  refine ⟨hi.waits.next h, hi.nodes.next h, fun u => ?_, ?_, fun u j hj => ?_, fun u x harmed hgone => ?_,
    fun u x hf hmem => ?_, hmine, fun u x hx => ?_⟩
  · show PlaceOk _ (v.place u)
    rw [hplaces]
    by_cases hu : u = t
    · subst hu
      rw [stage_setStage]
      exact hplace _ (hi.place u)
    · rw [hsame u hu]
      exact hi.place u
  · refine recorded_of (m := m) hsame hi ?_ ?_ (fun x hx => ?_) ?_
    · rw [hold]
      exact fun x hx => (Option.some.inj hx).symm
    · rw [stage_setStage, hnew]
      exact fun x hx => (Option.some.inj hx).symm
    · exact SameWords.of_mask hx hslot hmask hbits rfl rfl rfl
        fun hl => ⟨hl, congrFun hqueue _⟩
    · refine Recorded.working hsame (fun u hu hw => hu ((hi.recorded m).unique hold hw)) ?_ ?_
      · rw [stage_setStage, hnew]
      · rw [stage_setStage]
        exact hrec
  · rw [show Mutexes.mask (Mutexes.setStage { S with waits := v } t g) u = v.heldMask u from rfl, hmask] at hj
    by_cases hu : u = t
    · subst hu
      rw [Function.update_self] at hj
      by_cases hji : j = i.val
      · subst hji
        refine ⟨i.isLt, ?_⟩
        show S.heldSlots u i ≠ none
        rw [hslot]
        simp
      · rw [hbits j hji] at hj
        exact hi.bits u j hj
    · rw [Function.update_of_ne hu] at hj
      exact hi.bits u j hj
  · exact hi.handed u x (hplaces ▸ harmed) fun hmem => hgone (by
      show _ ∈ v.queue _
      rw [hqueue]
      exact hmem)
  · exact hi.starved u x (hplaces ▸ hf) (hqueue ▸ hmem)
  · by_cases hu : u = t
    · subst hu
      rw [stage_setStage] at hx
      rw [hx] at hnew
      cases hnew
    · rw [hsame u hu] at hx
      exact hi.trying u x hx

omit [DecidableEq Q] [∀ c, Fintype (T c)] in
/-- The claim of the owner is complete: the call goes on. -/
theorem Inv.filed (hi : Inv S) {loops : Bool} {i : Fin 4}
    (hs : S.stage t = .registering m loops (.mark i)) (hbit : S.bit t i = true) :
    Inv (S.registered t m loops) := by
  obtain ⟨hworks, ho, hheld, hslotted⟩ := hi.record hs rfl
  have hp := hi.placed hs
  have hnot : ∀ x, S.inside t x = true → x ≠ m := fun x hx he => (hi.inside t x hx).2.1 (he ▸ hworks)
  have hfiled : ∀ g : MutexStage T M, g.works = none → ∀ x, (S.setStage t g).Recorded x := by
    intro g hg
    refine recorded_of (m := m) (fun u hu => stage_setStage_of_ne hu) hi ?_ ?_
      (fun x _ => SameWords.setStage g x) ?_
    · rw [hworks]
      exact fun x hx => (Option.some.inj hx).symm
    · rw [stage_setStage, hg]
      simp
    · refine Recorded.done (fun u hu => stage_setStage_of_ne hu)
        (fun u hu hw => hu ((hi.recorded m).unique hworks hw)) ?_
        (Or.inr ⟨t, i, ho, hheld, hslotted, hbit⟩)
      rw [stage_setStage, hg]
      simp
  cases loops with
  | true =>
      refine Inv.of_owner (t := t) (fun u hu => stage_setStage_of_ne hu) hi rfl rfl ?_
        (hfiled (.looping m) rfl) (fun _ _ h _ => h) (fun _ _ h => Or.inl h) (fun x hx => ?_) ?_
      · rw [show (S.registered t m true).stage t = .looping m from stage_setStage,
          show S.waits.place t = .polling (.mutex m) none from hp]
        exact Or.inr ⟨rfl, rfl, by simp⟩
      · rw [show (S.registered t m true).stage t = .looping m from stage_setStage]
        refine ⟨by simp [MutexStage.works], fun he => hnot x hx ?_⟩
        cases he
        rfl
      · rw [show (S.registered t m true).stage t = .looping m from stage_setStage]
        simp
  | false =>
      have hstage : (S.registered t m false).stage t = .idle := stage_setStage
      refine Inv.of_owner (t := t) (fun u hu => stage_setStage_of_ne hu) hi rfl rfl ?_
        (hfiled .idle rfl) (fun _ _ h _ => h) (fun u x hx => ?_) (fun x _ => ?_) ?_
      · rw [hstage, show S.waits.place t = .outside from hp]
        exact fun x => ⟨by rintro ⟨⟩, by rintro ⟨⟩⟩
      · by_cases hu : u = t
        · subst hu
          by_cases hxm : x = m
          · subst hxm
            exact Or.inr ⟨rfl, ho⟩
          · exact Or.inl (by simpa [registered, setInside, Mutexes.setStage, hxm] using hx)
        · exact Or.inl (by simpa [registered, setInside, Mutexes.setStage, hu] using hx)
      · rw [hstage]
        exact ⟨by rintro ⟨⟩, by rintro ⟨⟩⟩
      · rw [hstage]
        simp

omit [∀ c, DecidableEq (T c)] [DecidableEq M] [DecidableEq Q] [∀ c, Fintype (T c)] in
/-- The new owner is the head of the queue until its node is taken. -/
theorem Inv.filing_queue (hi : Inv S) {chosen : Σ c, T c} {claim : Claim}
    (hs : S.stage t = .filing m chosen claim) :
    ∃ rest, S.waits.queue (.mutex m) = (chosen, false) :: rest := by
  obtain ⟨-, -, -, -, hhead⟩ := hi.record hs rfl
  cases hq : S.waits.queue (.mutex m) with
  | nil =>
      rw [hq] at hhead
      cases hhead
  | cons first rest =>
      rw [hq] at hhead
      cases hhead
      exact ⟨rest, rfl⟩

/-- **The hand-over is complete**: its node is taken and its bit set. -/
theorem Inv.handedOver (hi : Inv S) {chosen : Σ c, T c} {i : Fin 4}
    (hs : S.stage t = .filing m chosen (.mark i))
    (h : S.waits.next (.wake (.mutex m) (.commit (slotBit i))) = some v) :
    Inv (Mutexes.setStage (Mutexes.setLock { S with waits := v } m false) t .idle) := by
  obtain ⟨hworks, ho, ⟨hheld, hslotted⟩, -, -⟩ := hi.record hs rfl
  obtain ⟨rest, hq⟩ := hi.filing_queue hs
  obtain ⟨hmask, hplace, hqueue⟩ := Waits.next_commit hq h
  have hslot : S.heldSlots chosen i = some m := (hslotted chosen i).2 ⟨rfl, rfl⟩
  have hqueue_ne : ∀ x, x ≠ m → v.queue (.mutex x) = S.waits.queue (.mutex x) := fun x hx => by
    rw [hqueue, Function.update_of_ne (fun he => hx (by cases he; rfl))]
  have hqueue_self : v.queue (.mutex m) = rest := by rw [hqueue, Function.update_self]
  have hsame : ∀ u, u ≠ t →
      (Mutexes.setStage (Mutexes.setLock { S with waits := v } m false) t .idle).stage u = S.stage u :=
    fun u hu => stage_setStage_of_ne hu
  have hplaces := hi.placed hs
  refine ⟨hi.waits.next h, hi.nodes.next h, fun u => ?_, ?_, fun u j hj => ?_, fun u x harmed hgone => ?_,
    fun u x hf hmem => ?_, fun u x hin => ?_, fun u x hx => ?_⟩
  · show PlaceOk _ (v.place u)
    rw [hplace]
    by_cases hu : u = t
    · subst hu
      rw [stage_setStage]
      exact hplaces
    · rw [hsame u hu]
      exact hi.place u
  · refine recorded_of (m := m) hsame hi ?_ ?_ (fun x hx => ?_) ?_
    · rw [hworks]
      exact fun x hx => (Option.some.inj hx).symm
    · rw [stage_setStage]
      rintro x ⟨⟩
    · refine SameWords.of_mask hx hslot hmask (fun j hj => ?_) rfl rfl rfl
        fun hl => ⟨(Function.update_of_ne hx _ _).trans hl, hqueue_ne x hx⟩
      rw [getLsbD_mark, decide_eq_false hj, Bool.or_false]
      rfl
    · refine Recorded.done hsame (fun u hu hw => hu ((hi.recorded m).unique hworks hw))
        (by rw [stage_setStage]; rintro ⟨⟩) (Or.inr ⟨chosen, i, ho, hheld, hslotted, ?_⟩)
      show (v.heldMask chosen).getLsbD i.val = true
      rw [hmask, Function.update_self, getLsbD_mark]
      simp
  · rw [show Mutexes.mask (Mutexes.setStage (Mutexes.setLock { S with waits := v } m false) t .idle) u =
      v.heldMask u from rfl, hmask] at hj
    by_cases hu : u = chosen
    · subst hu
      rw [Function.update_self, getLsbD_mark] at hj
      rcases Bool.or_eq_true_iff.1 hj with hj | hj
      · exact hi.bits u j hj
      · obtain rfl : j = i.val := of_decide_eq_true hj
        refine ⟨i.isLt, ?_⟩
        show S.heldSlots u i ≠ none
        rw [hslot]
        simp
    · rw [Function.update_of_ne hu] at hj
      exact hi.bits u j hj
  · have ha : (.mutex x, false) ∈ (S.waits.place u).armed := hplace ▸ harmed
    by_cases hx : x = m
    · subst hx
      by_cases hu : u = chosen
      · subst hu
        exact ho
      · refine hi.handed u x ha fun hmem => hgone ?_
        show _ ∈ v.queue (.mutex x)
        rw [hqueue_self]
        rw [hq] at hmem
        rcases List.mem_cons.1 hmem with he | hmem
        · cases he
          exact absurd rfl hu
        · exact hmem
    · refine hi.handed u x ha fun hmem => hgone ?_
      show _ ∈ v.queue (.mutex x)
      rw [hqueue_ne x hx]
      exact hmem
  · have hf : failed (S.waits.place u) = some (.mutex x) := hplace ▸ hf
    have hmem : (u, false) ∈ v.queue (.mutex x) := hmem
    by_cases hx : x = m
    · subst hx
      show S.owner x ≠ none
      rw [ho]
      simp
    · rw [hqueue_ne x hx] at hmem
      exact hi.starved u x hf hmem
  · have hin := hi.inside u x hin
    refine ⟨hin.1, ?_⟩
    by_cases hu : u = t
    · subst hu
      rw [stage_setStage]
      exact ⟨by rintro ⟨⟩, by rintro ⟨⟩⟩
    · rw [hsame u hu]
      exact hin.2
  · by_cases hu : u = t
    · subst hu
      rw [stage_setStage] at hx
      cases hx
    · rw [hsame u hu] at hx
      exact hi.trying u x hx

/-! ### One step -/

omit [DecidableEq Q] [∀ c, Fintype (T c)] in
/-- A step of a claim, by its owner or by the hand-over. -/
theorem Inv.claims (hi : Inv S) {chosen : Σ c, T c} {claim claim' : Claim} {S₁ : Mutexes T M Q}
    {g : MutexStage T M} (hold : (S.stage t).works = some m) (hnew : g.works = some m)
    (hplace : ∀ p : WaitPlace (MutexQueue M Q), PlaceOk (S.stage t) p → PlaceOk g p)
    (hclaimed : S.Claimed m chosen claim) (h : S.claimStep chosen m claim = some (S₁, claim'))
    (hrec : S₁.Claimed m chosen claim' → (S₁.setStage t g).StageRecord m t g) :
    Inv (S₁.setStage t g) := by
  obtain ⟨⟨hwaits, howner, hinside, hstage, hlock⟩, hclaimed', hwords, hslots⟩ := claimStep_spec hclaimed h
  refine hi.work (m := m) (g := g) hwaits howner hinside ?_ hold hnew hplace (fun x hx => ?_) (hrec hclaimed')
    fun u i hne _ => hslots u i hne
  · show Function.update S₁.stage t g = _
    rw [hstage]
  · have hw := hwords x hx
    exact ⟨hw.owner, hw.heldSlot, hw.slots, hw.bits, hw.lock⟩

/-- **One step keeps the invariant.** -/
theorem Inv.next (hi : Inv S) {act : MutexAct T M Q} (h : S.next act = some S') : Inv S' := by
  cases effect_of_next h with
  | waits hallow hv => exact (hi.waitAct hallow hv).1
  | lock hs hp ho =>
      refine hi.setStage (by rw [hs]; rfl) rfl hp (by simp) fun x hx => ?_
      cases hx
      exact ho
  | tryLock hs hp => exact hi.setStage (by rw [hs]; rfl) rfl hp (by simp) (by simp)
  | attemptTakes hs hfree =>
      have hp := hi.placed hs
      exact hi.takes hfree (by rw [hs]; rfl) hp
  | @attemptFails t m blocking hs =>
      have hp := hi.placed hs
      cases blocking with
      | false =>
          refine hi.setStage (by rw [hs]; rfl) rfl ?_ (by simp) (by simp)
          rw [show S.waits.place t = .outside from hp]
          exact fun x => ⟨by rintro ⟨⟩, by rintro ⟨⟩⟩
      | true =>
          refine hi.setStage (by rw [hs]; rfl) rfl (Or.inl hp) (fun x hx => ?_) (by simp)
          cases hx
          by_contra hin
          exact hi.trying t m hs (hi.inside t m (by simpa using hin)).1
  | registered hs hheld => exact absurd (hi.record hs rfl).2.2.1 hheld
  | @registers t m loops hs =>
      obtain ⟨hworks, hrec⟩ := hi.record hs rfl
      refine hi.work (m := m) (t := t) rfl rfl rfl rfl hworks rfl (fun p hp => ?_)
        (fun x _ => SameWords.setStage _ x) hrec fun _ _ h _ => h
      rw [hs] at hp
      cases loops <;> exact hp
  | @marks t m loops i v hrun hs hv =>
      obtain ⟨hworks, hrec⟩ := hi.record hs rfl
      have hheld : Inv (Mutexes.setStage { S with waits := v } t (.registering m loops (.mark i))) := by
        refine hi.holds (m := m) (i := i) hrun hv hworks rfl (fun p hp => by rw [hs] at hp; exact hp)
          ((hrec.2.2 t i).2 ⟨rfl, rfl⟩) (fun j hj => ?_) hrec
        rw [getLsbD_mark, decide_eq_false hj, Bool.or_false]
      have hsame : Mutexes.setStage { S with waits := v } t (.registering m loops (.mark i)) =
          { S with waits := v } := by
        simp only [Mutexes.setStage, ← hs, Function.update_eq_self]
      rw [hsame] at hheld
      refine hheld.filed hs ?_
      show (v.heldMask t).getLsbD i.val = true
      rw [(Waits.next_hold hrun hv).1, Function.update_self, getLsbD_mark]
      simp
  | @claims t m loops claim S₁ claim' hs hclaim =>
      obtain ⟨hworks, hrec⟩ := hi.record hs rfl
      have howner : S₁.owner m = some t := by
        rw [(claimStep_spec hrec.2 hclaim).1.2.1]
        exact hrec.1
      refine hi.claims hworks rfl (fun p hp => ?_) hrec.2 hclaim fun hc => ⟨howner, ?_⟩
      · rw [hs] at hp
        cases loops <;> exact hp
      · cases claim' <;> exact hc
  | loop hs hv => exact hi.loop hs hv
  | arm hs hp hlock hv => exact ((hi.arm hs hp hlock hv).caches S.topPriority _).refreshTop _
  | pollTakes hs hp hfree =>
      refine hi.takes hfree (by rw [hs]; rfl) ?_
      rcases hi.loopPlace hs with hout | ⟨hsource, hcancel, -⟩
      · rw [hp] at hout
        cases hout
      · rw [hp] at hsource hcancel ⊢
        cases hsource
        cases hcancel
        rfl
  | polls hs hp hheld hv => exact hi.polls hs hp hheld hv
  | disarm hs hp hlock hv =>
      have hinv := hi.disarm hs hp hlock hv
      split
      · exact hinv.refreshTop _
      · exact hinv
  | acquired hs ho hv => exact hi.acquired hs ho hv
  | unlock hs ho => exact hi.unlock hs ho
  | @retireMask t m i v hrun hs hheld hslot hv =>
      obtain ⟨hworks, ho, j, hj, hslotted, -⟩ := hi.record hs rfl
      obtain rfl : j = i := Option.some.inj (hj.symm.trans hheld)
      refine hi.holds (m := m) (i := j) hrun hv hworks rfl (fun p hp => by rw [hs] at hp; exact hp)
        hslot (fun k hk => ?_) ⟨ho, hheld, hslotted, ?_⟩
      · rw [getLsbD_unmark, decide_eq_false hk]
        simp
      · show (v.heldMask t).getLsbD j.val = false
        rw [(Waits.next_hold hrun hv).1, Function.update_self, getLsbD_unmark]
        simp
  | retireSlot hs => exact hi.retires hs
  | @retireWord t m hs =>
      obtain ⟨hworks, hrec⟩ := hi.record hs rfl
      refine hi.work (m := m) (t := t) rfl rfl rfl rfl hworks rfl (fun p hp => by rw [hs] at hp; exact hp)
        (fun x hx => ?_) ⟨hrec.1, Function.update_self .., hrec.2⟩ fun _ _ h _ => h
      exact ⟨rfl, Function.update_of_ne hx _ _, fun _ _ => Iff.rfl, fun _ _ _ => rfl, fun h => ⟨h, rfl⟩⟩
  | @enter t m hs =>
      obtain ⟨hworks, hrec⟩ := hi.record hs rfl
      refine hi.work (m := m) (t := t) rfl rfl rfl rfl hworks rfl (fun p hp => by rw [hs] at hp; exact hp)
        (fun x hx => ?_) ⟨hrec.1, hrec.2, Function.update_self ..⟩ fun _ _ h _ => h
      exact ⟨rfl, rfl, fun _ _ => Iff.rfl, fun _ _ _ => rfl,
        fun h => ⟨(Function.update_of_ne hx _ _).trans h, rfl⟩⟩
  | frees hs hq => exact hi.frees hs hq
  | hands hs hq => exact hi.hands hs hq
  | @handedOver t m chosen i v hs hv =>
      have hinv := hi.handedOver hs hv
      obtain ⟨top, bridges, heq⟩ := refreshTop_eq ({ S with waits := v } : Mutexes T M Q) m
      rw [heq]
      exact hinv.caches top bridges
  | @files t m chosen claim S₁ claim' hs hclaim =>
      obtain ⟨hworks, ho, hclaimed, hlock, hhead⟩ := hi.record hs rfl
      obtain ⟨hwaits, howner, -, -, hlocks⟩ := (claimStep_spec hclaimed hclaim).1
      refine hi.claims hworks rfl (fun p hp => by rw [hs] at hp; exact hp) hclaimed hclaim fun hc =>
        ⟨?_, ?_, ?_, ?_⟩
      · show S₁.owner m = _
        rw [howner]
        exact ho
      · cases claim' <;> exact hc
      · show S₁.queueLock m = _
        rw [hlocks]
        exact hlock
      · show (S₁.waits.queue (.mutex m)).head? = _
        rw [hwaits]
        exact hhead

omit [DecidableEq M] [DecidableEq Q] in
theorem inv_boot (idle : ∀ c, T c) (basePriority : ∀ c, T c → Level) (threads : ∀ c, List (T c)) :
    Inv (boot idle basePriority threads : Mutexes T M Q) where
  waits := Waits.inv_boot idle basePriority threads
  nodes := Waits.nodes_boot idle basePriority threads
  place := fun _ _ => ⟨by rintro ⟨⟩, by rintro ⟨⟩⟩
  recorded := fun _ => ⟨none, fun _ => iff_of_false (by rintro ⟨⟩) (by rintro ⟨⟩), Or.inl ⟨rfl, rfl, fun _ _ => nofun⟩⟩
  bits := fun t i hb => by
    have hzero : (boot idle basePriority threads : Mutexes T M Q).mask t = 0 :=
      Sched.heldMask_boot (idle t.1) (basePriority t.1) (threads t.1) t.2
    rw [hzero] at hb
    simp at hb
  handed := fun _ _ h => by cases h
  starved := fun _ _ h => by cases h
  inside := nofun
  trying := nofun

end WaitSteps

end Cyros.Kernel.Mutexes
