import Cyros.Kernel.Mutex

/-!
# The words of a mutex

At any moment at most one thread works on the words of a mutex: the one that took it and registers it, the
one that gives it up, or the one that hands it over and files it for the next owner (`Recorded`).  Whoever
waits for it is at a place of its pass that tells whether the mutex has been handed to it (`Inv.handed`).

* `SameWords.recorded`: a step on another mutex leaves the words of this one alone, although both may be
  filed in the slots of one thread.
* `Inv.work`, `Inv.of_change`: the steps that leave the waits alone keep the invariant.
-/

namespace Cyros.Kernel.Mutexes

open Cyros.Lib

variable {n : ℕ} {T : Fin n → Type} {M Q : Type}

/-! ### The words of a mutex -/

section Words

variable (S : Mutexes T M Q) (m : M)

def bit (t : Σ c, T c) (i : Fin 4) : Bool := (S.mask t).getLsbD i.val

/-- No word names the mutex. -/
def Clean : Prop := S.heldSlot m = none ∧ ∀ t i, S.heldSlots t i ≠ some m

/-- Slot `i` of `t`, and no other, names the mutex. -/
def Slotted (t : Σ c, T c) (i : Fin 4) : Prop := ∀ u j, S.heldSlots u j = some m ↔ u = t ∧ j = i

/-- The mutex is filed in slot `i` of `t`. -/
def Filed (t : Σ c, T c) (i : Fin 4) : Prop :=
  S.heldSlot m = some i ∧ S.Slotted m t i ∧ S.bit t i = true

/-- What a claim for `t` has done so far. -/
def Claimed (t : Σ c, T c) : Claim → Prop
  | .scan _ => S.Clean m
  | .store i => S.heldSlot m = none ∧ S.Slotted m t i
  | .mark i => S.heldSlot m = some i ∧ S.Slotted m t i

/-- The words while `t` works on them. -/
def StageRecord (t : Σ c, T c) : MutexStage T M → Prop
  | .idle | .trying .. | .looping _ => False
  | .checking _ _ | .entering _ => S.owner m = some t ∧ S.Clean m
  | .registering _ _ claim => S.owner m = some t ∧ S.Claimed m t claim
  | .retiring _ .mask => S.owner m = some t ∧ ∃ i, S.Filed m t i
  | .retiring _ (.slot i) =>
      S.owner m = some t ∧ S.heldSlot m = some i ∧ S.Slotted m t i ∧ S.bit t i = false
  | .retiring _ .word => S.owner m = some t ∧ ∀ u j, S.heldSlots u j ≠ some m
  | .committing _ => S.owner m = some t ∧ S.Clean m ∧ S.queueLock m = true
  | .filing _ chosen claim => S.owner m = some chosen ∧ S.Claimed m chosen claim ∧ S.queueLock m = true ∧
      (S.waits.queue (.mutex m)).head? = some (chosen, false)

/-- The words of a mutex, with the thread that works on them. -/
def Record : Option (Σ c, T c) → Prop
  | none => S.owner m = none ∧ S.Clean m ∨ ∃ t i, S.owner m = some t ∧ S.Filed m t i
  | some t => S.StageRecord m t (S.stage t)

/-- At most one thread works on the words. -/
def Recorded : Prop := ∃ worker, (∀ t, (S.stage t).works = some m ↔ worker = some t) ∧ S.Record m worker

end Words

variable {S S' : Mutexes T M Q} {m : M} {t : Σ c, T c}

/-- The words of the mutex read the same in both states. -/
structure SameWords (S S' : Mutexes T M Q) (m : M) : Prop where
  owner : S'.owner m = S.owner m
  heldSlot : S'.heldSlot m = S.heldSlot m
  slots : ∀ t i, S'.heldSlots t i = some m ↔ S.heldSlots t i = some m
  bits : ∀ t i, S.heldSlots t i = some m → S'.bit t i = S.bit t i
  lock : S.queueLock m = true →
    S'.queueLock m = true ∧ S'.waits.queue (.mutex m) = S.waits.queue (.mutex m)

namespace SameWords

theorem clean (h : SameWords S S' m) (hc : S.Clean m) : S'.Clean m :=
  ⟨h.heldSlot.trans hc.1, fun t i he => hc.2 t i ((h.slots t i).1 he)⟩

theorem slotted (h : SameWords S S' m) {i : Fin 4} (hs : S.Slotted m t i) : S'.Slotted m t i :=
  fun u j => (h.slots u j).trans (hs u j)

theorem bit (h : SameWords S S' m) {i : Fin 4} (hs : S.Slotted m t i) : S'.bit t i = S.bit t i :=
  h.bits t i ((hs t i).2 ⟨rfl, rfl⟩)

theorem filed (h : SameWords S S' m) {i : Fin 4} (hf : S.Filed m t i) : S'.Filed m t i :=
  ⟨h.heldSlot.trans hf.1, h.slotted hf.2.1, (h.bit hf.2.1).trans hf.2.2⟩

theorem claimed (h : SameWords S S' m) {claim : Claim} (hc : S.Claimed m t claim) :
    S'.Claimed m t claim := by
  cases claim with
  | scan i => exact h.clean hc
  | store i => exact ⟨h.heldSlot.trans hc.1, h.slotted hc.2⟩
  | mark i => exact ⟨h.heldSlot.trans hc.1, h.slotted hc.2⟩

theorem stageRecord (h : SameWords S S' m) {g : MutexStage T M} (hg : S.StageRecord m t g) :
    S'.StageRecord m t g := by
  cases g with
  | idle | trying | looping => exact hg
  | checking | entering => exact ⟨h.owner.trans hg.1, h.clean hg.2⟩
  | registering m' loops claim => exact ⟨h.owner.trans hg.1, h.claimed hg.2⟩
  | retiring m' retire =>
      cases retire with
      | mask =>
          obtain ⟨ho, i, hf⟩ := hg
          exact ⟨h.owner.trans ho, i, h.filed hf⟩
      | slot i =>
          obtain ⟨ho, hslot, hs, hb⟩ := hg
          exact ⟨h.owner.trans ho, h.heldSlot.trans hslot, h.slotted hs, (h.bit hs).trans hb⟩
      | word => exact ⟨h.owner.trans hg.1, fun u j he => hg.2 u j ((h.slots u j).1 he)⟩
  | committing m' => exact ⟨h.owner.trans hg.1, h.clean hg.2.1, (h.lock hg.2.2).1⟩
  | filing m' chosen claim =>
      obtain ⟨ho, hc, hl, hq⟩ := hg
      exact ⟨h.owner.trans ho, h.claimed hc, (h.lock hl).1, by rw [(h.lock hl).2]; exact hq⟩

/-- **A step on another mutex** leaves the words of this one alone. -/
theorem recorded (h : SameWords S S' m) (hr : S.Recorded m)
    (hworks : ∀ u, (S'.stage u).works = some m ↔ (S.stage u).works = some m)
    (hstage : ∀ u, (S.stage u).works = some m → S'.stage u = S.stage u) : S'.Recorded m := by
  obtain ⟨worker, hw, hrec⟩ := hr
  refine ⟨worker, fun u => (hworks u).trans (hw u), ?_⟩
  cases worker with
  | none =>
      rcases hrec with ⟨ho, hc⟩ | ⟨u, i, ho, hf⟩
      · exact Or.inl ⟨h.owner.trans ho, h.clean hc⟩
      · exact Or.inr ⟨u, i, h.owner.trans ho, h.filed hf⟩
  | some u =>
      show S'.StageRecord m u (S'.stage u)
      rw [hstage u ((hw u).2 rfl)]
      exact h.stageRecord hrec

end SameWords

namespace Recorded

/-- What a working thread finds. -/
theorem stageRecord (h : S.Recorded m) (ht : (S.stage t).works = some m) :
    S.StageRecord m t (S.stage t) := by
  obtain ⟨worker, hw, hrec⟩ := h
  rw [(hw t).1 ht] at hrec
  exact hrec

theorem unique (h : S.Recorded m) {u : Σ c, T c} (ht : (S.stage t).works = some m)
    (hu : (S.stage u).works = some m) : u = t := by
  obtain ⟨worker, hw, -⟩ := h
  exact Option.some.inj (((hw u).1 hu).symm.trans ((hw t).1 ht))

/-- What anybody finds while nobody works on it. -/
theorem idle (h : S.Recorded m) (hidle : ∀ u, (S.stage u).works ≠ some m) :
    S.owner m = none ∧ S.Clean m ∨ ∃ t i, S.owner m = some t ∧ S.Filed m t i := by
  obtain ⟨worker, hw, hrec⟩ := h
  cases worker with
  | none => exact hrec
  | some u => exact absurd ((hw u).2 rfl) (hidle u)

/-- Who works on a mutex that is free: nobody. -/
theorem idle_of_free (h : S.Recorded m) (hfree : S.owner m = none) (u : Σ c, T c) :
    (S.stage u).works ≠ some m := by
  intro hu
  have hrec := h.stageRecord hu
  cases hg : S.stage u with
  | idle | trying | looping => simp [hg, MutexStage.works] at hu
  | checking | registering | entering | committing | filing =>
      rw [hg] at hrec
      have := hrec.1
      simp [hfree] at this
  | retiring m' retire =>
      rw [hg] at hrec
      cases retire with
      | mask | slot | word =>
        have := hrec.1
        simp [hfree] at this

variable (hsame : ∀ u, u ≠ t → S'.stage u = S.stage u)
include hsame

/-- The thread begins to work on the mutex, or goes on. -/
theorem working (hother : ∀ u, u ≠ t → (S.stage u).works ≠ some m) (hnew : (S'.stage t).works = some m)
    (hrec : S'.StageRecord m t (S'.stage t)) : S'.Recorded m := by
  refine ⟨some t, fun u => ?_, hrec⟩
  by_cases hu : u = t
  · simp [hu, hnew]
  · rw [hsame u hu]
    refine iff_of_false (hother u hu) fun he => hu (Option.some.inj he).symm

/-- The thread is done with it. -/
theorem done (hother : ∀ u, u ≠ t → (S.stage u).works ≠ some m) (hnew : (S'.stage t).works ≠ some m)
    (hrec : S'.owner m = none ∧ S'.Clean m ∨ ∃ t i, S'.owner m = some t ∧ S'.Filed m t i) :
    S'.Recorded m := by
  refine ⟨none, fun u => ?_, hrec⟩
  by_cases hu : u = t
  · rw [hu]
    exact iff_of_false hnew nofun
  · rw [hsame u hu]
    exact iff_of_false (hother u hu) nofun

end Recorded

/-! ### The invariant -/

/-- The thread's poll found the mutex of another. -/
def failed : WaitPlace (MutexQueue M Q) → Option (MutexQueue M Q)
  | .committing w _ | .disarming w _ false => some w
  | _ => none

/-- Where a thread at a stage of its calls can be in a wait. -/
def PlaceOk : MutexStage T M → WaitPlace (MutexQueue M Q) → Prop
  | .trying .., p | .checking _ false, p | .registering _ false _, p => p = .outside
  | .checking m true, p | .registering m true _, p => p = .polling (.mutex m) none
  | .looping m, p => p = .outside ∨
      p.source = some (.mutex m) ∧ p.cancel = none ∧ ∀ w c, p ≠ .settling w c false
  | .idle, p | .retiring .., p | .entering _, p | .committing _, p | .filing .., p =>
      ∀ m, p.source ≠ some (.mutex m) ∧ p.cancel ≠ some (.mutex m)

structure Inv (S : Mutexes T M Q) : Prop where
  waits : S.waits.Inv
  nodes : S.waits.Nodes
  place : ∀ t, PlaceOk (S.stage t) (S.waits.place t)
  recorded : ∀ m, S.Recorded m
  /-- A bit stands for a slot in use. -/
  bits : ∀ t i, (S.mask t).getLsbD i = true → ∃ h : i < 4, S.heldSlots t ⟨i, h⟩ ≠ none
  /-- A hand-over has taken the node of its new owner only. -/
  handed : ∀ t m, (.mutex m, false) ∈ (S.waits.place t).armed → (t, false) ∉ S.waits.queue (.mutex m) →
    S.owner m = some t
  /-- A free mutex has no waiter but those who will poll it. -/
  starved : ∀ t m, failed (S.waits.place t) = some (.mutex m) → (t, false) ∈ S.waits.queue (.mutex m) →
    S.owner m ≠ none
  inside : ∀ t m, S.inside t m = true →
    S.owner m = some t ∧ (S.stage t).works ≠ some m ∧ S.stage t ≠ .looping m
  trying : ∀ t m, S.stage t = .trying m true → S.owner m ≠ some t

namespace PlaceOk

variable {g : MutexStage T M} {p : WaitPlace (MutexQueue M Q)}

/-- No mutex is a cancel signal. -/
theorem cancel (h : PlaceOk g p) (m : M) : p.cancel ≠ some (.mutex m) := by
  cases g with
  | trying => simp_all [PlaceOk, WaitPlace.cancel]
  | checking m' b => cases b <;> simp_all [PlaceOk, WaitPlace.cancel]
  | registering m' b => cases b <;> simp_all [PlaceOk, WaitPlace.cancel]
  | looping m' =>
      rcases h with rfl | ⟨-, hc, -⟩
      · nofun
      · simp [hc]
  | idle | retiring | entering | committing | filing => exact (h m).2

/-- Whoever waits for a mutex is in its loop. -/
theorem source (h : PlaceOk g p) (hp : p.source = some (.mutex m)) :
    g = .looping m ∨ g = .checking m true ∨ ∃ claim, g = .registering m true claim := by
  cases g with
  | trying => simp_all [PlaceOk, WaitPlace.source]
  | checking m' b => cases b <;> simp_all [PlaceOk, WaitPlace.source]
  | registering m' b claim => cases b <;> simp_all [PlaceOk, WaitPlace.source]
  | looping m' =>
      rcases h with rfl | ⟨hs, -⟩
      · cases hp
      · rw [hs] at hp
        cases hp
        exact Or.inl rfl
  | idle | retiring | entering | committing | filing => exact absurd hp (h m).1

end PlaceOk

theorem source_of_armed {p : WaitPlace (MutexQueue M Q)} (hc : p.cancel ≠ some (.mutex m)) {b : Bool}
    (h : (.mutex m, b) ∈ p.armed) : p.source = some (.mutex m) ∧ b = false := by
  cases p <;> simp_all [WaitPlace.armed, WaitPlace.source, WaitPlace.cancel]

namespace Inv

theorem placed (hi : Inv S) {g : MutexStage T M} (hs : S.stage t = g) : PlaceOk g (S.waits.place t) :=
  hs ▸ hi.place t

theorem record (hi : Inv S) {g : MutexStage T M} (hs : S.stage t = g) (hg : g.works = some m) :
    (S.stage t).works = some m ∧ S.StageRecord m t g := by
  subst hs
  exact ⟨hg, (hi.recorded m).stageRecord hg⟩

/-- Who has a node on the queue of a mutex waits for it. -/
theorem queued (hi : Inv S) {x : (Σ c, T c) × Bool} (hx : x ∈ S.waits.queue (.mutex m)) :
    (S.waits.place x.1).source = some (.mutex m) ∧ x.2 = false :=
  source_of_armed ((hi.place x.1).cancel m) (hi.nodes.armed _ x hx)

/-- The owner outside its calls: nobody works on the mutex. -/
theorem idle_of_owner (hi : Inv S) (ho : S.owner m = some t) (hs : S.stage t = .idle) (u : Σ c, T c) :
    (S.stage u).works ≠ some m := by
  intro hu
  have hrec := (hi.recorded m).stageRecord hu
  have hself : S.owner m = some u → False := by
    intro hou
    obtain rfl : t = u := Option.some.inj (ho.symm.trans hou)
    rw [hs] at hu
    cases hu
  cases hg : S.stage u with
  | idle | trying | looping => simp [hg, MutexStage.works] at hu
  | checking | registering | entering | committing =>
      rw [hg] at hrec
      exact hself hrec.1
  | retiring m' retire =>
      rw [hg] at hrec
      cases retire <;> exact hself hrec.1
  | filing m' chosen claim =>
      rw [hg] at hrec
      obtain ⟨hc, -, -, hhead⟩ := hrec
      obtain rfl : t = chosen := Option.some.inj (ho.symm.trans hc)
      exact (hi.placed hs m).1 (hi.queued (List.mem_of_mem_head? hhead)).1

end Inv

/-! ### Steps that leave the waits alone -/

namespace Inv

variable (hsame : ∀ u, u ≠ t → S'.stage u = S.stage u)
include hsame

/-- A step of `t` on the mutex `m` leaves every other mutex as it was. -/
theorem recorded_of (hi : Inv S) (hold : ∀ x, (S.stage t).works = some x → x = m)
    (hnew : ∀ x, (S'.stage t).works = some x → x = m) (hwords : ∀ x, x ≠ m → SameWords S S' x)
    (hm : S'.Recorded m) (x : M) : S'.Recorded x := by
  by_cases hx : x = m
  · rw [hx]
    exact hm
  · refine (hwords x hx).recorded (hi.recorded x) (fun u => ?_) fun u hu => ?_
    · by_cases hut : u = t
      · rw [hut]
        exact iff_of_false (fun he => hx (hnew x he)) fun he => hx (hold x he)
      · rw [hsame u hut]
    · exact hsame u fun hut => hx (hold x (hut ▸ hu))

/-- A step that leaves the waits and the owners alone. -/
theorem of_owner (hi : Inv S) (hwaits : S'.waits = S.waits) (howner : S'.owner = S.owner)
    (hplace : PlaceOk (S'.stage t) (S.waits.place t)) (hrec : ∀ x, S'.Recorded x)
    (hbits : ∀ u i, S.heldSlots u i ≠ none → S.bit u i = true → S'.heldSlots u i ≠ none)
    (hinside : ∀ u x, S'.inside u x = true → S.inside u x = true ∨ u = t ∧ S.owner x = some t)
    (hmine : ∀ x, S'.inside t x = true → (S'.stage t).works ≠ some x ∧ S'.stage t ≠ .looping x)
    (htrying : ∀ x, S'.stage t = .trying x true → S.owner x ≠ some t) : Inv S' where
  waits := hwaits ▸ hi.waits
  nodes := hwaits ▸ hi.nodes
  place := fun u => by
    rw [hwaits]
    by_cases hu : u = t
    · rw [hu]
      exact hplace
    · rw [hsame u hu]
      exact hi.place u
  recorded := hrec
  bits := fun u i hb => by
    rw [mask, hwaits] at hb
    obtain ⟨h, hslot⟩ := hi.bits u i hb
    exact ⟨h, hbits u ⟨i, h⟩ hslot hb⟩
  handed := fun u x harmed hgone => by
    rw [hwaits] at harmed hgone
    rw [howner]
    exact hi.handed u x harmed hgone
  starved := fun u x hf hq => by
    rw [hwaits] at hf hq
    rw [howner]
    exact hi.starved u x hf hq
  inside := fun u x hin => by
    rw [howner]
    by_cases hu : u = t
    · subst hu
      refine ⟨?_, hmine x hin⟩
      exact (hinside u x hin).elim (fun h => (hi.inside u x h).1) fun h => h.2
    · rw [hsame u hu]
      exact hi.inside u x ((hinside u x hin).resolve_right fun h => hu h.1)
  trying := fun u x hs => by
    rw [howner]
    by_cases hu : u = t
    · subst hu
      exact htrying x hs
    · rw [hsame u hu] at hs
      exact hi.trying u x hs

omit hsame in
/-- A thread that goes on with its work on a mutex is inside none that it works on. -/
theorem inside_of_works (hi : Inv S) {g : MutexStage T M} (hold : (S.stage t).works = some m)
    (hnew : g.works = some m) (x : M) (hx : S.inside t x = true) : g.works ≠ some x ∧ g ≠ .looping x := by
  obtain ⟨-, hw, -⟩ := hi.inside t x hx
  rw [hold] at hw
  refine ⟨by rw [hnew]; exact hw, ?_⟩
  rintro rfl
  cases hnew

end Inv

section LocalSteps

variable [∀ c, DecidableEq (T c)] [DecidableEq M]

omit [DecidableEq M] in
theorem stage_setStage_of_ne {g : MutexStage T M} {u : Σ c, T c} (hu : u ≠ t) :
    (S.setStage t g).stage u = S.stage u := Function.update_of_ne hu _ _

omit [DecidableEq M] in
@[simp] theorem stage_setStage {g : MutexStage T M} : (S.setStage t g).stage t = g :=
  Function.update_self ..

omit [DecidableEq M] in
theorem SameWords.setStage (g : MutexStage T M) (x : M) : SameWords S (S.setStage t g) x :=
  ⟨rfl, rfl, fun _ _ => Iff.rfl, fun _ _ _ => rfl, fun h => ⟨h, rfl⟩⟩

omit [DecidableEq M] in
/-- The thread begins a call, or its attempt fails. -/
theorem Inv.setStage (hi : Inv S) {g : MutexStage T M} (hold : (S.stage t).works = none)
    (hnew : g.works = none) (hplace : PlaceOk g (S.waits.place t))
    (hmine : ∀ x, g = .looping x → S.inside t x = false)
    (htrying : ∀ x, g = .trying x true → S.owner x ≠ some t) : Inv (S.setStage t g) := by
  refine Inv.of_owner (t := t) (fun u hu => stage_setStage_of_ne hu) hi rfl rfl (by simpa using hplace)
    (fun x => ?_) (fun _ _ h _ => h) (fun _ _ h => Or.inl h) (fun x hx => ?_) (by simpa using htrying)
  · refine (SameWords.setStage g x).recorded (hi.recorded x) (fun u => ?_) fun u hu => ?_
    · by_cases hu : u = t
      · subst hu
        simp [hold, hnew]
      · rw [stage_setStage_of_ne hu]
    · refine stage_setStage_of_ne fun hut => ?_
      rw [hut, hold] at hu
      cases hu
  · refine ⟨by simp [hnew], ?_⟩
    rw [stage_setStage]
    intro hg
    have hin := hmine x hg
    rw [show S.inside t x = true from hx] at hin
    cases hin

/-- `unlock` begins. -/
theorem Inv.unlock (hi : Inv S) (hs : S.stage t = .idle) (ho : S.owner m = some t) :
    Inv ((S.setStage t (.retiring m .mask)).setInside t m false) := by
  have hidle := hi.idle_of_owner ho hs
  have hsame : ∀ u, u ≠ t →
      ((S.setStage t (.retiring m .mask)).setInside t m false).stage u = S.stage u :=
    fun u hu => Function.update_of_ne hu _ _
  have hstage : ((S.setStage t (.retiring m .mask)).setInside t m false).stage t = .retiring m .mask :=
    Function.update_self ..
  have hinside : ∀ u x, ((S.setStage t (.retiring m .mask)).setInside t m false).inside u x = true →
      S.inside u x = true ∧ ¬ (u = t ∧ x = m) := by
    intro u x hx
    by_cases hu : u = t
    · subst hu
      by_cases hxm : x = m
      · subst hxm
        simp [setInside] at hx
      · exact ⟨by simpa [setInside, Mutexes.setStage, hxm] using hx, fun h => hxm h.2⟩
    · exact ⟨by simpa [setInside, Mutexes.setStage, hu] using hx, fun h => hu h.1⟩
  refine Inv.of_owner (t := t) hsame hi rfl rfl ?_ ?_ (fun _ _ h _ => h)
    (fun u x hx => Or.inl (hinside u x hx).1) (fun x hx => ?_) ?_
  · rw [hstage]
    have hplace := hi.placed hs
    exact hplace
  · refine recorded_of (m := m) hsame hi (by simp [hs, MutexStage.works])
      (by simp [hstage, MutexStage.works]) (fun x _ => ⟨rfl, rfl, fun _ _ => Iff.rfl, fun _ _ _ => rfl, fun h => ⟨h, rfl⟩⟩) ?_
    refine Recorded.working hsame (fun u _ => hidle u) (by rw [hstage]; rfl) ?_
    rw [hstage]
    rcases (hi.recorded m).idle hidle with ⟨hfree, -⟩ | ⟨u, i, hou, hf⟩
    · rw [ho] at hfree
      cases hfree
    · obtain rfl : t = u := Option.some.inj (ho.symm.trans hou)
      exact ⟨ho, i, hf⟩
  · rw [hstage]
    refine ⟨?_, nofun⟩
    intro hm
    exact (hinside t x hx).2 ⟨rfl, (Option.some.inj hm).symm⟩
  · rw [hstage]
    nofun

omit [DecidableEq M] in
/-- **The thread goes on with its work on `m`**, and leaves the owners and the waits alone. -/
theorem Inv.work (hi : Inv S) {g : MutexStage T M} (hwaits : S'.waits = S.waits)
    (howner : S'.owner = S.owner) (hinside : S'.inside = S.inside)
    (hstage : S'.stage = Function.update S.stage t g) (hold : (S.stage t).works = some m)
    (hnew : g.works = some m) (hplace : ∀ p : WaitPlace (MutexQueue M Q), PlaceOk (S.stage t) p → PlaceOk g p)
    (hwords : ∀ x, x ≠ m → SameWords S S' x) (hrec : S'.StageRecord m t g)
    (hbits : ∀ u i, S.heldSlots u i ≠ none → S.bit u i = true → S'.heldSlots u i ≠ none) : Inv S' := by
  have hsame : ∀ u, u ≠ t → S'.stage u = S.stage u := fun u hu => by
    rw [hstage, Function.update_of_ne hu]
  have hg : S'.stage t = g := by rw [hstage, Function.update_self]
  refine Inv.of_owner hsame hi hwaits howner (by rw [hg]; exact hplace _ (hi.place t)) ?_ hbits
    (fun u x hx => Or.inl (hinside ▸ hx)) (fun x hx => ?_) fun x hx => ?_
  · refine recorded_of (m := m) hsame hi ?_ ?_ hwords ?_
    · intro x hx
      rw [hold] at hx
      exact (Option.some.inj hx).symm
    · intro x hx
      rw [hg, hnew] at hx
      exact (Option.some.inj hx).symm
    · refine Recorded.working hsame (fun u hu hw => hu ((hi.recorded m).unique hold hw)) ?_ ?_
      · rw [hg, hnew]
      · rw [hg]
        exact hrec
  · rw [hg]
    exact hi.inside_of_works hold hnew x (hinside ▸ hx)
  · rw [hg] at hx
    rw [hx] at hnew
    cases hnew

/-- **A step of `claim_slot`** leaves every other mutex as it was. -/
theorem claimStep_spec {claim claim' : Claim} {S₁ : Mutexes T M Q} (hc : S.Claimed m t claim)
    (h : S.claimStep t m claim = some (S₁, claim')) :
    (S₁.waits = S.waits ∧ S₁.owner = S.owner ∧ S₁.inside = S.inside ∧ S₁.stage = S.stage ∧
      S₁.queueLock = S.queueLock) ∧ S₁.Claimed m t claim' ∧ (∀ x, x ≠ m → SameWords S S₁ x) ∧
      ∀ u i, S.heldSlots u i ≠ none → S₁.heldSlots u i ≠ none := by
  cases claim with
  | scan i =>
      simp only [claimStep] at h
      split at h
      · next hlt =>
        split at h
        · next hfree =>
          cases h
          have hslots : ∀ u j x, (S.setSlot t ⟨i, hlt⟩ (some m)).heldSlots u j = some x ↔
              (u = t ∧ j = ⟨i, hlt⟩ ∧ x = m) ∨ S.heldSlots u j = some x := by
            intro u j x
            by_cases hu : u = t
            · subst hu
              by_cases hj : j = ⟨i, hlt⟩
              · subst hj
                simp [setSlot, hfree, eq_comm]
              · simp [setSlot, hj]
            · simp [setSlot, hu]
          refine ⟨⟨rfl, rfl, rfl, rfl, rfl⟩, ⟨hc.1, fun u j => ?_⟩, fun x hx => ?_, fun u j hne => ?_⟩
          · rw [hslots]
            simp [hc.2 u j]
          · refine ⟨rfl, rfl, fun u j => ?_, fun _ _ _ => rfl, fun hl => ⟨hl, rfl⟩⟩
            rw [hslots]
            simp [hx]
          · obtain ⟨x, hx⟩ := Option.ne_none_iff_exists'.1 hne
            rw [(hslots u j x).2 (Or.inr hx)]
            nofun
        · cases h
          exact ⟨⟨rfl, rfl, rfl, rfl, rfl⟩, hc,
            fun x _ => ⟨rfl, rfl, fun _ _ => Iff.rfl, fun _ _ _ => rfl, fun hl => ⟨hl, rfl⟩⟩, fun _ _ h => h⟩
      · cases h
  | store i =>
      cases h
      refine ⟨⟨rfl, rfl, rfl, rfl, rfl⟩, ⟨Function.update_self .., hc.2⟩, fun x hx => ?_, fun _ _ h => h⟩
      exact ⟨rfl, Function.update_of_ne hx _ _, fun _ _ => Iff.rfl, fun _ _ _ => rfl, fun hl => ⟨hl, rfl⟩⟩
  | mark i => cases h

omit [DecidableEq M] in
/-- The slot is cleared, after its bit. -/
theorem Inv.retires (hi : Inv S) {i : Fin 4} (hs : S.stage t = .retiring m (.slot i)) :
    Inv ((S.setSlot t i none).setStage t (.retiring m .word)) := by
  obtain ⟨hworks, ho, -, hslotted, hbit⟩ := hi.record hs rfl
  have hslots : ∀ u j, (u = t ∧ j = i) ∨ (S.setSlot t i none).heldSlots u j = S.heldSlots u j := by
    intro u j
    by_cases hu : u = t
    · subst hu
      by_cases hj : j = i
      · exact Or.inl ⟨rfl, hj⟩
      · exact Or.inr (by simp [setSlot, hj])
    · exact Or.inr (by simp [setSlot, hu])
  have hcleared : (S.setSlot t i none).heldSlots t i = none := by simp [setSlot]
  refine hi.work (m := m) (t := t) rfl rfl rfl rfl hworks rfl (fun p hp => by rw [hs] at hp; exact hp)
    (fun x hx => ?_) ⟨ho, fun u j hj => ?_⟩ fun u j hne hb => ?_
  · refine ⟨rfl, rfl, fun u j => ?_, fun _ _ _ => rfl, fun h => ⟨h, rfl⟩⟩
    show (S.setSlot t i none).heldSlots u j = some x ↔ S.heldSlots u j = some x
    rcases hslots u j with ⟨rfl, rfl⟩ | heq
    · rw [hcleared, (hslotted u j).2 ⟨rfl, rfl⟩]
      exact iff_of_false nofun fun he => hx (Option.some.inj he).symm
    · rw [heq]
  · have hnamed : (S.setSlot t i none).heldSlots u j = some m := hj
    rcases hslots u j with ⟨rfl, rfl⟩ | heq
    · rw [hcleared] at hnamed
      cases hnamed
    · obtain ⟨rfl, rfl⟩ := (hslotted u j).1 (heq ▸ hnamed)
      rw [hcleared] at hnamed
      cases hnamed
  · show (S.setSlot t i none).heldSlots u j ≠ none
    rcases hslots u j with ⟨rfl, rfl⟩ | heq
    · rw [hbit] at hb
      cases hb
    · rw [heq]
      exact hne

/-- **The owner word is written**, by the exchange that takes a free mutex or by the owner that hands it
over. -/
theorem Inv.of_change (hi : Inv S) {g : MutexStage T M} {o : Option (Σ c, T c)}
    (hwaits : S'.waits = S.waits) (howner : S'.owner = Function.update S.owner m o)
    (hinside : S'.inside = S.inside) (hslots : S'.heldSlots = S.heldSlots)
    (hstage : S'.stage = Function.update S.stage t g)
    (hfrom : ∀ u, S.owner m = some u →
      u = t ∧ (S.stage t).works = some m ∧ (S.waits.place t).source ≠ some (.mutex m))
    (hwho : ∀ u, o = some u → u ≠ t → S.stage u ≠ .trying m true)
    (hnone : o = none → S.waits.queue (.mutex m) = []) (hplace : PlaceOk g (S.waits.place t))
    (htrying : ∀ x, g ≠ .trying x true) (hlooping : ∀ x, g ≠ .looping x)
    (hold : ∀ x, (S.stage t).works = some x → x = m) (hworks : ∀ x, g.works = some x → x = m)
    (hwords : ∀ x, x ≠ m → SameWords S S' x) (hrec : S'.Recorded m) : Inv S' where
  waits := hwaits ▸ hi.waits
  nodes := hwaits ▸ hi.nodes
  place := fun u => by
    rw [hwaits, hstage]
    by_cases hu : u = t
    · rw [hu, Function.update_self]
      exact hplace
    · rw [Function.update_of_ne hu]
      exact hi.place u
  recorded := by
    refine recorded_of (t := t) (fun u hu => ?_) hi hold ?_ hwords hrec
    · rw [hstage, Function.update_of_ne hu]
    · rw [hstage, Function.update_self]
      exact hworks
  bits := fun u i hb => by
    rw [mask, hwaits] at hb
    rw [hslots]
    exact hi.bits u i hb
  handed := fun u x harmed hgone => by
    rw [hwaits] at harmed hgone
    have hou := hi.handed u x harmed hgone
    rw [howner]
    by_cases hx : x = m
    · subst hx
      obtain ⟨rfl, -, hsource⟩ := hfrom u hou
      exact absurd (source_of_armed ((hi.place u).cancel x) harmed).1 hsource
    · rw [Function.update_of_ne hx]
      exact hou
  starved := fun u x hf hq => by
    rw [hwaits] at hf hq
    rw [howner]
    by_cases hx : x = m
    · subst hx
      rw [Function.update_self]
      intro ho
      rw [hnone ho] at hq
      cases hq
    · rw [Function.update_of_ne hx]
      exact hi.starved u x hf hq
  inside := fun u x hin => by
    rw [hinside] at hin
    obtain ⟨hou, hw, hl⟩ := hi.inside u x hin
    have hx : x ≠ m := by
      rintro rfl
      obtain ⟨rfl, hwt, -⟩ := hfrom u hou
      exact hw hwt
    rw [howner, hstage, Function.update_of_ne hx]
    refine ⟨hou, ?_⟩
    by_cases hu : u = t
    · rw [hu, Function.update_self]
      exact ⟨fun he => hx (hworks x he), hlooping x⟩
    · rw [Function.update_of_ne hu]
      exact ⟨hw, hl⟩
  trying := fun u x hs => by
    rw [hstage] at hs
    by_cases hu : u = t
    · rw [hu, Function.update_self] at hs
      exact absurd hs (htrying x)
    · rw [Function.update_of_ne hu] at hs
      rw [howner]
      by_cases hx : x = m
      · subst hx
        rw [Function.update_self]
        exact fun ho => hwho u ho hu hs
      · rw [Function.update_of_ne hx]
        exact hi.trying u x hs

/-- A free mutex is taken. -/
theorem Inv.takes (hi : Inv S) {loops : Bool} (hfree : S.owner m = none)
    (hold : (S.stage t).works = none)
    (hplace : PlaceOk (.checking m loops : MutexStage T M) (S.waits.place t)) :
    Inv ((S.setOwner m (some t)).setStage t (.checking m loops)) := by
  have hidle := (hi.recorded m).idle_of_free hfree
  have hclean : S.Clean m := by
    rcases (hi.recorded m).idle hidle with ⟨-, hc⟩ | ⟨u, i, ho, -⟩
    · exact hc
    · rw [hfree] at ho
      cases ho
  refine hi.of_change (m := m) (o := some t) (g := .checking m loops) rfl rfl rfl rfl rfl (fun u hu => ?_)
    (fun u hu hne => absurd (Option.some.inj hu).symm hne) nofun hplace nofun nofun ?_ ?_ (fun x hx => ?_) ?_
  · rw [hfree] at hu
    cases hu
  · rw [hold]
    nofun
  · intro x hx
    exact (Option.some.inj hx).symm
  · exact ⟨Function.update_of_ne hx _ _, rfl, fun _ _ => Iff.rfl, fun _ _ _ => rfl, fun h => ⟨h, rfl⟩⟩
  · refine Recorded.working (S := S) (t := t) (fun u hu => Function.update_of_ne hu _ _)
      (fun u _ => hidle u) ?_ ?_
    · rw [stage_setStage]
      rfl
    · rw [stage_setStage]
      exact ⟨Function.update_self .., hclean⟩

omit [∀ c, DecidableEq (T c)] [DecidableEq M] in
/-- The place of a thread that gives up a mutex is no wait for one. -/
theorem Inv.place_of_release (hi : Inv S) (hs : S.stage t = .committing m) (x : M) :
    (S.waits.place t).source ≠ some (.mutex x) :=
  (hi.placed hs x).1

/-- **The mutex is freed**: the queue is empty. -/
theorem Inv.frees (hi : Inv S) (hs : S.stage t = .committing m) (hq : S.waits.queue (.mutex m) = []) :
    Inv (((S.setOwner m none).setLock m false).setStage t .idle) := by
  obtain ⟨hworks, ho, hclean, -⟩ := hi.record hs rfl
  have hplace := hi.placed hs
  refine hi.of_change (m := m) (o := none) (g := .idle) rfl rfl rfl rfl rfl (fun u hu => ?_) nofun
    (fun _ => hq) hplace nofun nofun ?_ nofun (fun x hx => ?_) ?_
  · obtain rfl : t = u := Option.some.inj (ho.symm.trans hu)
    exact ⟨rfl, hworks, hi.place_of_release hs m⟩
  · rw [hworks]
    intro x hx
    exact (Option.some.inj hx).symm
  · exact ⟨Function.update_of_ne hx _ _, rfl, fun _ _ => Iff.rfl, fun _ _ _ => rfl,
      fun h => ⟨(Function.update_of_ne hx _ _).trans h, rfl⟩⟩
  · refine Recorded.done (S := S) (t := t) (fun u hu => Function.update_of_ne hu _ _)
      (fun u hu hw => hu ((hi.recorded m).unique hworks hw)) ?_ (Or.inl ⟨Function.update_self .., hclean⟩)
    rw [stage_setStage]
    nofun

/-- **The mutex goes to the head of the queue.** -/
theorem Inv.hands (hi : Inv S) {first : (Σ c, T c) × Bool} {rest : List ((Σ c, T c) × Bool)}
    (hs : S.stage t = .committing m) (hq : S.waits.queue (.mutex m) = first :: rest) :
    Inv ((S.setOwner m (some first.1)).setStage t (.filing m first.1 (.scan 0))) := by
  obtain ⟨hworks, ho, hclean, hlock⟩ := hi.record hs rfl
  have hplace := hi.placed hs
  have hfirst := hi.queued (x := first) (by rw [hq]; exact List.mem_cons_self)
  refine hi.of_change (m := m) (o := some first.1) (g := .filing m first.1 (.scan 0)) rfl rfl rfl rfl rfl
    (fun u hu => ?_) (fun u hu _ htry => ?_) nofun hplace nofun nofun ?_ ?_ (fun x hx => ?_) ?_
  · obtain rfl : t = u := Option.some.inj (ho.symm.trans hu)
    exact ⟨rfl, hworks, hi.place_of_release hs m⟩
  · obtain rfl : first.1 = u := Option.some.inj hu
    rw [show S.waits.place first.1 = .outside from hi.placed htry] at hfirst
    cases hfirst.1
  · rw [hworks]
    intro x hx
    exact (Option.some.inj hx).symm
  · intro x hx
    exact (Option.some.inj hx).symm
  · exact ⟨Function.update_of_ne hx _ _, rfl, fun _ _ => Iff.rfl, fun _ _ _ => rfl, fun h => ⟨h, rfl⟩⟩
  · refine Recorded.working (S := S) (t := t) (fun u hu => Function.update_of_ne hu _ _)
      (fun u hu hw => hu ((hi.recorded m).unique hworks hw)) ?_ ?_
    · rw [stage_setStage]
      rfl
    · rw [stage_setStage]
      refine ⟨Function.update_self .., hclean, hlock, ?_⟩
      show (S.waits.queue (.mutex m)).head? = _
      rw [hq, List.head?_cons, ← hfirst.2]

end LocalSteps

end Cyros.Kernel.Mutexes
