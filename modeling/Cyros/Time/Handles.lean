import Cyros.Time.FiringLaw
import Cyros.Time.CancelFinal

/-!
# Timer handles

A handle is an id of 32 bits, and the ids of a core are counted up and wrap.  A timer is told apart from all others of
its core by the number of its id: how many ids were counted before it.  The `n`-th id is `idOf n`, so two timers with
numbers that are equal modulo `2 ^ 32` have one id.

* `Issuing` follows the numbers through a core of the tickless or the periodic driver; the simulation driver has them
  as the keys of its timers.
* `Own` says that no other live timer has the id of a number, and `fresh` that this holds of each id when it is given
  to a timer.
* `handles_unique`: then the live timers of a core have distinct ids, and a cancel of a handle whose id is its own finds
  that timer if it is live, and nothing otherwise.
* `id_comes_round`: a recurring timer stays live while the ids come round to its own.
-/

namespace Cyros.Time

open Cyros.Lib

variable {P C A : Type}

/-- The `n`-th id of a core. -/
def idOf (n : ℕ) : ℕ := (n + 1) % idSize

theorem idOf_eq_iff {n m : ℕ} : idOf n = idOf m ↔ n % idSize = m % idSize := by
  unfold idOf idSize
  omega

theorem idOf_succ (n : ℕ) : (idOf n + 1) % idSize = idOf (n + 1) := by
  unfold idOf idSize
  omega

/-! ### The tickless and the periodic driver -/

/-- A core, with the number of the timer in each slot and of the next id. -/
structure Issuing (P C A : Type) where
  core : Core P C A
  number : Index → ℕ
  issued : ℕ

namespace Issuing

/-- The slot that a schedule fills. -/
def fills (S : Core P C A) : Act C A → Option Index
  | .scheduleAt _ (some _) _ => S.table.findSlot 0
  | .scheduleRecurring interval (some _) _ => if interval = 0 then none else S.table.findSlot 0
  | _ => none

/-- The number of the id that the next timer gets; the id zero is skipped. -/
def nextNumber (S : Issuing P C A) : ℕ := if S.core.table.nextId = 0 then S.issued + 1 else S.issued

def next (O : OneShot P) (driver : Driver) (S : Issuing P C A) (act : Act C A) : Option (Issuing P C A) :=
  (S.core.next O driver act).map fun core =>
    match fills S.core act with
    | some i => ⟨core, Function.update S.number i S.nextNumber, S.nextNumber + 1⟩
    | none => ⟨core, S.number, S.issued⟩

def boot (port : P) (now : ℕ) : Issuing P C A := ⟨.boot port now, fun _ => 0, 0⟩

def Live (S : Issuing P C A) (i : Index) : Prop := (S.core.table.slots i).id ≠ 0

instance (S : Issuing P C A) (i : Index) : Decidable (S.Live i) :=
  inferInstanceAs (Decidable (_ ≠ _))

/-- A live timer with the id of the number `n` has the number `n`. -/
def Own (S : Issuing P C A) (n : ℕ) : Prop :=
  ∀ i, S.Live i → S.number i % idSize = n % idSize → S.number i = n

instance (S : Issuing P C A) (n : ℕ) : Decidable (S.Own n) :=
  inferInstanceAs (Decidable (∀ i, S.Live i → S.number i % idSize = n % idSize → S.number i = n))

/-- **The id of a timer is its own** when it is scheduled. -/
def fresh (S : Issuing P C A) (act : Act C A) : Prop := fills S.core act ≠ none → S.Own S.nextNumber

instance (S : Issuing P C A) (act : Act C A) : Decidable (S.fresh act) :=
  inferInstanceAs (Decidable (fills S.core act ≠ none → S.Own S.nextNumber))

/-! ### What a step does to the ids -/

/-- Ids are only taken away. -/
structure IdsKept (t t' : Timetable C A) : Prop where
  nextId : t'.nextId = t.nextId
  ids : ∀ j, (t'.slots j).id = (t.slots j).id ∨ (t'.slots j).id = 0

theorem IdsKept.refl (t : Timetable C A) : IdsKept t t := ⟨rfl, fun _ => .inl rfl⟩

theorem idsKept_setSlot (t : Timetable C A) {i : Index} {s : Slot C A} (hs : s.id = (t.slots i).id ∨ s.id = 0) :
    IdsKept t (t.setSlot i s) where
  nextId := rfl
  ids := by
    intro j
    by_cases hj : j = i
    · subst hj
      rw [Timetable.setSlot_self]
      exact hs
    · rw [Timetable.setSlot_of_ne t s hj]
      exact .inl rfl

section Steps

variable (O : OneShot P) (driver : Driver)

theorem idsKept_moveOn (S : Core P C A) (i : Index) (now : ℕ) (cb : Option C) (arg : Option A) :
    IdsKept S.table (S.moveOn i now cb arg).table := by
  unfold Core.moveOn
  dsimp only
  split
  · exact idsKept_setSlot _ (.inl rfl)
  · exact idsKept_setSlot _ (.inl rfl)

theorem idsKept_fireDue (S : Core P C A) (i : Index) (now : ℕ) : IdsKept S.table (S.fireDue i now).table := by
  unfold Core.fireDue
  dsimp only
  split
  · split
    · exact idsKept_setSlot _ (.inr rfl)
    · exact idsKept_moveOn S i now _ _
  · exact .refl _

theorem idsKept_cancel (S : Core P C A) (id : ℕ) : IdsKept S.table (S.cancel O driver id).2.table := by
  unfold Core.cancel
  split
  · exact .refl _
  · split
    · dsimp only
      rw [Core.settle_table]
      exact idsKept_setSlot _ (.inr rfl)
    · exact .refl _

theorem idsKept_anchor (S : Core P C A) : IdsKept S.table (S.anchor O driver).table := by
  unfold Core.anchor
  rw [Core.rearmLocked_table]
  refine ⟨rfl, fun j => .inl ?_⟩
  show (Timetable.anchored S.now (S.table.slots j)).id = _
  unfold Timetable.anchored
  split <;> rfl

/-- A schedule fills a free slot with a timer of the next id. -/
theorem fill_ids (S : Core P C A) (i : Index) (when period : ℕ) (cb : C) (arg : Option A) :
    (S.fill O driver i when period cb arg).2.table.nextId = (S.table.nextHandleId).2.nextId ∧
      ((S.fill O driver i when period cb arg).2.table.slots i).id = (S.table.nextHandleId).1 ∧
      ∀ j ≠ i, (S.fill O driver i when period cb arg).2.table.slots j = S.table.slots j := by
  unfold Core.fill
  dsimp only
  rw [Core.settle_table]
  refine ⟨rfl, ?_, fun j hj => ?_⟩
  · rw [Timetable.setSlot_self]
  · rw [Timetable.setSlot_of_ne _ _ hj, S.table.nextHandleId_same.2]

/-- **What a step does to the ids.** -/
theorem next_ids {S S' : Core P C A} {act : Act C A} (h : S.next O driver act = some S') :
    match fills S act with
    | none => IdsKept S.table S'.table
    | some i => (S.table.slots i).id = 0 ∧ S'.table.nextId = (S.table.nextHandleId).2.nextId ∧
        (S'.table.slots i).id = (S.table.nextHandleId).1 ∧
        ∀ j ≠ i, S'.table.slots j = S.table.slots j := by
  cases Core.effect_of_next h with
  | tick | setUp | irqEnable | interrupt | readTime | ret => exact .refl _
  | anchor => exact idsKept_anchor O driver S
  | cancel => exact idsKept_cancel O driver S _
  | look => exact idsKept_fireDue S _ _
  | move => exact idsKept_moveOn S _ _ _ _
  | leave =>
      show IdsKept S.table (S.rearmLocked O driver).table
      rw [Core.rearmLocked_table]
      exact .refl _
  | @scheduleAt tp cb arg =>
      cases cb with
      | none => exact .refl _
      | some cb =>
          simp only [fills, Core.scheduleAt]
          cases hfound : S.table.findSlot 0 with
          | none => exact .refl _
          | some i => exact ⟨Timetable.findSlot_id hfound, fill_ids O driver S i tp 0 cb arg⟩
  | @scheduleRecurring interval cb arg =>
      cases cb with
      | none => exact .refl _
      | some cb =>
          simp only [fills, Core.scheduleRecurring]
          cases hfound : S.table.findSlot 0 with
          | none =>
              rw [ite_self]
              exact .refl _
          | some i =>
              by_cases hzero : interval = 0
              · simp only [if_pos hzero]
                exact .refl _
              · simp only [if_neg hzero]
                exact ⟨Timetable.findSlot_id hfound, fill_ids O driver S i _ interval cb arg⟩

end Steps

/-! ### The numbers -/

structure Inv (S : Issuing P C A) : Prop where
  nextId : S.core.table.nextId = idOf S.issued
  number : ∀ i, S.Live i → (S.core.table.slots i).id = idOf (S.number i) ∧ S.number i < S.issued
  distinct : ∀ i j, S.Live i → S.Live j → S.number i % idSize = S.number j % idSize → i = j

theorem inv_boot (port : P) (now : ℕ) : Inv (boot port now : Issuing P C A) where
  nextId := rfl
  number := fun _ hi => absurd rfl hi
  distinct := fun _ _ hi => absurd rfl hi

variable {S S' : Issuing P C A}

/-- The id of the next number, and what is counted to then. -/
theorem Inv.nextHandleId (h : S.Inv) :
    (S.core.table.nextHandleId).1 = idOf S.nextNumber ∧
      (S.core.table.nextHandleId).2.nextId = idOf (S.nextNumber + 1) := by
  have hid := h.nextId
  unfold Timetable.nextHandleId nextNumber
  by_cases hzero : S.core.table.nextId = 0
  · rw [if_pos hzero, if_pos hzero]
    rw [hid]
    exact ⟨idOf_succ _, by rw [idOf_succ, idOf_succ]⟩
  · rw [if_neg hzero, if_neg hzero]
    rw [hid]
    exact ⟨rfl, idOf_succ _⟩

/-- **One step keeps the numbers apart**, where each new id is its own. -/
theorem Inv.next (h : S.Inv) {O : OneShot P} {driver : Driver} {act : Act C A} (hfresh : S.fresh act)
    (hnext : S.next O driver act = some S') : S'.Inv := by
  obtain ⟨core, hcore, rfl⟩ := Option.map_eq_some_iff.1 hnext
  have hids := next_ids O driver hcore
  unfold fresh at hfresh
  cases hfills : fills S.core act with
  | none =>
      rw [hfills] at hids
      -- what is live was live
      have hlive : ∀ i, (core.table.slots i).id ≠ 0 →
          S.Live i ∧ (core.table.slots i).id = (S.core.table.slots i).id := by
        intro i hi
        have heq := (hids.ids i).resolve_right hi
        exact ⟨fun hzero => hi (heq.trans hzero), heq⟩
      refine ⟨hids.nextId.trans h.nextId, fun i hi => ?_, fun i j hi hj => ?_⟩
      · obtain ⟨hold, heq⟩ := hlive i hi
        exact ⟨heq.trans (h.number i hold).1, (h.number i hold).2⟩
      · exact h.distinct i j (hlive i hi).1 (hlive j hj).1
  | some i =>
      rw [hfills] at hids hfresh
      obtain ⟨-, hnextId, hid, hothers⟩ := hids
      have hown := hfresh (by simp)
      obtain ⟨hnumber, hcounted⟩ := h.nextHandleId
      have hle : S.issued ≤ S.nextNumber := by
        unfold nextNumber
        split <;> omega
      have hlive : ∀ j ≠ i, (core.table.slots j).id ≠ 0 → S.Live j := by
        intro j hj hne
        rw [hothers j hj] at hne
        exact hne
      -- a live timer with the id of the new one would have its number
      have hnew : ∀ j ≠ i, (core.table.slots j).id ≠ 0 → S.number j % idSize ≠ S.nextNumber % idSize := by
        intro j hj hne hmod
        have heq := hown j (hlive j hj hne) hmod
        have hlt := (h.number j (hlive j hj hne)).2
        omega
      refine ⟨hnextId.trans hcounted, fun j hj => ?_, fun j k hj hk hmod => ?_⟩
      · dsimp only at hj ⊢
        by_cases hji : j = i
        · subst hji
          rw [Function.update_self]
          exact ⟨hid.trans hnumber, Nat.lt_succ_self _⟩
        · rw [Function.update_of_ne hji, hothers j hji]
          have hold := h.number j (hlive j hji hj)
          exact ⟨hold.1, by omega⟩
      · dsimp only at hj hk hmod
        by_cases hji : j = i
        · by_cases hki : k = i
          · rw [hji, hki]
          · rw [hji, Function.update_self, Function.update_of_ne hki] at hmod
            exact absurd hmod.symm (hnew k hki hk)
        · by_cases hki : k = i
          · rw [hki, Function.update_self, Function.update_of_ne hji] at hmod
            exact absurd hmod (hnew j hji hj)
          · rw [Function.update_of_ne hji, Function.update_of_ne hki] at hmod
            exact h.distinct j k (hlive j hji hj) (hlive k hki hk) hmod

/-- What a cancel finds. -/
theorem Inv.findSlot (h : S.Inv) {n : ℕ} (hown : S.Own n) (hid : idOf n ≠ 0) {i : Index} :
    S.core.table.findSlot (idOf n) = some i ↔ S.Live i ∧ S.number i = n := by
  have honly : ∀ j, (S.core.table.slots j).id = idOf n ↔ S.Live j ∧ S.number j = n := by
    intro j
    constructor
    · intro heq
      have hlive : S.Live j := by
        unfold Live
        rw [heq]
        exact hid
      have hmod := idOf_eq_iff.1 ((h.number j hlive).1.symm.trans heq)
      exact ⟨hlive, hown j hlive hmod⟩
    · rintro ⟨hlive, rfl⟩
      exact (h.number j hlive).1
  constructor
  · intro hfound
    exact (honly i).1 (Timetable.findSlot_id hfound)
  · intro hi
    have hsome : (S.core.table.findSlot (idOf n)).isSome := by
      unfold Timetable.findSlot
      rw [List.find?_isSome]
      exact ⟨i, List.mem_finRange i, by simpa using (honly i).2 hi⟩
    obtain ⟨j, hj⟩ := Option.isSome_iff_exists.1 hsome
    obtain ⟨hlive, hnumber⟩ := (honly j).1 (Timetable.findSlot_id hj)
    rw [hj, h.distinct i j hi.1 hlive (by rw [hi.2, hnumber])]

/-- **A cancel takes away the timer of the handle and no other.** -/
theorem Inv.cancel (h : S.Inv) (O : OneShot P) (driver : Driver) {n : ℕ} (hown : S.Own n) (hid : idOf n ≠ 0) :
    ((S.core.cancel O driver (idOf n)).1 = true ↔ ∃ i, S.Live i ∧ S.number i = n) ∧
      ∀ i, S.Live i → S.number i = n →
        (S.core.cancel O driver (idOf n)).2.table = S.core.table.setSlot i .free := by
  refine ⟨?_, fun i hlive hnumber => ?_⟩
  · unfold Core.cancel
    rw [if_neg hid]
    cases hfound : S.core.table.findSlot (idOf n) with
    | none =>
        constructor
        · intro hfalse
          cases hfalse
        · rintro ⟨i, hi⟩
          rw [(h.findSlot hown hid).2 hi] at hfound
          cases hfound
    | some i => exact ⟨fun _ => ⟨i, (h.findSlot hown hid).1 hfound⟩, fun _ => rfl⟩
  · unfold Core.cancel
    rw [if_neg hid, (h.findSlot hown hid).2 ⟨hlive, hnumber⟩]
    exact Core.settle_table O driver _

end Issuing

/-! ### The simulation driver -/

namespace Simulation

namespace Driver

variable {π τ : Type}

/-- The timer that a cancel marks; it returns whether there is one. -/
def cancels (S : Driver π τ C A) (core id : ℕ) : Option (Event C A) :=
  if id = 0 then none
  else (firstWith (fun e => e.id = id ∧ e.cancelled = false) (S.events core)).map fun x => x.2.1

/-- The live timers of a core. -/
def live (S : Driver π τ C A) (core : ℕ) : List (Event C A) := (S.events core).filter fun e => !e.cancelled

/-- A live timer of the core with the id of the number `n` has the number `n`. -/
def Own (S : Driver π τ C A) (core n : ℕ) : Prop :=
  ∀ e ∈ S.live core, e.key.2 % idSize = n % idSize → e.key.2 = n

instance (S : Driver π τ C A) (core n : ℕ) : Decidable (S.Own core n) :=
  inferInstanceAs (Decidable (∀ e ∈ S.live core, e.key.2 % idSize = n % idSize → e.key.2 = n))

/-- **The id of a timer is its own**, and is not zero, when it is pushed. -/
def fresh (S : Driver π τ C A) : Act π τ C A → Prop
  | .push t => match S.call t with
    | .claimed key id _ _ _ => id ≠ 0 ∧ ∀ e ∈ S.live key.1, e.key.2 % idSize ≠ key.2 % idSize
    | _ => True
  | _ => True

instance (S : Driver π τ C A) (act : Act π τ C A) : Decidable (S.fresh act) :=
  match act with
  | .push t => match h : S.call t with
    | .claimed key id _ _ _ =>
        decidable_of_iff (id ≠ 0 ∧ ∀ e ∈ S.live key.1, e.key.2 % idSize ≠ key.2 % idSize) (by rw [fresh, h])
    | .idle | .again .. => isTrue (by rw [fresh, h]; trivial)
  | .tick _ | .schedule .. | .claimAgain _ | .cancel .. | .advanceTo .. | .store _ | .background _ | .readTime _
  | .look _ | .start _ | .ret _ | .leave _ => isTrue trivial

end Driver

/-! ### The numbers of a table -/

/-- The numbers of the live timers of a table, modulo what tells their ids apart. -/
def residues (es : List (Event C A)) : List ℕ := (es.filter fun e => !e.cancelled).map fun e => e.key.2 % idSize

structure Numbered (core : ℕ) (es : List (Event C A)) : Prop where
  core : ∀ e ∈ es, e.key.1 = core
  id : ∀ e ∈ es, e.id = idOf e.key.2 ∧ e.id ≠ 0
  distinct : (residues es).Nodup

section Tables

variable {core : ℕ} {es es' pre post : List (Event C A)} {e : Event C A}

theorem Numbered.sublist (h : Numbered core es) (hsub : es'.Sublist es) : Numbered core es' where
  core := fun e he => h.core e (hsub.subset he)
  id := fun e he => h.id e (hsub.subset he)
  distinct := ((hsub.filter _).map _).nodup h.distinct

/-- A timer of the same number in the place of one, live only where that was. -/
theorem Numbered.replace (h : Numbered core (pre ++ e :: post)) {e' : Event C A} (hkey : e'.key = e.key)
    (hid : e'.id = e.id) (hlive : e'.cancelled = false → e.cancelled = false) :
    Numbered core (pre ++ e' :: post) := by
  have hrest := h.sublist (sublist_middle (e := e))
  have hmem : e ∈ pre ++ e :: post := by simp
  refine ⟨fun x hx => ?_, fun x hx => ?_, List.Sublist.nodup ?_ h.distinct⟩
  · rcases mem_replace hx with rfl | hold
    · rw [hkey]
      exact h.core e hmem
    · exact hrest.core x hold
  · rcases mem_replace hx with rfl | hold
    · rw [hkey, hid]
      exact h.id e hmem
    · exact hrest.id x hold
  · unfold residues
    rw [List.filter_append, List.filter_append, List.map_append, List.map_append]
    refine (List.Sublist.refl _).append ?_
    cases hnew : e'.cancelled with
    | true =>
        rw [List.filter_cons_of_neg (by rw [hnew]; decide)]
        exact ((List.sublist_cons_self e post).filter _).map _
    | false =>
        rw [List.filter_cons_of_pos (by rw [hnew]; rfl), List.filter_cons_of_pos (by rw [hlive hnew]; rfl),
          List.map_cons, List.map_cons, hkey]

theorem Numbered.push (h : Numbered core es) (hcore : e.key.1 = core) (hid : e.id = idOf e.key.2) (hne : e.id ≠ 0)
    (hfresh : ∀ x ∈ es.filter fun e => !e.cancelled, x.key.2 % idSize ≠ e.key.2 % idSize) :
    Numbered core (es ++ [e]) := by
  refine ⟨fun x hx => ?_, fun x hx => ?_, ?_⟩
  · rcases List.mem_append.1 hx with hold | hnew
    · exact h.core x hold
    · rw [List.mem_singleton.1 hnew]
      exact hcore
  · rcases List.mem_append.1 hx with hold | hnew
    · exact h.id x hold
    · rw [List.mem_singleton.1 hnew]
      exact ⟨hid, hne⟩
  · unfold residues
    rw [List.filter_append, List.map_append]
    refine List.Nodup.append h.distinct ?_ ?_
    · exact ((List.filter_sublist (l := [e])).map _).nodup (List.nodup_singleton _)
    · intro r hr hr'
      obtain ⟨x, hx, rfl⟩ := List.mem_map.1 hr
      obtain ⟨y, hy, heq⟩ := List.mem_map.1 hr'
      rw [List.mem_singleton.1 (List.mem_of_mem_filter hy)] at heq
      exact hfresh x hx heq.symm

theorem Numbered.ids_nodup (h : Numbered core es) : ((es.filter fun e => !e.cancelled).map Event.id).Nodup := by
  have hdistinct := h.distinct
  unfold residues at hdistinct
  rw [List.Nodup, List.pairwise_map] at hdistinct ⊢
  refine hdistinct.imp_of_mem fun hx hy hne heq => hne ?_
  rw [(h.id _ (List.mem_of_mem_filter hx)).1, (h.id _ (List.mem_of_mem_filter hy)).1] at heq
  exact idOf_eq_iff.1 heq

/-- **What a cancel finds.** -/
theorem Numbered.found (h : Numbered core es) {n : ℕ}
    (hown : ∀ x ∈ es.filter fun e => !e.cancelled, x.key.2 % idSize = n % idSize → x.key.2 = n)
    (hfirst : firstWith (fun e => e.id = idOf n ∧ e.cancelled = false) es = some (pre, e, post)) :
    es = pre ++ e :: post ∧ e.cancelled = false ∧ e.key = (core, n) := by
  obtain ⟨hsplit, hpred⟩ := firstWith_some hfirst
  simp only [Bool.decide_and, Bool.and_eq_true, decide_eq_true_eq] at hpred
  obtain ⟨hid, hlive⟩ := hpred
  have hmem : e ∈ es := by
    rw [hsplit]
    simp
  have hnumber : e.key.2 = n :=
    hown e (List.mem_filter.2 ⟨hmem, by rw [hlive]; rfl⟩) (idOf_eq_iff.1 ((h.id e hmem).1.symm.trans hid))
  exact ⟨hsplit, hlive, Prod.ext (h.core e hmem) hnumber⟩

theorem Numbered.not_found (h : Numbered core es) {n : ℕ}
    (hfirst : firstWith (fun e => e.id = idOf n ∧ e.cancelled = false) es = none) :
    ∀ x ∈ es.filter fun e => !e.cancelled, x.key ≠ (core, n) := by
  intro x hx hkey
  obtain ⟨hmem, hlive⟩ := List.mem_filter.1 hx
  have hno := firstWith_none hfirst x hmem
  have hid := (h.id x hmem).1
  rw [hkey] at hid
  simp [hid] at hno
  simp [hno] at hlive

/-- A cancelled timer is the only one that is no longer live. -/
theorem Numbered.mark (h : Numbered core (pre ++ e :: post)) (hlive : e.cancelled = false) :
    (pre ++ { e with cancelled := true } :: post).filter (fun x => !x.cancelled) =
      ((pre ++ e :: post).filter fun x => !x.cancelled).filter fun x => x.key ≠ e.key := by
  have hdistinct := h.distinct
  unfold residues at hdistinct
  rw [List.filter_append, List.filter_cons_of_pos (by rw [hlive]; rfl), List.map_append, List.map_cons,
    List.nodup_middle, List.nodup_cons, ← List.map_append] at hdistinct
  have hother : ∀ x ∈ (pre.filter fun x => !x.cancelled) ++ post.filter fun x => !x.cancelled, x.key ≠ e.key := by
    intro x hx hkey
    refine hdistinct.1 (List.mem_map.2 ⟨x, hx, ?_⟩)
    rw [hkey]
  have hkept := List.filter_eq_self (p := fun x : Event C A => decide (x.key ≠ e.key)).2
    fun x hx => by simpa using hother x hx
  rw [List.filter_append] at hkept
  rw [List.filter_append, List.filter_cons_of_neg (by simp), List.filter_append,
    List.filter_cons_of_pos (by rw [hlive]; rfl), List.filter_append, List.filter_cons_of_neg (by simp)]
  exact hkept.symm

end Tables

/-! ### The numbers of the driver -/

namespace Driver

structure Counted (S : Driver π τ C A) : Prop where
  nextId : ∀ c, S.nextId c = idOf (S.issued c)
  call : ∀ t key id wish cb arg, S.call t = .claimed key id wish cb arg → id = idOf key.2
  table : ∀ c, Numbered c (S.events c)

theorem counted_boot (now : ℕ) : Counted (boot now : Driver π τ C A) where
  nextId := fun _ => rfl
  call := by
    intro t key id wish cb arg hcall
    cases hcall
  table := fun _ => ⟨by simp [boot], by simp [boot], by simp [boot, residues]⟩

variable {S S' : Driver π τ C A}

theorem Counted.setTable (h : S.Counted) {core : ℕ} {es : List (Event C A)} (hes : Numbered core es)
    (hevents : S'.events = Function.update S.events core es) (hnextId : S'.nextId = S.nextId)
    (hissued : S'.issued = S.issued)
    (hcall : ∀ t key id wish cb arg, S'.call t = .claimed key id wish cb arg →
      S.call t = .claimed key id wish cb arg) : S'.Counted where
  nextId := by
    rw [hnextId, hissued]
    exact h.nextId
  call := fun t key id wish cb arg heq => h.call t key id wish cb arg (hcall t key id wish cb arg heq)
  table := by
    intro c
    rw [hevents]
    by_cases hc : c = core
    · subst hc
      rw [Function.update_self]
      exact hes
    · rw [Function.update_of_ne hc]
      exact h.table c

theorem Counted.congr (h : S.Counted) (hnextId : S'.nextId = S.nextId) (hissued : S'.issued = S.issued)
    (hcall : S'.call = S.call) (hevents : S'.events = S.events) : S'.Counted where
  nextId := by
    rw [hnextId, hissued]
    exact h.nextId
  call := by
    rw [hcall]
    exact h.call
  table := by
    rw [hevents]
    exact h.table

/-- The id that is claimed is that of the number it is claimed under. -/
theorem Counted.claim [DecidableEq τ] (h : S.Counted) (t : τ) (core : ℕ) {place : ℕ → ℕ × ℕ → CallPlace C A}
    (hplace : ∀ id key, (∃ wish cb arg, place id key = .again core wish cb arg) ∨
      ∃ wish cb arg, place id key = .claimed key id wish cb arg) :
    (S.claim t core place).Counted where
  nextId := by
    intro c
    show Function.update S.nextId core _ c = idOf (Function.update S.issued core _ c)
    by_cases hc : c = core
    · subst hc
      rw [Function.update_self, Function.update_self, h.nextId c, idOf_succ]
    · rw [Function.update_of_ne hc, Function.update_of_ne hc]
      exact h.nextId c
  call := by
    intro t' key id wish cb arg hcall
    have hcall' : Function.update S.call t (place (S.nextId core) (core, S.issued core)) t' =
      .claimed key id wish cb arg := hcall
    by_cases ht : t' = t
    · rw [ht, Function.update_self] at hcall'
      rcases hplace (S.nextId core) (core, S.issued core) with ⟨_, _, _, hagain⟩ | ⟨_, _, _, hclaimed⟩
      · cases hagain.symm.trans hcall'
      · cases hclaimed.symm.trans hcall'
        exact h.nextId core
    · rw [Function.update_of_ne ht] at hcall'
      exact h.call t' key id wish cb arg hcall'
  table := h.table

/-- A pass takes timers away, or moves one on. -/
theorem Counted.look [DecidableEq π] (h : S.Counted) {cores : ℕ} {p : π} {goal core now : ℕ}
    (hlook : S.look cores p goal core now = some S') : S'.Counted := by
  unfold Driver.look at hlook
  split at hlook
  · have hswept := (h.table core).sublist (List.filter_sublist (p := fun e => !e.cancelled))
    dsimp only at hlook
    split at hlook
    · cases hlook
      exact h.setTable hswept rfl rfl rfl fun _ _ _ _ _ _ hcall => hcall
    · next pre e post hfirst =>
      obtain ⟨left, hleft, rfl⟩ := Option.map_eq_some_iff.1 hlook
      rw [(firstWith_some hfirst).1] at hswept
      refine h.setTable ?_ rfl rfl rfl fun _ _ _ _ _ _ hcall => hcall
      rcases leftOver_cases hleft with ⟨-, rfl⟩ | ⟨when, -, rfl⟩
      · exact hswept.sublist sublist_middle
      · exact hswept.replace rfl rfl fun hlive => hlive
  · cases hlook

variable [DecidableEq π] [DecidableEq τ]

/-- **One step keeps the numbers apart**, where each new id is its own. -/
theorem Counted.next (h : S.Counted) {mode : Mode} {cores : ℕ} {act : Act π τ C A} (hfresh : S.fresh act)
    (hnext : S.next mode cores act = some S') : S'.Counted := by
  cases effect_of_next hnext with
  | idle => exact h
  | tick | advanceTo | store | background | readTime | start | startNone | ret | leave =>
      exact h.congr rfl rfl rfl rfl
  | claim hplace => exact h.claim _ _ hplace
  | look _ hlook => exact h.look hlook
  | @push t key id wish cb arg hcall =>
      simp only [fresh, hcall] at hfresh
      have hpushed : (S.pushed key id wish cb arg).key = key ∧ (S.pushed key id wish cb arg).id = id := by
        cases wish <;> exact ⟨rfl, rfl⟩
      have htable : Numbered key.1 (S.events key.1 ++ [S.pushed key id wish cb arg]) := by
        refine (h.table key.1).push ?_ ?_ ?_ ?_
        · rw [hpushed.1]
        · rw [hpushed.1, hpushed.2]
          exact h.call t key id wish cb arg hcall
        · rw [hpushed.2]
          exact hfresh.1
        · rw [hpushed.1]
          exact hfresh.2
      refine h.setTable htable rfl rfl rfl fun t' key' id' wish' cb' arg' hcall' => ?_
      by_cases ht : t' = t
      · rw [ht] at hcall'
        simp at hcall'
      · simpa [Function.update_of_ne ht] using hcall'
  | @cancel core id pre e post hfirst =>
      have htable := h.table core
      rw [(firstWith_some hfirst).1] at htable
      have hmarked : Numbered core (pre ++ { e with cancelled := true } :: post) :=
        htable.replace rfl rfl (by simp)
      exact h.setTable hmarked rfl rfl rfl fun _ _ _ _ _ _ hcall => hcall

/-- **A cancel takes away the timer of the handle and no other.** -/
theorem Counted.cancel (h : S.Counted) (mode : Mode) {cores core n : ℕ} (hcore : core < cores) (hown : S.Own core n)
    (hid : idOf n ≠ 0) :
    ((S.cancels core (idOf n)).isSome ↔ ∃ e ∈ S.live core, e.key = (core, n)) ∧
      ∃ S', S.next mode cores (.cancel core (idOf n)) = some S' ∧
        S'.live core = (S.live core).filter (fun e => e.key ≠ (core, n)) ∧
        ∀ c ≠ core, S'.events c = S.events c := by
  have htable := h.table core
  simp only [cancels, Driver.next, if_pos hcore, if_neg hid]
  cases hfirst : firstWith (fun e => e.id = idOf n ∧ e.cancelled = false) (S.events core) with
  | none =>
      have hno := htable.not_found hfirst
      refine ⟨?_, S, rfl, ?_, fun c _ => rfl⟩
      · constructor
        · intro hsome
          cases hsome
        · rintro ⟨e, he, hkey⟩
          exact absurd hkey (hno e he)
      · exact (List.filter_eq_self.2 fun e he => by simpa using hno e he).symm
  | some found =>
      obtain ⟨pre, e, post⟩ := found
      obtain ⟨hsplit, hlive, hkey⟩ := htable.found hown hfirst
      refine ⟨?_, _, rfl, ?_, fun c hc => Function.update_of_ne hc ..⟩
      · refine ⟨fun _ => ⟨e, List.mem_filter.2 ⟨?_, by rw [hlive]; rfl⟩, hkey⟩, fun _ => rfl⟩
        rw [hsplit]
        simp
      · unfold Driver.live
        simp only [Function.update_self]
        rw [hsplit] at htable ⊢
        rw [← hkey]
        exact htable.mark hlive

end Driver

end Simulation

/-! ### Handles -/

variable {π τ : Type}

/-- **Handles are unique.**  In every run in which each id is its own when it is given to a timer, of every driver: the
live timers of a core have distinct ids, which are not zero; and a cancel of a handle whose id is its own returns true if
and only if the timer of the handle is live, takes that one away and leaves the others as they are. -/
theorem handles_unique [DecidableEq π] [DecidableEq τ] :
    (∀ (O : OneShot P) (driver : Driver) (port : P) (now : ℕ) (acts : List (Act C A)) (S : Issuing P C A),
      Meets (Issuing.next O driver) Issuing.fresh (.boot port now) acts →
      run (Issuing.next O driver) (.boot port now) acts = some S →
      (∀ i, S.Live i → (S.core.table.slots i).id = idOf (S.number i)) ∧
        (∀ i j, S.Live i → S.Live j → (S.core.table.slots i).id = (S.core.table.slots j).id → i = j) ∧
        ∀ n, idOf n ≠ 0 → S.Own n →
          ((S.core.cancel O driver (idOf n)).1 = true ↔ ∃ i, S.Live i ∧ S.number i = n) ∧
            ∀ i, S.Live i → S.number i = n →
              (S.core.cancel O driver (idOf n)).2.table = S.core.table.setSlot i .free) ∧
      ∀ (mode : Simulation.Mode) (cores now : ℕ) (acts : List (Simulation.Act π τ C A))
        (S : Simulation.Driver π τ C A),
        Meets (Simulation.Driver.next mode cores) Simulation.Driver.fresh (.boot now) acts →
        run (Simulation.Driver.next mode cores) (.boot now) acts = some S →
        ∀ core < cores,
          (∀ e ∈ S.live core, e.id = idOf e.key.2 ∧ e.id ≠ 0) ∧ ((S.live core).map Simulation.Event.id).Nodup ∧
            ∀ n, idOf n ≠ 0 → S.Own core n →
              ((S.cancels core (idOf n)).isSome ↔ ∃ e ∈ S.live core, e.key = (core, n)) ∧
                ∃ S', S.next mode cores (.cancel core (idOf n)) = some S' ∧
                  S'.live core = (S.live core).filter (fun e => e.key ≠ (core, n)) ∧
                  ∀ c ≠ core, S'.events c = S.events c := by
  refine ⟨?_, ?_⟩
  · intro O driver port now acts S hmeets hrun
    have hi : S.Inv := run_invariant_of_meets (I := Issuing.Inv)
      (fun _ _ _ hi hfresh h => hi.next hfresh h) (Issuing.inv_boot port now) hmeets hrun
    refine ⟨fun i hlive => (hi.number i hlive).1, fun i j hlive hlive' heq => ?_, fun n hid hown => ?_⟩
    · rw [(hi.number i hlive).1, (hi.number j hlive').1] at heq
      exact hi.distinct i j hlive hlive' (idOf_eq_iff.1 heq)
    · exact hi.cancel O driver hown hid
  · intro mode cores now acts S hmeets hrun core hcore
    have hi : S.Counted := run_invariant_of_meets (I := Simulation.Driver.Counted)
      (fun _ _ _ hi hfresh h => hi.next hfresh h) (Simulation.Driver.counted_boot now) hmeets hrun
    exact ⟨fun e he => (hi.table core).id e (List.mem_of_mem_filter he), (hi.table core).ids_nodup,
      fun n hid hown => hi.cancel mode hcore hown hid⟩

/-- A one-shot and a recurring timer, and a cancel of the one-shot. -/
def twoTimers : List (Act Unit Unit) :=
  [.scheduleAt 5 (some ()) none, .scheduleRecurring 3 (some ()) none, .cancel 1]

def twoSimulatedTimers : List (Simulation.Act Unit Unit Unit Unit) :=
  [.schedule () 0 (.once 5) (some ()) (), .push (), .schedule () 0 (.every 3) (some ()) (), .push (), .cancel 0 1]

theorem handles_unique_twoTimers :
    (∃ S, run (Issuing.next mtimeOneShot .tickless) (.boot ⟨never, false⟩ 0) twoTimers = some S ∧
      (S.core.cancel mtimeOneShot .tickless (idOf 1)).1 = true ∧
      (S.core.cancel mtimeOneShot .tickless (idOf 0)).1 = false) ∧
      ∃ S, run (Simulation.Driver.next .virtualTime 1) (.boot 0) twoSimulatedTimers = some S ∧
        (S.cancels 0 (idOf 1)).isSome ∧ ¬ (S.cancels 0 (idOf 0)).isSome := by
  obtain ⟨hhardware, hsimulation⟩ := @handles_unique DeadlineGate Unit Unit Unit Unit _ _
  refine ⟨?_, ?_⟩
  · have heval : (run (Issuing.next mtimeOneShot .tickless) (.boot ⟨never, false⟩ 0) twoTimers).map
        (fun S => (decide (S.Own 0 ∧ S.Own 1 ∧ S.Live 1 ∧ ∀ i, S.Live i → S.number i = 1), S.number 1)) =
        some (true, 1) := by decide +kernel
    obtain ⟨S, hS, hv⟩ := Option.map_eq_some_iff.mp heval
    simp only [Prod.mk.injEq, decide_eq_true_eq] at hv
    obtain ⟨⟨hown, hown', hlive, honly⟩, hnumber⟩ := hv
    obtain ⟨-, -, hcancel⟩ := hhardware _ .tickless _ _ _ S (by decide +kernel) hS
    refine ⟨S, hS, ((hcancel 1 (by decide) hown').1).2 ⟨1, hlive, hnumber⟩, ?_⟩
    rw [Bool.eq_false_iff]
    intro htrue
    obtain ⟨i, hi, hzero⟩ := ((hcancel 0 (by decide) hown).1).1 htrue
    have hone := honly i hi
    omega
  · have heval : (run (Simulation.Driver.next .virtualTime 1) (.boot 0) twoSimulatedTimers).map
        (fun S => (S.live 0).map Simulation.Event.key) = some [(0, 1)] := rfl
    obtain ⟨S, hS, hv⟩ := Option.map_eq_some_iff.mp heval
    obtain ⟨-, -, hcancel⟩ := hsimulation .virtualTime 1 0 _ S (by decide +kernel) hS 0 (by decide)
    have hkeys : ∀ e ∈ S.live 0, e.key = (0, 1) := by
      intro e he
      have hmem := List.mem_map_of_mem (f := Simulation.Event.key) he
      rw [hv] at hmem
      exact List.mem_singleton.1 hmem
    have hown : S.Own 0 1 := fun e he _ => by rw [hkeys e he]
    have hown' : S.Own 0 0 := by
      intro e he hmod
      rw [hkeys e he] at hmod
      exact absurd hmod (by decide)
    refine ⟨S, hS, ((hcancel 1 (by decide) hown).1).2 ?_, fun hsome => ?_⟩
    · have hmem : (0, 1) ∈ (S.live 0).map Simulation.Event.key := by
        rw [hv]
        simp
      exact List.mem_map.1 hmem
    · obtain ⟨e, he, hzero⟩ := ((hcancel 0 (by decide) hown').1).1 hsome
      rw [hkeys e he] at hzero
      cases hzero

/-! ### An id comes round -/

namespace Issuing

section Unstarted

variable {S : Issuing P C A} (O : OneShot P) (driver : Driver) {i : Index}

theorem scheduleAt_unstarted (hisr : S.core.isr = .out) (hstarted : S.core.table.started = false)
    (hfree : S.core.table.findSlot 0 = some i) (cb : C) (arg : Option A) :
    ∃ S', S.next O driver (.scheduleAt 0 (some cb) arg) = some S' ∧ S'.core.isr = .out ∧
      S'.core.table = (S.core.table.nextHandleId).2.setSlot i ⟨(S.core.table.nextHandleId).1, 0, 0, some cb, arg⟩ ∧
      S'.number = Function.update S.number i S.nextNumber ∧ S'.issued = S.nextNumber + 1 := by
  have hcall : S.core.mayCall = true := by rw [Core.mayCall, hisr]
  have hkept := S.core.table.nextHandleId_same.1.trans hstarted
  simp only [next, Core.next, hcall, fills, hfree, Core.scheduleAt]
  refine ⟨_, rfl, ?_, Core.settle_table O driver _, rfl, rfl⟩
  simp only [Core.fill, Core.settle, Timetable.setSlot, hkept]
  exact hisr

theorem cancel_unstarted (hisr : S.core.isr = .out) (hstarted : S.core.table.started = false) {id : ℕ} (hid : id ≠ 0)
    (hfound : S.core.table.findSlot id = some i) :
    ∃ S', S.next O driver (.cancel id) = some S' ∧ S'.core.isr = .out ∧
      S'.core.table = S.core.table.setSlot i .free ∧ S'.number = S.number ∧ S'.issued = S.issued := by
  have hcall : S.core.mayCall = true := by rw [Core.mayCall, hisr]
  simp only [next, Core.next, hcall, fills, Core.cancel, hid, hfound, if_true, if_false]
  refine ⟨_, rfl, ?_, Core.settle_table O driver _, rfl, rfl⟩
  simp only [Core.settle, Timetable.setSlot, hstarted]
  exact hisr

end Unstarted

/-- The second slot is the first with an id that the first has not. -/
theorem findSlot_one {t : Timetable C A} {id : ℕ} (hzero : (t.slots 0).id ≠ id) (hone : (t.slots 1).id = id) :
    t.findSlot id = some 1 := by
  unfold Timetable.findSlot
  rw [show List.finRange maxScheduledCallbacks = 0 :: 1 :: (List.finRange maxScheduledCallbacks).drop 2 from rfl,
    List.find?_cons_of_neg (by simpa using hzero), List.find?_cons_of_pos (by simpa using hone)]

/-- A recurring timer waits in the first slot under the id 1, and the next id is that of the number `k + 1`. -/
structure RoundsDone (k : ℕ) (S : Issuing DeadlineGate Unit Unit) : Prop where
  table : S.core.table = ⟨false, (k + 2) % idSize, Function.update (fun _ => .free) 0 ⟨1, 0, 3, some (), none⟩⟩
  isr : S.core.isr = .out
  number : S.number 0 = 0
  issued : S.issued = k + 1

theorem RoundsDone.free {k : ℕ} {S : Issuing DeadlineGate Unit Unit} (h : RoundsDone k S) :
    S.core.table.findSlot 0 = some 1 := by
  rw [h.table]
  exact findSlot_one Nat.one_ne_zero rfl

/-- **One round**: a timer is scheduled and cancelled, and one more id is counted. -/
theorem RoundsDone.round {k : ℕ} {S : Issuing DeadlineGate Unit Unit} (h : RoundsDone k S) (hk : k + 2 < idSize) :
    ∃ S', run (next mtimeOneShot .tickless) S [.scheduleAt 0 (some ()) none, .cancel (k + 2)] = some S' ∧
      RoundsDone (k + 1) S' := by
  have hstarted : S.core.table.started = false := by rw [h.table]
  have hnext : S.core.table.nextId = k + 2 := by
    rw [h.table]
    exact Nat.mod_eq_of_lt hk
  have hnonzero : S.core.table.nextId ≠ 0 := by omega
  have hhandle : S.core.table.nextHandleId = (k + 2, { S.core.table with nextId := (k + 3) % idSize }) := by
    unfold Timetable.nextHandleId
    rw [if_neg hnonzero, hnext]
  have hnumber : S.nextNumber = k + 1 := by
    unfold nextNumber
    rw [if_neg hnonzero, h.issued]
  obtain ⟨S₁, hfirst, hisr, htable, hnumbers, hissued⟩ :=
    scheduleAt_unstarted mtimeOneShot .tickless h.isr hstarted h.free () none
  rw [hhandle] at htable
  have hfound : S₁.core.table.findSlot (k + 2) = some 1 := by
    rw [htable]
    refine findSlot_one ?_ ?_
    · rw [Timetable.setSlot_of_ne _ _ (by decide), h.table]
      show 1 ≠ k + 2
      omega
    · rw [Timetable.setSlot_self]
  have hstarted₁ : S₁.core.table.started = false := by
    rw [htable]
    exact hstarted
  obtain ⟨S₂, hsecond, hisr₂, htable₂, hnumbers₂, hissued₂⟩ :=
    cancel_unstarted mtimeOneShot .tickless hisr hstarted₁ (Nat.succ_ne_zero _) hfound
  refine ⟨S₂, by rw [run_cons, hfirst, Option.bind_some, run_cons, hsecond]; rfl, ?_, hisr₂, ?_, ?_⟩
  · rw [htable₂, htable, h.table]
    simp only [Timetable.setSlot, Timetable.mk.injEq, true_and, Function.update_idem]
    refine Function.update_eq_self_iff.2 ?_
    rfl
  · rw [hnumbers₂, hnumbers, Function.update_of_ne (by decide)]
    exact h.number
  · rw [hissued₂, hissued, hnumber]

/-- So many rounds from the `k`-th on. -/
def rounds : ℕ → ℕ → List (Act Unit Unit)
  | _, 0 => []
  | k, m + 1 => [.scheduleAt 0 (some ()) none, .cancel (k + 2)] ++ rounds (k + 1) m

theorem RoundsDone.rounds {m : ℕ} : ∀ {k : ℕ} {S : Issuing DeadlineGate Unit Unit}, RoundsDone k S →
    k + m + 1 < idSize →
    ∃ S', run (next mtimeOneShot .tickless) S (rounds k m) = some S' ∧ RoundsDone (k + m) S' := by
  induction m with
  | zero => exact fun h _ => ⟨_, rfl, h⟩
  | succ m ih =>
      intro k S h hk
      obtain ⟨S₁, hround, h₁⟩ := h.round (by omega)
      obtain ⟨S₂, hrest, h₂⟩ := ih h₁ (by omega)
      refine ⟨S₂, ?_, ?_⟩
      · rw [Issuing.rounds, run_append, hround]
        exact hrest
      · rwa [show k + (m + 1) = k + 1 + m from by omega]

/-- **Two live timers with one id.**  A recurring timer is scheduled first.  When `2 ^ 32 - 2` others have been scheduled
and cancelled, the next one gets its id; a cancel of that one's handle takes the recurring timer away. -/
theorem id_comes_round :
    ∃ (acts : List (Act Unit Unit)) (S : Issuing DeadlineGate Unit Unit),
      run (next mtimeOneShot .tickless) (boot ⟨never, false⟩ 0) acts = some S ∧ S.Live 0 ∧ S.Live 1 ∧
        S.number 0 = 0 ∧ S.number 1 = 2 ^ 32 ∧ (S.core.table.slots 0).id = (S.core.table.slots 1).id ∧
        (S.core.cancel mtimeOneShot .tickless (idOf (2 ^ 32))).2.table = S.core.table.setSlot 0 .free := by
  obtain ⟨S₀, hrun₀, h₀⟩ : ∃ S₀, run (next mtimeOneShot .tickless) (boot ⟨never, false⟩ 0)
      [.scheduleRecurring 3 (some ()) none] = some S₀ ∧ RoundsDone 0 S₀ := ⟨_, rfl, rfl, rfl, rfl, rfl⟩
  obtain ⟨S₁, hrun₁, h₁⟩ := h₀.rounds (m := idSize - 2) (by decide)
  have hround : (0 + (idSize - 2) + 2) % idSize = 0 := by decide
  have hzero : S₁.core.table.nextId = 0 := by
    rw [h₁.table]
    exact hround
  have hstarted : S₁.core.table.started = false := by rw [h₁.table]
  have hnumber : S₁.nextNumber = 2 ^ 32 := by
    unfold nextNumber
    rw [if_pos hzero, h₁.issued]
    decide
  obtain ⟨S₂, hlast, -, htable, hnumbers, -⟩ :=
    scheduleAt_unstarted mtimeOneShot .tickless h₁.isr hstarted h₁.free () none
  have hid : (S₁.core.table.nextHandleId).1 = 1 := by
    unfold Timetable.nextHandleId
    rw [if_pos hzero, hzero]
    rfl
  have hslot₀ : (S₂.core.table.slots 0).id = 1 := by
    rw [htable, Timetable.setSlot_of_ne _ _ (by decide), S₁.core.table.nextHandleId_same.2, h₁.table]
    rfl
  have hslot₁ : (S₂.core.table.slots 1).id = 1 := by rw [htable, Timetable.setSlot_self, hid]
  have hfound : S₂.core.table.findSlot 1 = some 0 := by
    unfold Timetable.findSlot
    rw [show List.finRange maxScheduledCallbacks = 0 :: (List.finRange maxScheduledCallbacks).drop 1 from rfl,
      List.find?_cons_of_pos (by simpa using hslot₀)]
  refine ⟨[.scheduleRecurring 3 (some ()) none] ++ (rounds 0 (idSize - 2) ++ [.scheduleAt 0 (some ()) none]), S₂,
    ?_, ?_, ?_, ?_, ?_, ?_, ?_⟩
  · rw [run_append, hrun₀, Option.bind_some, run_append, hrun₁, Option.bind_some, run_cons, hlast]
    rfl
  · unfold Live
    rw [hslot₀]
    decide
  · unfold Live
    rw [hslot₁]
    decide
  · rw [hnumbers, Function.update_of_ne (by decide)]
    exact h₁.number
  · rw [hnumbers, Function.update_self, hnumber]
  · rw [hslot₀, hslot₁]
  · rw [show idOf (2 ^ 32) = 1 from rfl, Core.cancel, if_neg Nat.one_ne_zero, hfound]
    exact Core.settle_table mtimeOneShot .tickless _

end Issuing

end Cyros.Time
