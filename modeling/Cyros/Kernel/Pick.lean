import Cyros.Kernel.CoreRun

/-!
# The pick

`pick_next` takes the head of the best level of the matrix, or the first holder at the best urgency.
`Takes` says so over the lists that the ready structure represents, order included, and
`Filed.takes_pickNext` is the one lemma that unfolds the function.

* `PickRight`, `pickRight_of_readyStructure`: where no holder is in the matrix, the thread picked is of
  minimal urgency among the ready threads of the core.
* `Filed.hasMoreUrgentThan_iff`: the bitmap test of a preemption.
-/

namespace Cyros.Kernel.Sched

open Cyros.Lib.IntrusiveQueue

variable {Tid : Type}

/-! ### The bitmap test -/

theorem getLsbD_bit_sub_one (p q : Level) : (bit p - 1).getLsbD q.val = true ↔ q < p := by
  revert p q
  decide

/-- A level below `p` is not empty. -/
theorem Filed.hasMoreUrgentThan_iff {s : Sched Tid} {levels : Level → List Tid} {hs : List Tid}
    (hf : Filed s levels hs) (p : Level) :
    s.hasMoreUrgentThan p = true ↔ ∃ q < p, levels q ≠ [] := by
  have hbit : ∀ q : Level, (s.bitmap &&& (bit p - 1)).getLsbD q.val = true ↔ levels q ≠ [] ∧ q < p := by
    intro q
    rw [BitVec.getLsbD_and, Bool.and_eq_true, hf.bitmap, getLsbD_bit_sub_one]
  simp only [hasMoreUrgentThan, bne_iff_ne]
  constructor
  · intro hne
    by_contra hnone
    apply hne
    apply BitVec.eq_of_getLsbD_eq
    intro i hi
    rw [show (0 : BitVec 32).getLsbD i = false from BitVec.getLsbD_zero, ← Bool.not_eq_true]
    intro hset
    obtain ⟨hlevel, hlt⟩ := (hbit ⟨i, hi⟩).mp hset
    exact hnone ⟨⟨i, hi⟩, hlt, hlevel⟩
  · rintro ⟨q, hlt, hlevel⟩ hzero
    have hset := (hbit q).mpr ⟨hlevel, hlt⟩
    rw [hzero, show (0 : BitVec 32).getLsbD q.val = false from BitVec.getLsbD_zero] at hset
    exact Bool.false_ne_true hset

/-! ### The loop over the holders -/

variable [DecidableEq Tid]

omit [DecidableEq Tid] in
/-- The loop keeps the first holder at the best urgency. -/
theorem bestHolder_spec (s : Sched Tid) (fold : Tid → ℕ) (hs : List Tid)
    (hbound : ∀ h ∈ hs, s.urgency fold h < 0xFF) :
    (hs = [] ∧ s.bestHolder fold hs = (none, 0xFF)) ∨
      ∃ ys h zs, hs = ys ++ h :: zs ∧ s.bestHolder fold hs = (some h, s.urgency fold h) ∧
        (∀ y ∈ ys, s.urgency fold h < s.urgency fold y) ∧
        ∀ z ∈ zs, s.urgency fold h ≤ s.urgency fold z := by
  induction hs using List.reverseRecOn with
  | nil => exact Or.inl ⟨rfl, rfl⟩
  | append_singleton hs x ih =>
      have hx : s.urgency fold x < 0xFF := hbound x (by simp)
      have hstep : s.bestHolder fold (hs ++ [x]) =
          if s.urgency fold x < (s.bestHolder fold hs).2 then (some x, s.urgency fold x)
          else s.bestHolder fold hs := by
        rw [bestHolder, List.foldl_append]
        rfl
      right
      rcases ih fun h hh => hbound h (List.mem_append_left _ hh) with
        ⟨rfl, hbest⟩ | ⟨ys, h, zs, rfl, hbest, hys, hzs⟩
      · rw [hbest, if_pos hx] at hstep
        exact ⟨[], x, [], rfl, hstep, nofun, nofun⟩
      · rw [hbest] at hstep
        by_cases hlt : s.urgency fold x < s.urgency fold h
        · -- the newcomer beats everyone before it
          rw [if_pos hlt] at hstep
          refine ⟨ys ++ h :: zs, x, [], rfl, hstep, fun y hy => ?_, nofun⟩
          rcases List.mem_append.mp hy with hy | hy
          · exact hlt.trans (hys y hy)
          · rcases List.mem_cons.mp hy with rfl | hy
            · exact hlt
            · exact lt_of_lt_of_le hlt (hzs y hy)
        · rw [if_neg hlt] at hstep
          refine ⟨ys, h, zs ++ [x], by simp, hstep, hys, fun z hz => ?_⟩
          rcases List.mem_append.mp hz with hz | hz
          · exact hzs z hz
          · rw [List.mem_singleton.mp hz]
            exact Nat.le_of_not_lt hlt

/-! ### What the pick takes -/

/-- **The pick over the lists**, for the urgency `u`: nobody, the head of the best level, or the first
holder at the best urgency.  The lists it leaves keep their order. -/
inductive Takes (u : Tid → ℕ) (levels : Level → List Tid) (hs : List Tid) :
    Option Tid → (Level → List Tid) → List Tid → Prop
  | nobody (hlevels : ∀ p, levels p = []) (hholders : hs = []) : Takes u levels hs none levels hs
  | matrix (p : Level) (t : Tid) (ts : List Tid) (hlevel : levels p = t :: ts)
      (hbest : ∀ q < p, levels q = []) (hholders : ∀ h ∈ hs, p.val ≤ u h) :
      Takes u levels hs (some t) (Function.update levels p ts) hs
  | holder (ys zs : List Tid) (h : Tid) (hlist : hs = ys ++ h :: zs)
      (hfirst : ∀ y ∈ ys, u h < u y)
      (hrest : ∀ z ∈ zs, u h ≤ u z)
      (hlevels : ∀ p : Level, levels p ≠ [] → u h ≤ p.val) :
      Takes u levels hs (some h) levels (ys ++ zs)

/-- What is filed after the matrix gave its best thread. -/
theorem Filed.takes_popBestThread {s : Sched Tid} {levels : Level → List Tid} {hs : List Tid}
    (hf : Filed s levels hs) (fold : Tid → ℕ) (hnone : (∀ p, levels p = []) → hs = [])
    (hholders : ∀ p, levels p ≠ [] → (∀ q < p, levels q = []) → ∀ h ∈ hs, p.val ≤ s.urgency fold h) :
    ∃ levels' hs', Takes (s.urgency fold) levels hs s.popBestThread.1 levels' hs' ∧
      Filed s.popBestThread.2 levels' hs' ∧ SameTcbs s s.popBestThread.2 := by
  obtain ⟨heq, hempty⟩ | ⟨p, t, ts, s', heq, hlevel, hbest, hf', hsame⟩ := hf.popBestThread
  · rw [heq]
    exact ⟨levels, hs, .nobody hempty (hnone hempty), hf, SameTcbs.refl s⟩
  · rw [heq]
    have hp : levels p ≠ [] := by simp [hlevel]
    exact ⟨_, hs, .matrix p t ts hlevel hbest (hholders p hp hbest), hf', hsame⟩

omit [DecidableEq Tid] in
/-- The tie rotor is no part of what is filed. -/
theorem Filed.setTieRotor {s : Sched Tid} {levels : Level → List Tid} {hs : List Tid}
    (hf : Filed s levels hs) (rotor : BitVec 32) : Filed { s with tieRotor := rotor } levels hs :=
  ⟨hf.level, hf.holders, hf.base, hf.bitmap, hf.sentinel, hf.holderSentinel, hf.apart⟩

variable [Fintype Tid]

theorem Filed.takes_unlinkHolder {s : Sched Tid} {levels : Level → List Tid} {ys zs : List Tid} {h : Tid}
    (hf : Filed s levels (ys ++ h :: zs)) (fold : Tid → ℕ)
    (hfirst : ∀ y ∈ ys, s.urgency fold h < s.urgency fold y)
    (hrest : ∀ z ∈ zs, s.urgency fold h ≤ s.urgency fold z)
    (hlevels : ∀ p : Level, levels p ≠ [] → s.urgency fold h ≤ p.val) :
    ∃ levels' hs', Takes (s.urgency fold) levels (ys ++ h :: zs) (some h) levels' hs' ∧
      Filed (s.unlinkHolder h) levels' hs' ∧ SameTcbs s (s.unlinkHolder h) := by
  obtain ⟨hf', hsame⟩ := hf.unlinkHolder
  exact ⟨levels, ys ++ zs, .holder ys zs h rfl hfirst hrest hlevels, hf', hsame⟩

/-- **`pick_next` takes what `Takes` says**, and leaves the rest filed as it was. -/
theorem Filed.takes_pickNext {s : Sched Tid} {levels : Level → List Tid} {hs : List Tid}
    (hf : Filed s levels hs) (fold : Tid → ℕ) (hbound : ∀ h ∈ hs, s.urgency fold h < 0xFF) :
    ∃ levels' hs', Takes (s.urgency fold) levels hs (s.pickNext fold).1 levels' hs' ∧
      Filed (s.pickNext fold).2 levels' hs' ∧ SameTcbs s (s.pickNext fold).2 := by
  unfold Sched.pickNext
  by_cases hhead : s.holders.head.isNone = true
  · rw [if_pos hhead]
    have hnil : hs = [] := hf.holders.head_eq_none_iff.mp (Option.isNone_iff_eq_none.mp hhead)
    exact hf.takes_popBestThread fold (fun _ => hnil) fun p _ _ h hh => by simp [hnil] at hh
  · rw [if_neg hhead]
    have hne : hs ≠ [] := fun hnil =>
      hhead (Option.isNone_iff_eq_none.mpr (hf.holders.head_eq_none_iff.mpr hnil))
    have hwalk : walk s.holderNext (Fintype.card Tid) s.holders.head = hs :=
      hf.holders.seg.walk_eq hf.holders.nodup.length_le_card
    obtain ⟨hnil, -⟩ | ⟨ys, h, zs, rfl, hbest, hfirst, hrest⟩ := bestHolder_spec s fold hs hbound
    · exact absurd hnil hne
    · unfold Sched.pickWithHolders
      rw [hwalk, hbest]
      dsimp only
      cases hpri : s.bestPriority with
      | none =>
          have hempty : ∀ p, levels p = [] := hf.bestPriority_eq_none hpri
          exact hf.takes_unlinkHolder fold hfirst hrest fun p hp => absurd (hempty p) hp
      | some base =>
          obtain ⟨hbase, hbelow⟩ := hf.bestPriority_eq_some hpri
          -- the best level is `base`, so every level that is not empty is at or above it
          have habove : ∀ p : Level, levels p ≠ [] → base ≤ p := fun p hp =>
            le_of_not_gt fun hlt => hp (hbelow p hlt)
          have hall : ∀ x ∈ ys ++ h :: zs, s.urgency fold h ≤ s.urgency fold x := by
            intro x hx
            rcases List.mem_append.mp hx with hy | hx
            · exact (hfirst x hy).le
            · rcases List.mem_cons.mp hx with rfl | hz
              · exact le_rfl
              · exact hrest x hz
          -- the matrix gives its thread only where no holder beats its level
          have hmatrix : base.val ≤ s.urgency fold h → ∀ p, levels p ≠ [] → (∀ q < p, levels q = []) →
              ∀ x ∈ ys ++ h :: zs, p.val ≤ s.urgency fold x := by
            intro hle p hp hq x hx
            have hpb : p ≤ base := le_of_not_gt fun hlt => hbase (hq base hlt)
            exact (Fin.le_def.mp hpb).trans (hle.trans (hall x hx))
          have hnone : (∀ p, levels p = []) → ys ++ h :: zs = [] := fun hempty => absurd (hempty base) hbase
          have hholder : s.urgency fold h ≤ base.val → ∀ p : Level, levels p ≠ [] →
              s.urgency fold h ≤ p.val := fun hle p hp => hle.trans (Fin.le_def.mp (habove p hp))
          dsimp only
          by_cases hlt : base.val < s.urgency fold h
          · rw [if_pos hlt]
            exact hf.takes_popBestThread fold hnone (hmatrix hlt.le)
          · rw [if_neg hlt]
            by_cases htie : base.val = s.urgency fold h
            · rw [if_pos htie]
              -- the rotor turns first, and is no part of what the pick is about
              have hf' := hf.setTieRotor (s.tieRotor ^^^ bit base)
              have hturn : SameTcbs s { s with tieRotor := s.tieRotor ^^^ bit base } :=
                ⟨rfl, rfl, rfl, rfl, rfl, rfl, rfl, rfl, rfl⟩
              split
              · obtain ⟨levels', hs', htakes, hfiled, hsame⟩ :=
                  hf'.takes_popBestThread fold hnone (hmatrix htie.le)
                exact ⟨levels', hs', htakes, hfiled, hturn.trans hsame⟩
              · obtain ⟨levels', hs', htakes, hfiled, hsame⟩ :=
                  hf'.takes_unlinkHolder fold hfirst hrest (hholder htie.ge)
                exact ⟨levels', hs', htakes, hfiled, hturn.trans hsame⟩
            · rw [if_neg htie]
              exact hf.takes_unlinkHolder fold hfirst hrest (hholder (Nat.le_of_not_lt hlt))

/-! ### The pick of a core outside its scheduler -/

omit [DecidableEq Tid] [Fintype Tid] in
theorem filed_of_readyStructure {s : Sched Tid} {levels : Level → List Tid} {hs : List Tid}
    (h : Core.ReadyStructure s levels hs) : Filed s levels hs := by
  have hbase : ∀ p, ∀ t ∈ levels p, s.basePriority t = p := fun p t ht => (h.base p t ht).symm
  refine ⟨h.level, h.holders, hbase, h.bitmap, fun t ht => h.sentinel t fun p hp => ?_, h.holderSentinel,
    fun p t ht hth => ?_⟩
  · exact ht (by rwa [hbase p t hp])
  · -- who is linked is ready, and then in one of the two only
    by_cases hready : s.state t ≠ .ready ∨ t = s.idleThread
    · exact (h.others t hready).1 p ht
    · rw [not_or, not_not] at hready
      rcases h.ready t hready.1 hready.2 with ⟨-, hnot⟩ | ⟨-, hnot⟩
      · exact hnot hth
      · exact hnot (by rwa [hbase p t ht])

/-- **The pick is right**: it is nobody only if nobody is ready, it is of minimal urgency, and it is the
earliest filed of its level or the earliest holder of its urgency; the others stay filed as they were. -/
structure PickRight (s : Sched Tid) (fold : Tid → ℕ) (levels : Level → List Tid) (hs : List Tid) :
    Prop where
  nobody : (s.pickNext fold).1 = none → ∀ t, s.state t = .ready → t = s.idleThread
  minimal : ∀ t, (s.pickNext fold).1 = some t → s.state t = .ready ∧ t ≠ s.idleThread ∧
    ∀ x, s.state x = .ready → x ≠ s.idleThread → s.urgency fold t ≤ s.urgency fold x
  takes : ∃ levels' hs', Takes (s.urgency fold) levels hs (s.pickNext fold).1 levels' hs' ∧
    Filed (s.pickNext fold).2 levels' hs' ∧ SameTcbs s (s.pickNext fold).2

/-- A holder's urgency is never worse than its base priority, so no urgency reaches the start value of
the loop. -/
theorem pickRight_of_readyStructure {s : Sched Tid} {levels : Level → List Tid} {hs : List Tid}
    (h : Core.ReadyStructure s levels hs) (hmatrix : ∀ p, ∀ t ∈ levels p, s.heldMask t = 0)
    (fold : Tid → ℕ) (hfold : ∀ t, fold t ≤ s.basePriority t) : PickRight s fold levels hs := by
  have hf := filed_of_readyStructure h
  have hbound : ∀ x ∈ hs, s.urgency fold x < 0xFF := by
    intro x _
    have hlevel := (s.basePriority x).isLt
    have hle := hfold x
    unfold urgency
    split <;> omega
  have hurgency : ∀ p, ∀ t ∈ levels p, s.urgency fold t = p.val := by
    intro p t ht
    rw [urgency, if_pos (hmatrix p t ht), hf.base p t ht]
  have hlinked : ∀ t, (t ∈ levels (s.basePriority t) ∨ t ∈ hs) → s.state t = .ready ∧ t ≠ s.idleThread := by
    intro t ht
    by_contra hnot
    rw [not_and_or, not_not] at hnot
    obtain ⟨hlevel, hholder⟩ := h.others t hnot
    exact ht.elim (hlevel _) hholder
  have hready : ∀ x, s.state x = .ready → x ≠ s.idleThread → x ∈ levels (s.basePriority x) ∨ x ∈ hs :=
    fun x hx hidle => (h.ready x hx hidle).or
  obtain ⟨levels', hs', htakes, hfiled, hsame⟩ := hf.takes_pickNext fold hbound
  refine ⟨fun hnone t ht => ?_, fun t hsome => ?_, levels', hs', htakes, hfiled, hsame⟩
  · rw [hnone] at htakes
    cases htakes with
    | nobody hlevels hholders =>
        by_contra hidle
        rcases hready t ht hidle with hmem | hmem
        · simp [hlevels] at hmem
        · simp [hholders] at hmem
  · rw [hsome] at htakes
    cases htakes with
    | matrix p _ ts hlevel hbest hholders =>
        have ht : t ∈ levels p := by simp [hlevel]
        obtain ⟨hstate, hidle⟩ := hlinked t (Or.inl (by rwa [hf.base p t ht]))
        refine ⟨hstate, hidle, fun x hx hxi => ?_⟩
        rw [hurgency p t ht]
        rcases hready x hx hxi with hmem | hmem
        · rw [hurgency _ x hmem]
          by_contra hlt
          simp [hbest _ (Fin.lt_def.mpr (not_le.mp hlt))] at hmem
        · exact hholders x hmem
    | holder ys zs _ hlist hfirst hrest hlevels =>
        have ht : t ∈ hs := by simp [hlist]
        obtain ⟨hstate, hidle⟩ := hlinked t (Or.inr ht)
        refine ⟨hstate, hidle, fun x hx hxi => ?_⟩
        rcases hready x hx hxi with hmem | hmem
        · rw [hurgency _ x hmem]
          exact hlevels _ (List.ne_nil_of_mem hmem)
        · rw [hlist, List.mem_append, List.mem_cons] at hmem
          rcases hmem with hmem | rfl | hmem
          · exact (hfirst x hmem).le
          · exact le_rfl
          · exact hrest x hmem

end Cyros.Kernel.Sched

namespace Cyros.Kernel.Core

/-- The fold a step asks for. -/
def asks {Tid : Type} : CoreAct Tid → Option (Tid → ℕ)
  | .wakeReady fold _ | .commitToBlock fold | .yield fold | .handlerReady fold
  | .handlerGuard fold _ => some fold
  | _ => none

/-- The fold a step asks for starts from the base priorities, as `urgency` does. -/
def FoldWithin {Tid : Type} (base : Tid → Level) (act : CoreAct Tid) : Prop :=
  ∀ fold ∈ asks act, ∀ t, fold t ≤ base t

instance {Tid : Type} [Fintype Tid] (base : Tid → Level) (act : CoreAct Tid) : Decidable (FoldWithin base act) :=
  inferInstanceAs (Decidable (∀ fold ∈ asks act, ∀ t, fold t ≤ base t))

end Cyros.Kernel.Core
