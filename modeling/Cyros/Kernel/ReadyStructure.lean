import Mathlib.Data.Set.Insert
import Cyros.Kernel.Scheduler

/-!
# What is filed where

The ready structure of a core holds a list of threads for each level and one for the holder list.
`Filed s levels hs` says that the pointers of `s` represent these lists: heads, tails, links, the
bitmap, and the self-pointer of every thread that is in none of them.  `FiledAs s R` forgets the order
and keeps the set `R` of filed threads.

The filing operations are specified against these two: `FiledAs.admitThread` files one thread more,
`FiledAs.pickNext` takes one of the filed threads out, and `FiledAs.reroute` moves a thread from the
matrix to the holder list.  What an operation leaves alone is `SameTcbs`.
-/

namespace Cyros.Kernel.Sched

open Cyros.Lib.IntrusiveQueue

variable {Tid : Type}

/-- The pointers of the ready structure represent the lists `levels` and `hs`. -/
structure Filed (s : Sched Tid) (levels : Level → List Tid) (hs : List Tid) : Prop where
  level : ∀ p, Rep s.next (s.matrix p) (levels p)
  holders : Rep s.holderNext s.holders hs
  base : ∀ p, ∀ t ∈ levels p, s.basePriority t = p
  bitmap : ∀ p : Level, s.bitmap.getLsbD p.val = true ↔ levels p ≠ []
  sentinel : ∀ t, t ∉ levels (s.basePriority t) → s.next t = some t
  holderSentinel : ∀ t, t ∉ hs → s.holderNext t = some t
  apart : ∀ p, ∀ t ∈ levels p, t ∉ hs

/-- Exactly the threads of `R` are filed, each once. -/
def FiledAs (s : Sched Tid) (R : Set Tid) : Prop :=
  ∃ levels hs, Filed s levels hs ∧ ∀ t, t ∈ R ↔ t ∈ levels (s.basePriority t) ∨ t ∈ hs

/-- The fields that filing does not touch. -/
structure SameTcbs (s t : Sched Tid) : Prop where
  currentThread : t.currentThread = s.currentThread
  idleThread : t.idleThread = s.idleThread
  intake : t.intake = s.intake
  state : t.state = s.state
  disposition : t.disposition = s.disposition
  basePriority : t.basePriority = s.basePriority
  heldMask : t.heldMask = s.heldMask
  pending : t.pending = s.pending
  raised : t.raised = s.raised

theorem SameTcbs.refl (s : Sched Tid) : SameTcbs s s := ⟨rfl, rfl, rfl, rfl, rfl, rfl, rfl, rfl, rfl⟩

theorem SameTcbs.trans {s t u : Sched Tid} (h : SameTcbs s t) (h' : SameTcbs t u) : SameTcbs s u :=
  ⟨h'.1.trans h.1, h'.2.trans h.2, h'.3.trans h.3, h'.4.trans h.4, h'.5.trans h.5, h'.6.trans h.6,
    h'.7.trans h.7, h'.8.trans h.8, h'.9.trans h.9⟩

/-! ### Bits and membership -/

theorem getLsbD_bit {p q : Level} : (bit p).getLsbD q.val = true ↔ q = p := by
  have hp := p.isLt
  have hq := q.isLt
  simp only [bit, BitVec.getLsbD_shiftLeft, BitVec.getLsbD_one, Bool.and_eq_true,
    Bool.not_eq_true', decide_eq_true_eq, decide_eq_false_iff_not, Fin.ext_iff]
  omega

theorem Filed.mem_level_iff {s : Sched Tid} {levels : Level → List Tid} {hs : List Tid}
    (hf : Filed s levels hs) {t : Tid} {p : Level} :
    t ∈ levels p ↔ p = s.basePriority t ∧ t ∈ levels (s.basePriority t) := by
  constructor
  · intro h
    obtain rfl := hf.base p t h
    exact ⟨rfl, h⟩
  · rintro ⟨rfl, h⟩
    exact h

/-- The bitmap after a level was filled. -/
theorem Filed.bitmap_mark {s : Sched Tid} {levels : Level → List Tid} {hs : List Tid}
    (hf : Filed s levels hs) {p : Level} {xs : List Tid} (hxs : xs ≠ []) (q : Level) :
    (s.bitmap ||| bit p).getLsbD q.val = true ↔ Function.update levels p xs q ≠ [] := by
  rw [BitVec.getLsbD_or, Bool.or_eq_true, getLsbD_bit, hf.bitmap]
  by_cases hq : q = p
  · subst hq
    simp [hxs]
  · simp [hq]

/-- The bitmap after a level was emptied, or not. -/
theorem Filed.bitmap_unmark {s : Sched Tid} {levels : Level → List Tid} {hs : List Tid}
    (hf : Filed s levels hs) {p : Level} {xs : List Tid} (hp : levels p ≠ []) (q : Level) :
    (if xs = [] then s.bitmap &&& ~~~(bit p) else s.bitmap).getLsbD q.val = true ↔
      Function.update levels p xs q ≠ [] := by
  have hnot : (~~~(bit p)).getLsbD q.val = true ↔ q ≠ p := by
    rw [BitVec.getLsbD_not, Bool.and_eq_true, Bool.not_eq_true', ← Bool.not_eq_true, getLsbD_bit]
    simp
  by_cases hq : q = p
  · subst hq
    rw [Function.update_self]
    split
    · next h =>
      rw [BitVec.getLsbD_and, Bool.and_eq_true, hnot]
      simp only [h, ne_eq, not_true_eq_false, and_false]
    · next h => exact ⟨fun _ => h, fun _ => (hf.bitmap q).2 hp⟩
  · rw [Function.update_of_ne hq, ← hf.bitmap]
    split
    · rw [BitVec.getLsbD_and, Bool.and_eq_true, hnot, and_iff_left hq]
    · rfl

theorem sameTcbs_shrinkLevel (s : Sched Tid) (p : Level) (l : Linked Tid) :
    SameTcbs s ((s.setLevel p l).unmarkIfEmpty p) := by
  unfold unmarkIfEmpty
  split <;> exact ⟨rfl, rfl, rfl, rfl, rfl, rfl, rfl, rfl, rfl⟩

theorem Filed.bestPriority_eq_none {s : Sched Tid} {levels : Level → List Tid} {hs : List Tid}
    (hf : Filed s levels hs) (h : s.bestPriority = none) (p : Level) : levels p = [] := by
  by_contra hp
  exact List.find?_eq_none.1 h p (List.mem_finRange p) ((hf.bitmap p).2 hp)

/-- The best priority is the first level that is not empty. -/
theorem Filed.bestPriority_eq_some {s : Sched Tid} {levels : Level → List Tid} {hs : List Tid}
    (hf : Filed s levels hs) {p : Level} (h : s.bestPriority = some p) :
    levels p ≠ [] ∧ ∀ q < p, levels q = [] := by
  obtain ⟨hp, i, hi, hget, hbefore⟩ := List.find?_eq_some_iff_getElem.1 h
  refine ⟨(hf.bitmap p).1 hp, fun q hq => ?_⟩
  by_contra hne
  obtain rfl : i = p.val := by simpa using congrArg Fin.val hget
  have hqb := hbefore q.val hq
  rw [List.getElem_finRange] at hqb
  have hbit := (hf.bitmap q).2 hne
  simp only [Fin.cast_mk, Fin.eta, hbit] at hqb
  exact Bool.noConfusion hqb

variable [DecidableEq Tid]

theorem Filed.isEnqueued_iff {s : Sched Tid} {levels : Level → List Tid} {hs : List Tid}
    (hf : Filed s levels hs) (t : Tid) :
    s.isEnqueued t = true ↔ t ∈ levels (s.basePriority t) := by
  simp only [isEnqueued, bne_iff_ne]
  constructor
  · intro h
    by_contra hmem
    exact h (hf.sentinel t hmem)
  · exact (hf.level _).next_ne_self

theorem Filed.isListedHolder_iff {s : Sched Tid} {levels : Level → List Tid} {hs : List Tid}
    (hf : Filed s levels hs) (t : Tid) : s.isListedHolder t = true ↔ t ∈ hs := by
  simp only [isListedHolder, bne_iff_ne]
  constructor
  · intro h
    by_contra hmem
    exact h (hf.holderSentinel t hmem)
  · exact hf.holders.next_ne_self

theorem FiledAs.mem_iff {s : Sched Tid} {R : Set Tid} (h : FiledAs s R) (t : Tid) :
    t ∈ R ↔ (s.isEnqueued t || s.isListedHolder t) = true := by
  obtain ⟨levels, hs, hf, hR⟩ := h
  rw [hR, Bool.or_eq_true, hf.isEnqueued_iff, hf.isListedHolder_iff]

/-! ### A level changes -/

/-- A new list for one level, for operations that leave the links of every other filed thread alone. -/
theorem Filed.setLevel {s : Sched Tid} {levels : Level → List Tid} {hs : List Tid}
    (hf : Filed s levels hs) {p : Level} {l : Linked Tid} {xs : List Tid} {bitmap : BitVec 32}
    (hrep : Rep l.next l.queue xs) (hbase : ∀ t ∈ xs, s.basePriority t = p ∧ t ∉ hs)
    (hnext : ∀ t, t ∉ levels p → t ∉ xs → l.next t = s.next t)
    (hself : ∀ t ∈ levels p, t ∉ xs → l.next t = some t)
    (hbit : ∀ q : Level, bitmap.getLsbD q.val = true ↔ Function.update levels p xs q ≠ []) :
    Filed { s.setLevel p l with bitmap := bitmap } (Function.update levels p xs) hs := by
  refine ⟨fun q => ?_, hf.holders, fun q t ht => ?_, hbit, fun t ht => ?_, hf.holderSentinel,
    fun q t ht => ?_⟩
  · by_cases hq : q = p
    · subst hq
      simpa [Sched.setLevel] using hrep
    · simp only [Sched.setLevel, Function.update_of_ne hq]
      refine (hf.level q).congr fun t ht => hnext t (fun h => hq ?_) fun h => hq ?_
      · rw [← hf.base q t ht, hf.base p t h]
      · rw [← hf.base q t ht, (hbase t h).1]
  · by_cases hq : q = p
    · subst hq
      rw [Function.update_self] at ht
      exact (hbase t ht).1
    · rw [Function.update_of_ne hq] at ht
      exact hf.base q t ht
  · change t ∉ Function.update levels p xs (s.basePriority t) at ht
    change l.next t = some t
    by_cases hp : s.basePriority t = p
    · rw [hp, Function.update_self] at ht
      by_cases hmem : t ∈ levels p
      · exact hself t hmem ht
      · rw [hnext t hmem ht]
        exact hf.sentinel t (hp ▸ hmem)
    · rw [Function.update_of_ne hp] at ht
      rw [hnext t (fun h => hp (hf.base p t h)) fun h => hp (hbase t h).1]
      exact hf.sentinel t ht
  · by_cases hq : q = p
    · subst hq
      rw [Function.update_self] at ht
      exact (hbase t ht).2
    · rw [Function.update_of_ne hq] at ht
      exact hf.apart q t ht

theorem Filed.enqueueThread {s : Sched Tid} {levels : Level → List Tid} {hs : List Tid}
    (hf : Filed s levels hs) {t : Tid} (ht : t ∉ levels (s.basePriority t)) (hth : t ∉ hs) :
    Filed (s.enqueueThread t)
      (Function.update levels (s.basePriority t) (levels (s.basePriority t) ++ [t])) hs := by
  have hr := hf.level (s.basePriority t)
  refine hf.setLevel (hr.pushBack ht) (fun x hx => ?_) (fun x hx hx' => ?_) (fun x hx hx' => ?_)
    (hf.bitmap_mark (by simp))
  · rcases List.mem_append.1 hx with hx | hx
    · exact ⟨hf.base _ x hx, hf.apart _ x hx⟩
    · rw [List.mem_singleton.1 hx]
      exact ⟨rfl, hth⟩
  · exact pushBack_next hr (fun h => hx' (by simp [h])) hx
  · exact absurd (List.mem_append_left _ hx) hx'

theorem Filed.enqueueThreadFront {s : Sched Tid} {levels : Level → List Tid} {hs : List Tid}
    (hf : Filed s levels hs) {t : Tid} (ht : t ∉ levels (s.basePriority t)) (hth : t ∉ hs) :
    Filed (s.enqueueThreadFront t)
      (Function.update levels (s.basePriority t) (t :: levels (s.basePriority t))) hs := by
  have hr := hf.level (s.basePriority t)
  refine hf.setLevel (hr.pushFront ht) (fun x hx => ?_) (fun x hx hx' => ?_) (fun x hx hx' => ?_)
    (hf.bitmap_mark (by simp))
  · rcases List.mem_cons.1 hx with rfl | hx
    · exact ⟨rfl, hth⟩
    · exact ⟨hf.base _ x hx, hf.apart _ x hx⟩
  · exact pushFront_next fun h => hx' (by simp [h])
  · exact absurd (List.mem_cons_of_mem _ hx) hx'

/-- The links and queue of a level from which threads were taken out, with its bit kept in step. -/
theorem Filed.shrinkLevel {s : Sched Tid} {levels : Level → List Tid} {hs : List Tid}
    (hf : Filed s levels hs) {p : Level} {l : Linked Tid} {xs : List Tid}
    (hrep : Rep l.next l.queue xs) (hsub : ∀ t ∈ xs, t ∈ levels p) (hp : levels p ≠ [])
    (hnext : ∀ t, t ∉ levels p → l.next t = s.next t)
    (hself : ∀ t ∈ levels p, t ∉ xs → l.next t = some t) :
    Filed ((s.setLevel p l).unmarkIfEmpty p) (Function.update levels p xs) hs := by
  have h := hf.setLevel hrep (fun t ht => ⟨hf.base p t (hsub t ht), hf.apart p t (hsub t ht)⟩)
    (fun t ht _ => hnext t ht) hself (hf.bitmap_unmark hp)
  have hempty : ((s.setLevel p l).matrix p).head.isNone = true ↔ xs = [] := by
    rw [Option.isNone_iff_eq_none, ← hrep.head_eq_none_iff]
    simp [Sched.setLevel]
  by_cases hxs : xs = []
  · rw [if_pos hxs] at h
    rw [unmarkIfEmpty, if_pos (hempty.2 hxs)]
    exact h
  · rw [if_neg hxs] at h
    rw [unmarkIfEmpty, if_neg (fun he => hxs (hempty.1 he))]
    exact h

/-- **The pop.**  The first thread of the first level that is not empty, or nothing. -/
theorem Filed.popBestThread {s : Sched Tid} {levels : Level → List Tid} {hs : List Tid}
    (hf : Filed s levels hs) :
    (s.popBestThread = (none, s) ∧ ∀ p, levels p = []) ∨
      ∃ p t ts s', s.popBestThread = (some t, s') ∧ levels p = t :: ts ∧ (∀ q < p, levels q = []) ∧
        Filed s' (Function.update levels p ts) hs ∧ SameTcbs s s' := by
  cases hbest : s.bestPriority with
  | none => exact Or.inl ⟨by simp only [Sched.popBestThread, hbest], hf.bestPriority_eq_none hbest⟩
  | some p =>
      obtain ⟨hp, hmin⟩ := hf.bestPriority_eq_some hbest
      have hr := hf.level p
      cases hpop : popFront s.next (s.matrix p) with
      | none => exact absurd (hr.head_eq_none_iff.1 (popFront_eq_none_iff.1 hpop)) hp
      | some tl =>
          obtain ⟨t, l⟩ := tl
          obtain ⟨ts, hlevel, hrep, hnext⟩ := hr.popFront hpop
          refine Or.inr ⟨p, t, ts, _, by simp only [Sched.popBestThread, hbest, hpop], hlevel, hmin,
            hf.shrinkLevel hrep (fun x hx => hlevel ▸ List.mem_cons_of_mem t hx) hp ?_ ?_,
            sameTcbs_shrinkLevel s p l⟩
          · intro x hx
            rw [hnext, Function.update_of_ne]
            rintro rfl
            exact hx (hlevel ▸ List.mem_cons_self)
          · intro x hx hx'
            obtain rfl : x = t := by
              rw [hlevel, List.mem_cons] at hx
              exact hx.resolve_right hx'
            rw [hnext, Function.update_self]

/-! ### The holder list changes -/

theorem Filed.linkHolder {s : Sched Tid} {levels : Level → List Tid} {hs : List Tid}
    (hf : Filed s levels hs) {t : Tid} (ht : t ∉ levels (s.basePriority t)) (hth : t ∉ hs) :
    Filed (s.linkHolder t) levels (hs ++ [t]) := by
  have hlisted : ¬ s.isListedHolder t = true := fun h => hth ((hf.isListedHolder_iff t).1 h)
  rw [Sched.linkHolder, if_neg hlisted]
  refine ⟨hf.level, hf.holders.pushBack hth, hf.base, hf.bitmap, hf.sentinel, fun x hx => ?_,
    fun p x hx hxs => ?_⟩
  · simp only [List.mem_append, List.mem_singleton, not_or] at hx
    exact (pushBack_next hf.holders hx.2 hx.1).trans (hf.holderSentinel x hx.1)
  · rcases List.mem_append.1 hxs with h | h
    · exact hf.apart p x hx h
    · rw [List.mem_singleton.1 h] at hx
      exact ht (hf.mem_level_iff.1 hx).2

variable [Fintype Tid]

/-- A thread of a level is removed from it. -/
theorem Filed.removeThread {s : Sched Tid} {levels : Level → List Tid} {hs : List Tid}
    (hf : Filed s levels hs) {t : Tid} (ht : t ∈ levels (s.basePriority t)) :
    ∃ ys zs, levels (s.basePriority t) = ys ++ t :: zs ∧
      Filed (s.removeThread t) (Function.update levels (s.basePriority t) (ys ++ zs)) hs ∧
      SameTcbs s (s.removeThread t) := by
  obtain ⟨ys, zs, hlevel⟩ := List.append_of_mem ht
  have hr := hf.level (s.basePriority t)
  rw [hlevel] at hr
  obtain ⟨l, hl, hrep, hself, hnext⟩ := hr.remove hr.nodup.length_le_card
  have heq : s.removeThread t =
      (s.setLevel (s.basePriority t) l).unmarkIfEmpty (s.basePriority t) := by
    simp only [Sched.removeThread, hl]
  rw [heq]
  refine ⟨ys, zs, hlevel, hf.shrinkLevel hrep ?_ (by simp [hlevel]) ?_ ?_, sameTcbs_shrinkLevel s _ l⟩
  · intro x hx
    rw [hlevel]
    simp only [List.mem_append, List.mem_cons] at hx ⊢
    tauto
  · intro x hx
    rw [hlevel] at hx
    simp only [List.mem_append, List.mem_cons, not_or] at hx
    exact hnext x hx.2.1 hx.1
  · intro x hx hx'
    obtain rfl : x = t := by
      rw [hlevel] at hx
      simp only [List.mem_append, List.mem_cons] at hx hx'
      tauto
    exact hself

theorem Filed.unlinkHolder {s : Sched Tid} {levels : Level → List Tid} {ys zs : List Tid} {t : Tid}
    (hf : Filed s levels (ys ++ t :: zs)) :
    Filed (s.unlinkHolder t) levels (ys ++ zs) ∧ SameTcbs s (s.unlinkHolder t) := by
  have hlisted : s.isListedHolder t = true := (hf.isListedHolder_iff t).2 (by simp)
  have hr := hf.holders
  obtain ⟨l, hl, hrep, hself, hnext⟩ := hr.remove hr.nodup.length_le_card
  have heq : s.unlinkHolder t = s.setHolders l := by
    simp only [Sched.unlinkHolder, hlisted, if_true, hl]
  rw [heq]
  refine ⟨⟨hf.level, hrep, hf.base, hf.bitmap, hf.sentinel, fun x hx => ?_, fun p x hx hxs => ?_⟩,
    ⟨rfl, rfl, rfl, rfl, rfl, rfl, rfl, rfl, rfl⟩⟩
  · by_cases hxt : x = t
    · subst hxt
      exact hself
    · simp only [List.mem_append, not_or] at hx
      exact (hnext x hxt hx.1).trans (hf.holderSentinel x (by simp [hx, hxt]))
  · refine hf.apart p x hx ?_
    simp only [List.mem_append, List.mem_cons] at hxs ⊢
    tauto

/-! ### Admissions and wakes -/

omit [DecidableEq Tid] [Fintype Tid] in
/-- What is filed is read from the links, the ends, the bitmap and the base priorities. -/
theorem Filed.transfer {s s' : Sched Tid} {levels : Level → List Tid} {hs : List Tid} (hf : Filed s levels hs)
    (hnext : s'.next = s.next) (hholderNext : s'.holderNext = s.holderNext)
    (hmatrix : s'.matrix = s.matrix) (hholders : s'.holders = s.holders)
    (hbitmap : s'.bitmap = s.bitmap) (hbase : s'.basePriority = s.basePriority) : Filed s' levels hs := by
  refine ⟨?_, ?_, ?_, ?_, ?_, ?_, hf.apart⟩
  · rw [hnext, hmatrix]
    exact hf.level
  · rw [hholderNext, hholders]
    exact hf.holders
  · rw [hbase]
    exact hf.base
  · rw [hbitmap]
    exact hf.bitmap
  · rw [hbase, hnext]
    exact hf.sentinel
  · rw [hholderNext]
    exact hf.holderSentinel

omit [Fintype Tid] in
theorem sameTcbs_linkHolder (s : Sched Tid) (t : Tid) : SameTcbs s (s.linkHolder t) := by
  unfold Sched.linkHolder
  split <;> exact ⟨rfl, rfl, rfl, rfl, rfl, rfl, rfl, rfl, rfl⟩

omit [Fintype Tid] in
theorem sameTcbs_admitThread (s : Sched Tid) (t : Tid) (atFront : Bool) :
    SameTcbs (s.setState t .ready) (s.admitThread t atFront) := by
  simp only [Sched.admitThread]
  split
  · exact SameTcbs.refl _
  · split
    · cases atFront <;> exact ⟨rfl, rfl, rfl, rfl, rfl, rfl, rfl, rfl, rfl⟩
    · exact sameTcbs_linkHolder _ t

omit [DecidableEq Tid] [Fintype Tid] in
/-- An update of one level that leaves what is asked for leaves it in every level. -/
theorem filter_update {levels : Level → List Tid} {p q : Level} {l : List Tid} {P : Tid → Bool}
    (h : l.filter P = (levels q).filter P) : (Function.update levels q l p).filter P = (levels p).filter P := by
  by_cases hp : p = q
  · subst hp
    rw [Function.update_self, h]
  · rw [Function.update_of_ne hp]

/-- **What an admission does to the lists.** -/
inductive Admits(s : Sched Tid) (t : Tid) (atFront : Bool) (levels : Level → List Tid) (hs : List Tid) :
    (Level → List Tid) → List Tid → Prop
  | idle (hidle : t = s.idleThread) : Admits s t atFront levels hs levels hs
  | matrix (hidle : t ≠ s.idleThread) (hheld : s.heldMask t = 0) : Admits s t atFront levels hs
      (Function.update levels (s.basePriority t)
        (if atFront then t :: levels (s.basePriority t) else levels (s.basePriority t) ++ [t])) hs
  | holder (hidle : t ≠ s.idleThread) (hheld : s.heldMask t ≠ 0) : Admits s t atFront levels hs levels (hs ++ [t])

omit [Fintype Tid] in
theorem Filed.admitThread {s : Sched Tid} {levels : Level → List Tid} {hs : List Tid} (hf : Filed s levels hs)
    {t : Tid} (hlevel : t ∉ levels (s.basePriority t)) (hholder : t ∉ hs) (atFront : Bool) :
    ∃ levels' hs', Admits s t atFront levels hs levels' hs' ∧ Filed (s.admitThread t atFront) levels' hs' := by
  have hf' : Filed (s.setState t .ready) levels hs := hf.transfer rfl rfl rfl rfl rfl rfl
  simp only [Sched.admitThread]
  split
  · next hidle => exact ⟨levels, hs, .idle hidle, hf'⟩
  · next hidle =>
    split
    · next hheld =>
      refine ⟨_, _, .matrix hidle (by simpa [holdsNothing, setState] using hheld), ?_⟩
      cases atFront with
      | false => exact hf'.enqueueThread hlevel hholder
      | true => exact hf'.enqueueThreadFront hlevel hholder
    · next hheld =>
      exact ⟨_, _, .holder hidle (by simpa [holdsNothing, setState] using hheld), hf'.linkHolder hlevel hholder⟩

/-- A thread of the matrix that has come to hold something moves to the holder list. -/
theorem Filed.reroute {s : Sched Tid} {levels : Level → List Tid} {hs : List Tid} (hf : Filed s levels hs) {t : Tid}
    (ht : t ∈ levels (s.basePriority t)) : ∃ ys zs, levels (s.basePriority t) = ys ++ t :: zs ∧ t ∉ ys ++ zs ∧
      Filed ((s.removeThread t).linkHolder t) (Function.update levels (s.basePriority t) (ys ++ zs)) (hs ++ [t]) ∧
      SameTcbs s ((s.removeThread t).linkHolder t) := by
  obtain ⟨ys, zs, hlevel, hf', hsame⟩ := hf.removeThread ht
  have hnd := (hf.level (s.basePriority t)).nodup
  rw [hlevel] at hnd
  have hout : t ∉ ys ++ zs := (List.nodup_cons.1 (List.nodup_middle.1 hnd)).1
  refine ⟨ys, zs, hlevel, hout, hf'.linkHolder ?_ (hf.apart _ t ht), hsame.trans (sameTcbs_linkHolder _ t)⟩
  rwa [hsame.basePriority, Function.update_self]

/-- **What a wake does under the critical section**: nothing for a thread that is done or filed where it belongs, a move
to the holder list for one that has come to hold something, and an admission for any other. -/
theorem Filed.makeReady {s : Sched Tid} {levels : Level → List Tid} {hs : List Tid} (hf : Filed s levels hs)
    (fold : Tid → ℕ) (t : Tid) :
    ((s.makeReady fold t).1 = s ∧ (s.state t = .terminated ∨ s.disposition t = .terminating ∨
        t ∈ levels (s.basePriority t) ∧ s.heldMask t = 0 ∨ t ∈ hs)) ∨
      ((s.makeReady fold t).1 = (s.removeThread t).linkHolder t ∧ t ∈ levels (s.basePriority t) ∧ s.heldMask t ≠ 0) ∨
      (s.makeReady fold t).1 = s.admitThread t false ∧ s.state t ≠ .terminated ∧ s.disposition t ≠ .terminating ∧
        t ∉ levels (s.basePriority t) ∧ t ∉ hs := by
  have henq := hf.isEnqueued_iff t
  have hlisted := hf.isListedHolder_iff t
  unfold Sched.makeReady
  split
  · next hdone => exact Or.inl ⟨rfl, hdone.imp_right Or.inl⟩
  · next hdone =>
    rw [not_or] at hdone
    split
    · next hfiled =>
      rw [Bool.or_eq_true, henq, hlisted] at hfiled
      split
      · next hmove =>
        rw [Bool.and_eq_true, henq] at hmove
        exact Or.inr (Or.inl ⟨rfl, hmove.1, by simpa [holdsNothing] using hmove.2⟩)
      · next hstay =>
        refine Or.inl ⟨rfl, Or.inr (Or.inr (hfiled.imp_left fun ht => ⟨ht, ?_⟩))⟩
        simpa [henq.2 ht, holdsNothing] using hstay
    · next hfiled =>
      rw [Bool.or_eq_true, henq, hlisted, not_or] at hfiled
      exact Or.inr (Or.inr ⟨rfl, hdone.1, hdone.2, hfiled⟩)

/-! ### Sets of filed threads -/

omit [DecidableEq Tid] [Fintype Tid] in
theorem FiledAs.transfer {s s' : Sched Tid} {R : Set Tid} (h : FiledAs s R)
    (hnext : s'.next = s.next) (hholderNext : s'.holderNext = s.holderNext)
    (hmatrix : s'.matrix = s.matrix) (hholders : s'.holders = s.holders)
    (hbitmap : s'.bitmap = s.bitmap) (hbase : s'.basePriority = s.basePriority) : FiledAs s' R := by
  obtain ⟨levels, hs, hf, hR⟩ := h
  exact ⟨levels, hs, hf.transfer hnext hholderNext hmatrix hholders hbitmap hbase, by rwa [hbase]⟩

omit [Fintype Tid] in
/-- **Admission files one thread more.** -/
theorem FiledAs.admitThread {s : Sched Tid} {R : Set Tid} (h : FiledAs s R) {t : Tid} (ht : t ∉ R)
    (hidle : t ≠ s.idleThread) (atFront : Bool) : FiledAs (s.admitThread t atFront) (insert t R) := by
  obtain ⟨levels, hs, hf, hR⟩ := h
  rw [hR, not_or] at ht
  obtain ⟨levels', hs', hadmits, hf'⟩ := hf.admitThread ht.1 ht.2 atFront
  refine ⟨levels', hs', hf', fun x => ?_⟩
  rw [(sameTcbs_admitThread s t atFront).basePriority, Set.mem_insert_iff, hR]
  show _ ↔ x ∈ levels' (s.basePriority x) ∨ _
  cases hadmits with
  | idle h => exact absurd h hidle
  | matrix _ _ =>
      rw [Function.update_apply]
      split
      · next hp => cases atFront <;> simp [hp] <;> tauto
      · next hp =>
        have hxt : x ≠ t := fun hx => hp (by rw [hx])
        simp [hxt]
  | holder _ _ =>
      rw [List.mem_append, List.mem_singleton]
      tauto

omit [Fintype Tid] in
theorem admitThread_idleThread (s : Sched Tid) (atFront : Bool) :
    s.admitThread s.idleThread atFront = s.setState s.idleThread .ready := by
  simp [Sched.admitThread, setState]

theorem FiledAs.reroute {s : Sched Tid} {R : Set Tid} (h : FiledAs s R) {t : Tid}
    (ht : s.isEnqueued t = true) :
    FiledAs ((s.removeThread t).linkHolder t) R ∧ SameTcbs s ((s.removeThread t).linkHolder t) := by
  obtain ⟨levels, hs, hf, hR⟩ := h
  obtain ⟨ys, zs, hlevel, -, hf', hsame⟩ := hf.reroute ((hf.isEnqueued_iff t).1 ht)
  refine ⟨⟨_, _, hf', fun x => ?_⟩, hsame⟩
  rw [hsame.basePriority, hR, List.mem_append, List.mem_singleton]
  by_cases hp : s.basePriority x = s.basePriority t
  · rw [hp, Function.update_self, hlevel]
    simp only [List.mem_append, List.mem_cons]
    tauto
  · have hxt : x ≠ t := fun hx => hp (by rw [hx])
    rw [Function.update_of_ne hp]
    simp [hxt]

/-- A wake leaves a thread that is done, moves one that is filed within the ready structure, and admits any other. -/
theorem FiledAs.makeReady {s : Sched Tid} {R : Set Tid} (h : FiledAs s R) (fold : Tid → ℕ) (t : Tid) :
    ((s.state t = .terminated ∨ s.disposition t = .terminating) ∧ (s.makeReady fold t).1 = s) ∨
      (t ∈ R ∧ FiledAs (s.makeReady fold t).1 R ∧ SameTcbs s (s.makeReady fold t).1) ∨
      (s.state t ≠ .terminated ∧ s.disposition t ≠ .terminating ∧ t ∉ R ∧
        (s.makeReady fold t).1 = s.admitThread t false) := by
  obtain ⟨levels, hs, hf, hR⟩ := id h
  rcases hf.makeReady fold t with ⟨heq, hdone | hdone | hfiled⟩ | ⟨heq, hmem, -⟩ | ⟨heq, hstate, hdisp, hnot⟩
  · exact Or.inl ⟨Or.inl hdone, heq⟩
  · exact Or.inl ⟨Or.inr hdone, heq⟩
  · rw [heq, hR]
    exact Or.inr (Or.inl ⟨hfiled.imp_left And.left, h, SameTcbs.refl s⟩)
  · rw [heq, hR]
    exact Or.inr (Or.inl ⟨Or.inl hmem, h.reroute ((hf.isEnqueued_iff t).2 hmem)⟩)
  · exact Or.inr (Or.inr ⟨hstate, hdisp, by rwa [hR, not_or], heq⟩)

/-! ### The pick -/

omit [DecidableEq Tid] [Fintype Tid] in
/-- The loop over the holders ends on a holder, or on none. -/
theorem bestHolder_mem (s : Sched Tid) (fold : Tid → ℕ) (hs : List Tid) {h : Tid}
    (hbest : (s.bestHolder fold hs).1 = some h) : h ∈ hs := by
  -- the accumulator is the start value or a holder met
  have hloop : ∀ (xs : List Tid) (best : Option Tid × ℕ),
      (xs.foldl (fun best h => if s.urgency fold h < best.2 then (some h, s.urgency fold h) else best)
        best).1 = some h → best.1 = some h ∨ h ∈ xs := by
    intro xs
    induction xs with
    | nil => exact fun best hb => Or.inl hb
    | cons x xs ih =>
        intro best hb
        rw [List.foldl_cons] at hb
        rcases ih _ hb with hb | hb
        · split at hb
          · right
            simp only [Option.some.injEq] at hb
            simp [hb]
          · exact Or.inl hb
        · exact Or.inr (List.mem_cons_of_mem x hb)
  exact (hloop hs _ hbest).resolve_left (by simp)

/-- What a pick does to the set of filed threads. -/
def PickSpec (s : Sched Tid) (R : Set Tid) (picked : Option Tid × Sched Tid) : Prop :=
  SameTcbs s picked.2 ∧ match picked.1 with
    | none => FiledAs picked.2 R
    | some t => t ∈ R ∧ FiledAs picked.2 (R \ {t})

omit [Fintype Tid] in
theorem FiledAs.popBestThread {s : Sched Tid} {R : Set Tid} (h : FiledAs s R) :
    PickSpec s R s.popBestThread := by
  obtain ⟨levels, hs, hf, hR⟩ := h
  obtain ⟨heq, -⟩ | ⟨p, t, ts, s', heq, hlevel, -, hf', hsame⟩ := hf.popBestThread
  · rw [heq]
    exact ⟨SameTcbs.refl s, levels, hs, hf, hR⟩
  · rw [heq]
    have hbase : s.basePriority t = p := hf.base p t (hlevel ▸ List.mem_cons_self)
    have hnd := List.nodup_cons.1 (hlevel ▸ (hf.level p).nodup)
    have hth : t ∉ hs := hf.apart p t (hlevel ▸ List.mem_cons_self)
    refine ⟨hsame, (hR t).2 (Or.inl ?_), _, hs, hf', fun x => ?_⟩
    · rw [hbase, hlevel]
      exact List.mem_cons_self
    · rw [hsame.basePriority, Set.mem_sdiff, Set.mem_singleton_iff, hR]
      by_cases hp : s.basePriority x = p
      · rw [hp, Function.update_self, hlevel, List.mem_cons]
        constructor
        · tauto
        · rintro (hx | hx)
          · exact ⟨Or.inl (Or.inr hx), ne_of_mem_of_not_mem hx hnd.1⟩
          · exact ⟨Or.inr hx, ne_of_mem_of_not_mem hx hth⟩
      · have hxt : x ≠ t := fun hx => hp (hx ▸ hbase)
        rw [Function.update_of_ne hp]
        simp [hxt]

theorem FiledAs.unlinkHolder {s : Sched Tid} {R : Set Tid} (h : FiledAs s R) {t : Tid}
    (ht : t ∈ walk s.holderNext (Fintype.card Tid) s.holders.head) :
    PickSpec s R (some t, s.unlinkHolder t) := by
  obtain ⟨levels, hs, hf, hR⟩ := h
  rw [hf.holders.seg.walk_eq hf.holders.nodup.length_le_card] at ht
  obtain ⟨ys, zs, rfl⟩ := List.append_of_mem ht
  obtain ⟨hf', hsame⟩ := hf.unlinkHolder
  have hnd := List.nodup_cons.1 (List.nodup_middle.1 hf.holders.nodup)
  refine ⟨hsame, (hR t).2 (Or.inr ht), levels, _, hf', fun x => ?_⟩
  rw [hsame.basePriority, Set.mem_sdiff, Set.mem_singleton_iff, hR]
  constructor
  · rintro ⟨hx | hx, hxt⟩
    · exact Or.inl hx
    · simp only [List.mem_append, List.mem_cons] at hx ⊢
      tauto
  · rintro (hx | hx)
    · exact ⟨Or.inl hx, fun hxt => hf.apart _ x hx (hxt ▸ ht)⟩
    · refine ⟨Or.inr ?_, ne_of_mem_of_not_mem hx hnd.1⟩
      simp only [List.mem_append, List.mem_cons] at hx ⊢
      tauto

/-- What the pick is: the best of the matrix or a holder, with the tie rotor turned or not. -/
theorem pickNext_cases (s : Sched Tid) (fold : Tid → ℕ) : ∃ rotor,
    s.pickNext fold = { s with tieRotor := rotor }.popBestThread ∨
      ∃ h ∈ walk s.holderNext (Fintype.card Tid) s.holders.head,
        s.pickNext fold = (some h, { s with tieRotor := rotor }.unlinkHolder h) := by
  unfold Sched.pickNext
  split
  · exact ⟨s.tieRotor, Or.inl rfl⟩
  · unfold Sched.pickWithHolders
    split
    · exact ⟨s.tieRotor, Or.inl rfl⟩
    · next hd u hbest =>
      have hmem := s.bestHolder_mem fold _ (h := hd) (by rw [hbest])
      split
      · exact ⟨s.tieRotor, Or.inr ⟨hd, hmem, rfl⟩⟩
      · split
        · exact ⟨s.tieRotor, Or.inl rfl⟩
        · split
          · dsimp only
            split
            · exact ⟨_, Or.inl rfl⟩
            · exact ⟨_, Or.inr ⟨hd, hmem, rfl⟩⟩
          · exact ⟨s.tieRotor, Or.inr ⟨hd, hmem, rfl⟩⟩

/-- **The pick** takes one of the filed threads out of the ready structure. -/
theorem FiledAs.pickNext {s : Sched Tid} {R : Set Tid} (h : FiledAs s R) (fold : Tid → ℕ) :
    PickSpec s R (s.pickNext fold) := by
  obtain ⟨rotor, hpick⟩ := s.pickNext_cases fold
  -- the tie rotor is no part of what is filed
  have h' : FiledAs { s with tieRotor := rotor } R := h.transfer rfl rfl rfl rfl rfl rfl
  have hsame : SameTcbs s { s with tieRotor := rotor } := ⟨rfl, rfl, rfl, rfl, rfl, rfl, rfl, rfl, rfl⟩
  obtain heq | ⟨hd, hmem, heq⟩ := hpick
  · rw [heq]
    exact ⟨hsame.trans h'.popBestThread.1, h'.popBestThread.2⟩
  · rw [heq]
    exact ⟨hsame.trans (h'.unlinkHolder hmem).1, (h'.unlinkHolder hmem).2⟩

end Cyros.Kernel.Sched
