import Mathlib.Order.Bounds.Defs
import Cyros.Lib.Reach
import Cyros.Kernel.QueueTop

/-!
# The urgency of a thread

`urgency` is folded from the words of the mutexes when it is asked for: the least of the thread's base priority
and of what each mutex in its slots contributes, which is its ceiling and the best of its queue.  A waiter that
holds a mutex itself is a bridge, and its own urgency is folded in turn, with one less of the depth that is left.
Where the fold gives up (no depth is left, or a queue has more than four bridges) it answers 0.

* `worth` is what the fold stands for: the base priorities of all who wait behind the thread, directly or not,
  and the ceilings of the mutexes that they hold.
* `urgency_fold`: where no step on a mutex is in progress, the fold is never less urgent than the best of
  these, and equal to it where no walk of waiters is longer than the depth and no queue has too many bridges.
-/

namespace Cyros.Kernel.Mutexes

open Cyros.Lib

variable {n : ℕ} {T : Fin n → Type} {M Q : Type}

/-! ### The fold -/

section Fold

variable [∀ c, DecidableEq (T c)]

/-- `max_inheritance_depth` -/
def maxInheritanceDepth : ℕ := 8

/-- `max_snapshot`, the bridges of one queue that are followed. -/
def maxSnapshot : ℕ := 4

variable (S : Mutexes T M Q) (ceiling : M → Option ℕ)

/-- The waiters of a mutex that hold one themselves, its owner left out. -/
def bridges (m : M) : List (Σ c, T c) :=
  ((S.nodes m).map Prod.fst).filter fun u => S.mask u ≠ 0 ∧ S.owner m ≠ some u

/-- `wait_queue::top`, with the urgency of the bridges where some depth is left. -/
def top (deeper : Option ((Σ c, T c) → ℕ)) (m : M) : ℕ :=
  if S.mayHaveBridges m = false then S.topPriority m
  else match deeper with
    | none => 0
    | some urgencyOf =>
        if maxSnapshot < (S.bridges m).length then 0
        else (S.bridges m).foldl (fun best u => min best (urgencyOf u)) (S.topPriority m)

/-- `urgency_contribution`; `ceiling` is `none` where the mutex uses no ceiling. -/
def urgencyContribution (deeper : Option ((Σ c, T c) → ℕ)) (m : M) : ℕ :=
  match ceiling m with
  | some priority => min priority (S.top deeper m)
  | none => S.top deeper m

/-- The mutexes in the slots whose bits are set, lowest bit first. -/
def heldList (t : Σ c, T c) : List M :=
  (List.finRange 4).filterMap fun i => if S.bit t i then S.heldSlots t i else none

/-- `donated_floor` -/
def donatedFloor (deeper : Option ((Σ c, T c) → ℕ)) (t : Σ c, T c) : ℕ :=
  (S.heldList t).foldl (fun floor m => min floor (S.urgencyContribution ceiling deeper m))
    (S.waits.basePriority t)

/-- `urgency_at` -/
def urgencyAt : ℕ → (Σ c, T c) → ℕ
  | 0 => S.donatedFloor ceiling none
  | depth + 1 => S.donatedFloor ceiling (some (urgencyAt depth))

def urgency (t : Σ c, T c) : ℕ :=
  if S.mask t = 0 then S.waits.basePriority t else S.urgencyAt ceiling maxInheritanceDepth t

end Fold

/-! ### What it stands for -/

/-- `u` waits for a mutex that `t` holds. -/
def Behind (S : Mutexes T M Q) (u t : Σ c, T c) : Prop :=
  ∃ m, S.owner m = some t ∧ (u, false) ∈ S.nodes m ∧ u ≠ t

/-- The base priorities of the thread and of all who wait behind it, directly or not, and the ceilings of the
mutexes that any of them holds. -/
def worth (S : Mutexes T M Q) (ceiling : M → Option ℕ) (t : Σ c, T c) : Set ℕ :=
  {p | ∃ u, Relation.ReflTransGen S.Behind u t ∧
    (p = S.waits.basePriority u ∨ ∃ m, S.owner m = some u ∧ ceiling m = some p)}

variable {S : Mutexes T M Q} {ceiling : M → Option ℕ} {m : M} {t u : Σ c, T c}

theorem base_mem_worth : S.waits.basePriority t ∈ S.worth ceiling t := ⟨t, .refl, Or.inl rfl⟩

theorem worth_of_behind (h : S.Behind u t) {p : ℕ} (hp : p ∈ S.worth ceiling u) : p ∈ S.worth ceiling t := by
  obtain ⟨v, hv, hp⟩ := hp
  exact ⟨v, hv.tail h, hp⟩

/-! ### States in which nobody works on a mutex -/

/-- No step on any mutex is in progress, and the words and caches are as every run leaves them. -/
structure Resting (S : Mutexes T M Q) : Prop where
  inv : Inv S
  cached : Cached S
  settled : ∀ m, S.Settled m

namespace Resting

theorem filed (h : Resting S) (ho : S.owner m = some t) : ∃ i, S.Filed m t i := by
  rcases (h.inv.recorded m).idle (h.settled m) with ⟨hfree, -⟩ | ⟨u, i, hu, hf⟩
  · rw [ho] at hfree
    cases hfree
  · obtain rfl : t = u := Option.some.inj (ho.symm.trans hu)
    exact ⟨i, hf⟩

theorem owner_of_slot (h : Resting S) {i : Fin 4} (hslot : S.heldSlots t i = some m) :
    S.owner m = some t := by
  rcases (h.inv.recorded m).idle (h.settled m) with ⟨-, hclean⟩ | ⟨u, j, hu, hf⟩
  · exact absurd hslot (hclean.2 t i)
  · obtain ⟨rfl, -⟩ := (hf.2.1 t i).1 hslot
    exact hu

/-- The fold goes through the mutexes that the thread owns. -/
theorem mem_heldList (h : Resting S) : m ∈ S.heldList t ↔ S.owner m = some t := by
  unfold heldList
  rw [List.mem_filterMap]
  constructor
  · rintro ⟨i, -, hi⟩
    split at hi
    · exact h.owner_of_slot hi
    · cases hi
  · intro ho
    obtain ⟨i, -, hslotted, hbit⟩ := h.filed ho
    exact ⟨i, List.mem_finRange i, by rw [if_pos hbit]; exact (hslotted t i).2 ⟨rfl, rfl⟩⟩

theorem mask_of_owner (h : Resting S) (ho : S.owner m = some t) : S.mask t ≠ 0 := by
  intro hzero
  obtain ⟨i, -, -, hbit⟩ := h.filed ho
  simp [Mutexes.bit, hzero] at hbit

/-- Nobody waits behind a thread that holds nothing. -/
theorem eq_of_mask (h : Resting S) (hmask : S.mask t = 0) (hu : Relation.ReflTransGen S.Behind u t) : u = t := by
  rcases Relation.ReflTransGen.cases_tail hu with rfl | ⟨v, -, m, ho, -⟩
  · rfl
  · exact absurd hmask (h.mask_of_owner ho)

/-- A thread is queued for one mutex at most. -/
theorem queued_unique (h : Resting S) {m' : M} (hm : (u, false) ∈ S.nodes m) (hm' : (u, false) ∈ S.nodes m') :
    m' = m := by
  have hsource := (h.inv.queued hm').1
  rw [(h.inv.queued hm).1] at hsource
  cases hsource
  rfl

theorem top_le (h : Resting S) (hu : (u, false) ∈ S.nodes m) : S.topPriority m ≤ S.waits.basePriority u := by
  rw [h.cached.top]
  exact headPriority_le (h.cached.ordered m) hu

/-- The cached top is the base priority of a waiter. -/
theorem top_cases (h : Resting S) (m : M) : S.topPriority m = noWaiter ∨
    ∃ u, (u, false) ∈ S.nodes m ∧ S.topPriority m = S.waits.basePriority u := by
  rw [h.cached.top]
  cases hq : S.nodes m with
  | nil => exact Or.inl rfl
  | cons first rest =>
      have hslot : first.2 = false := (h.inv.queued (m := m) (x := first) (by
        show first ∈ S.nodes m
        rw [hq]
        exact List.mem_cons_self)).2
      refine Or.inr ⟨first.1, ?_, rfl⟩
      rw [← hslot]
      exact List.mem_cons_self

end Resting

/-! ### Never too low -/

section Bounds

variable [∀ c, DecidableEq (T c)]

theorem mem_bridges (hmem : (u, false) ∈ S.nodes m) (hmask : S.mask u ≠ 0) (ho : S.owner m ≠ some u) :
    u ∈ S.bridges m := by
  unfold bridges
  rw [List.mem_filter]
  exact ⟨List.mem_map.2 ⟨_, hmem, rfl⟩, by simpa using ⟨hmask, ho⟩⟩

theorem donatedFloor_le_base (deeper : Option ((Σ c, T c) → ℕ)) :
    S.donatedFloor ceiling deeper t ≤ S.waits.basePriority t := foldl_min_le _ _ _

theorem Resting.donatedFloor_le (h : Resting S) (deeper : Option ((Σ c, T c) → ℕ)) (ho : S.owner m = some t) :
    S.donatedFloor ceiling deeper t ≤ S.urgencyContribution ceiling deeper m :=
  foldl_min_le_of_mem _ _ (h.mem_heldList.2 ho)

theorem urgencyContribution_le_top (deeper : Option ((Σ c, T c) → ℕ)) :
    S.urgencyContribution ceiling deeper m ≤ S.top deeper m := by
  unfold urgencyContribution
  split
  · exact min_le_right _ _
  · exact le_refl _

theorem urgencyContribution_le_ceiling (deeper : Option ((Σ c, T c) → ℕ)) {p : ℕ} (hp : ceiling m = some p) :
    S.urgencyContribution ceiling deeper m ≤ p := by
  rw [urgencyContribution, hp]
  exact min_le_left _ _

/-- A waiter that holds nothing counts with its base priority. -/
theorem Resting.top_le_base (h : Resting S) (deeper : Option ((Σ c, T c) → ℕ)) (hu : (u, false) ∈ S.nodes m) :
    S.top deeper m ≤ S.waits.basePriority u := by
  unfold Mutexes.top
  split
  · exact h.top_le hu
  · split
    · exact Nat.zero_le _
    · split
      · exact Nat.zero_le _
      · exact (foldl_min_le _ _ _).trans (h.top_le hu)

/-- A bridge counts with its urgency. -/
theorem Resting.top_le_urgency (h : Resting S) (deeper : (Σ c, T c) → ℕ) (hu : (u, false) ∈ S.nodes m)
    (hmask : S.mask u ≠ 0) (ho : S.owner m ≠ some u) : S.top (some deeper) m ≤ deeper u := by
  unfold Mutexes.top
  split
  · next hhint => exact absurd (h.cached.bridges m u hhint hu hmask) ho
  · dsimp only
    split
    · exact Nat.zero_le _
    · exact foldl_min_le_of_mem _ _ (mem_bridges hu hmask ho)

/-- Without depth a queue with a bridge counts as most urgent. -/
theorem Resting.top_none (h : Resting S) (hu : (u, false) ∈ S.nodes m) (hmask : S.mask u ≠ 0)
    (ho : S.owner m ≠ some u) : S.top none m = 0 := by
  unfold Mutexes.top
  split
  · next hhint => exact absurd (h.cached.bridges m u hhint hu hmask) ho
  · rfl

theorem urgencyAt_eq (S : Mutexes T M Q) (ceiling : M → Option ℕ) (depth : ℕ) :
    ∃ deeper, S.urgencyAt ceiling depth = S.donatedFloor ceiling deeper := by
  cases depth with
  | zero => exact ⟨none, rfl⟩
  | succ depth => exact ⟨some _, rfl⟩

/-- **Never less urgent than anybody behind it**, whatever depth is left. -/
theorem Resting.urgencyAt_le (h : Resting S) {p : ℕ} (hbehind : Relation.ReflTransGen S.Behind u t)
    (hp : p = S.waits.basePriority u ∨ ∃ m, S.owner m = some u ∧ ceiling m = some p) (depth : ℕ) :
    S.urgencyAt ceiling depth t ≤ p := by
  induction hbehind generalizing depth with
  | refl =>
      obtain ⟨deeper, heq⟩ := urgencyAt_eq S ceiling depth
      rw [heq]
      rcases hp with rfl | ⟨m, ho, hc⟩
      · exact donatedFloor_le_base deeper
      · exact (h.donatedFloor_le deeper ho).trans (urgencyContribution_le_ceiling deeper hc)
  | tail hbehind hstep ih =>
      rename_i v w
      obtain ⟨m, ho, hmem, hne⟩ := hstep
      have hnot : S.owner m ≠ some v := fun he => hne (Option.some.inj (he.symm.trans ho))
      by_cases hmask : S.mask v = 0
      · -- the walk ends at a waiter without a mutex
        obtain rfl := h.eq_of_mask hmask hbehind
        rcases hp with rfl | ⟨m', ho', -⟩
        · obtain ⟨deeper, heq⟩ := urgencyAt_eq S ceiling depth
          rw [heq]
          exact ((h.donatedFloor_le deeper ho).trans (urgencyContribution_le_top deeper)).trans
            (h.top_le_base deeper hmem)
        · exact absurd hmask (h.mask_of_owner ho')
      · cases depth with
        | zero =>
            have hle : S.donatedFloor ceiling none w ≤ S.top none m :=
              (h.donatedFloor_le none ho).trans (urgencyContribution_le_top none)
            rw [h.top_none hmem hmask hnot] at hle
            exact hle.trans (Nat.zero_le p)
        | succ depth =>
            exact ((h.donatedFloor_le _ ho).trans (urgencyContribution_le_top _)).trans
              ((h.top_le_urgency _ hmem hmask hnot).trans (ih depth))

/-! ### Exact within its limits -/

/-- The queues behind a thread have no more bridges than are followed. -/
def FewBridges (S : Mutexes T M Q) (t : Σ c, T c) : Prop :=
  ∀ u m, Relation.ReflTransGen S.Behind u t → S.owner m = some u → (S.bridges m).length ≤ maxSnapshot

omit [∀ c, DecidableEq (T c)] in
theorem base_lt_noWaiter : S.waits.basePriority t < noWaiter :=
  ((S.waits.cores t.1).sched.basePriority t.2).isLt.trans (by decide)

theorem Resting.donatedFloor_cases (h : Resting S) (ceiling : M → Option ℕ) (t : Σ c, T c)
    (deeper : Option ((Σ c, T c) → ℕ)) :
    S.donatedFloor ceiling deeper t = S.waits.basePriority t ∨
      ∃ m, S.owner m = some t ∧ (ceiling m = some (S.donatedFloor ceiling deeper t) ∨
        S.donatedFloor ceiling deeper t = S.top deeper m) := by
  rcases foldl_min_cases (S.urgencyContribution ceiling deeper) (S.heldList t) (S.waits.basePriority t) with
    hbase | ⟨m, hm, heq⟩
  · exact Or.inl hbase
  · refine Or.inr ⟨m, h.mem_heldList.1 hm, ?_⟩
    rw [show S.donatedFloor ceiling deeper t = S.urgencyContribution ceiling deeper m from heq,
      urgencyContribution]
    cases hc : ceiling m with
    | none => exact Or.inr rfl
    | some p => exact (min_choice p (S.top deeper m)).imp (congrArg some ·.symm) id

/-- The cached top of a mutex that the thread owns is of the worth of the thread. -/
theorem Resting.top_mem_worth (h : Resting S) (ho : S.owner m = some t) (hlt : S.topPriority m < noWaiter) :
    S.topPriority m ∈ S.worth ceiling t := by
  rcases h.top_cases m with hnone | ⟨v, hv, heq⟩
  · omega
  · rw [heq]
    by_cases hvt : v = t
    · rw [hvt]
      exact base_mem_worth
    · exact worth_of_behind ⟨m, ho, hv, hvt⟩ base_mem_worth

theorem of_mem_bridges (hu : u ∈ S.bridges m) :
    (∃ slot, (u, slot) ∈ S.nodes m) ∧ S.mask u ≠ 0 ∧ S.owner m ≠ some u := by
  unfold bridges at hu
  rw [List.mem_filter, List.mem_map] at hu
  obtain ⟨⟨x, hx, rfl⟩, hcond⟩ := hu
  exact ⟨⟨x.2, hx⟩, by simpa using hcond⟩

/-- **The fold is the worth of somebody behind the thread**, where the depth that is left suffices. -/
theorem Resting.urgencyAt_mem (h : Resting S) (depth : ℕ) (hwalk : ∀ u, ¬ Chain S.Behind (depth + 1) u t)
    (hfew : S.FewBridges t) (hself : depth = 0 → ∀ m, S.owner m = some t → (t, false) ∉ S.nodes m) :
    S.urgencyAt ceiling depth t ∈ S.worth ceiling t := by
  induction depth generalizing t with
  | zero =>
      rcases h.donatedFloor_cases ceiling t none with hbase | ⟨m, ho, hceil | htop⟩
      · rw [urgencyAt, hbase]
        exact base_mem_worth
      · exact ⟨t, .refl, Or.inr ⟨m, ho, hceil⟩⟩
      · -- the queue is empty: nobody is behind the thread, and it is not queued itself
        exfalso
        have hempty : S.nodes m = [] := by
          rw [List.eq_nil_iff_forall_not_mem]
          rintro ⟨v, slot⟩ hv
          obtain rfl : slot = false := (h.inv.queued hv).2
          by_cases hvt : v = t
          · exact hself rfl m ho (hvt ▸ hv)
          · exact hwalk v ⟨v, rfl, m, ho, hv, hvt⟩
        have hbase : S.donatedFloor ceiling none t ≤ S.waits.basePriority t := donatedFloor_le_base none
        have hlow : S.top none m < noWaiter := htop ▸ hbase.trans_lt base_lt_noWaiter
        rw [Mutexes.top, if_pos (h.cached.empty m hempty), h.cached.top, hempty] at hlow
        exact lt_irrefl _ hlow
  | succ depth ih =>
      have hbound : S.urgencyAt ceiling (depth + 1) t < noWaiter :=
        (donatedFloor_le_base (some (S.urgencyAt ceiling depth))).trans_lt base_lt_noWaiter
      rcases h.donatedFloor_cases ceiling t (some (S.urgencyAt ceiling depth)) with
        hbase | ⟨m, ho, hceil | htop⟩
      · rw [urgencyAt, hbase]
        exact base_mem_worth
      · exact ⟨t, .refl, Or.inr ⟨m, ho, hceil⟩⟩
      · rw [urgencyAt, htop] at hbound ⊢
        unfold Mutexes.top at hbound ⊢
        split
        · next hhint =>
          rw [if_pos hhint] at hbound
          exact h.top_mem_worth ho hbound
        · next hhint =>
          have hsnapshot : ¬ maxSnapshot < (S.bridges m).length := Nat.not_lt.2 (hfew t m .refl ho)
          rw [if_neg hhint] at hbound
          dsimp only at hbound ⊢
          rw [if_neg hsnapshot] at hbound ⊢
          rcases foldl_min_cases (S.urgencyAt ceiling depth) (S.bridges m) (S.topPriority m) with
            heq | ⟨u, hu, heq⟩
          · rw [heq] at hbound ⊢
            exact h.top_mem_worth ho hbound
          · rw [heq]
            obtain ⟨⟨slot, hmem⟩, -, hnot⟩ := of_mem_bridges hu
            obtain rfl : slot = false := (h.inv.queued hmem).2
            have hbehind : S.Behind u t := ⟨m, ho, hmem, fun he => hnot (he ▸ ho)⟩
            refine worth_of_behind hbehind (ih (fun v hv => hwalk v ⟨u, hv, hbehind⟩) ?_ ?_)
            · exact fun v m' hv hm' => hfew v m' (hv.tail hbehind) hm'
            · -- a bridge is queued here, and for no mutex of its own
              intro _ m' ho' hm'
              rw [h.queued_unique hmem hm'] at ho'
              exact hnot ho'

theorem Resting.urgency_le (h : Resting S) {p : ℕ} (hp : p ∈ S.worth ceiling t) : S.urgency ceiling t ≤ p := by
  obtain ⟨u, hbehind, hp⟩ := hp
  unfold urgency
  split
  · next hmask =>
    obtain rfl := h.eq_of_mask hmask hbehind
    rcases hp with rfl | ⟨m, ho, -⟩
    · exact le_refl _
    · exact absurd hmask (h.mask_of_owner ho)
  · exact h.urgencyAt_le hbehind hp _

theorem Resting.urgency_isLeast (h : Resting S)
    (hwalk : ∀ u, ¬ Chain S.Behind (maxInheritanceDepth + 1) u t) (hfew : S.FewBridges t) :
    IsLeast (S.worth ceiling t) (S.urgency ceiling t) := by
  refine ⟨?_, fun p hp => h.urgency_le hp⟩
  unfold urgency
  split
  · exact base_mem_worth
  · exact h.urgencyAt_mem maxInheritanceDepth hwalk hfew nofun

end Bounds

variable [∀ c, DecidableEq (T c)] [DecidableEq M] [DecidableEq Q] [∀ c, Fintype (T c)]

theorem resting_of_run {idle : ∀ c, T c} {basePriority : ∀ c, T c → Level} {threads : ∀ c, List (T c)}
    {acts : List (MutexAct T M Q)} (hrun : run next (boot idle basePriority threads) acts = some S)
    (hsettled : ∀ m, S.Settled m) : Resting S := by
  obtain ⟨hi, hc⟩ := run_invariant (I := fun S => Inv S ∧ Cached S)
    (fun _ _ _ hi h => ⟨hi.1.next h, hi.2.next hi.1 h⟩)
    ⟨inv_boot idle basePriority threads, cached_boot idle basePriority threads⟩ hrun
  exact ⟨hi, hc, hsettled⟩

/-- **The fold is right.**  In every state of every run in which no step on a mutex is in progress:
a thread's urgency is never less urgent than its worth, the best of all who wait behind it and of the ceilings
they hold;
it is that best where no walk of waiters behind it is longer than the depth, so that no cycle leads to it,
and no queue behind it has more bridges than are followed;
the cached top of a queue is the best base priority in it;
and without the hint no waiter but the owner holds a mutex. -/
theorem urgency_fold (ceiling : M → Option ℕ) (idle : ∀ c, T c) (basePriority : ∀ c, T c → Level)
    (threads : ∀ c, List (T c)) (acts : List (MutexAct T M Q))
    (hrun : run next (boot idle basePriority threads) acts = some S) (hsettled : ∀ m, S.Settled m) :
    (∀ t, ∀ p ∈ S.worth ceiling t, S.urgency ceiling t ≤ p) ∧
      (∀ t, (∀ u, ¬ Chain S.Behind (maxInheritanceDepth + 1) u t) → S.FewBridges t →
        IsLeast (S.worth ceiling t) (S.urgency ceiling t)) ∧
      (∀ m, (S.nodes m = [] → S.topPriority m = noWaiter) ∧ (S.nodes m ≠ [] →
        IsLeast {p | ∃ u, (u, false) ∈ S.nodes m ∧ p = S.waits.basePriority u} (S.topPriority m))) ∧
      ∀ m, S.mayHaveBridges m = false → ∀ u, (u, false) ∈ S.nodes m → S.owner m ≠ some u →
        ∀ m', S.owner m' ≠ some u := by
  have h := resting_of_run hrun hsettled
  refine ⟨fun t p hp => h.urgency_le hp, fun t hwalk hfew => h.urgency_isLeast hwalk hfew,
    fun m => ⟨fun hempty => ?_, fun hne => ⟨?_, ?_⟩⟩, fun m hhint u hmem ho m' ho' => ?_⟩
  · rw [h.cached.top, hempty, headPriority]
  · rcases h.top_cases m with hnone | hsome
    · obtain ⟨x, hx⟩ := List.exists_mem_of_ne_nil _ hne
      obtain ⟨v, slot⟩ := x
      obtain rfl : slot = false := (h.inv.queued hx).2
      have hlt := (h.top_le hx).trans_lt base_lt_noWaiter
      exact absurd hnone hlt.ne
    · exact hsome
  · rintro p ⟨u, hu, rfl⟩
    exact h.top_le hu
  · exact ho (h.cached.bridges m u hhint hmem (h.mask_of_owner ho'))

/-- The thread of each of three cores. -/
def link (c : Fin 3) : Σ _ : Fin 3, Fin 2 := ⟨c, 1⟩

/-- A thread locks a free mutex. -/
def takes (c : Fin 3) (m : Bool) : List (MutexAct (fun _ : Fin 3 => Fin 2) Bool Empty) :=
  [.lock (link c) m, .attempt (link c)] ++ List.replicate 4 (.register (link c))

/-- A thread parks on a mutex that is held. -/
def parksOn (c : Fin 3) (m : Bool) : List (MutexAct (fun _ : Fin 3 => Fin 2) Bool Empty) :=
  [.lock (link c) m, .attempt (link c), .loop (link c), .arm (link c), .poll (link c),
    .waits (.pass (link c) (.commit fun _ => 0))]

/-- A chain of three: the thread of core 2 waits behind that of core 1, which waits behind that of core 0. -/
def chained : List (MutexAct (fun _ : Fin 3 => Fin 2) Bool Empty) :=
  takes 0 false ++ takes 1 true ++ parksOn 1 false ++ parksOn 2 true

/-- The first thread of the chain is as urgent as the last. -/
theorem urgency_fold_chained :
    ∃ S : Mutexes (fun _ : Fin 3 => Fin 2) Bool Empty,
      run next (boot (fun _ => 0) (fun c t => if t = 0 then 31 else if c = 0 then 9 else if c = 1 then 7 else 3)
        (fun _ => [1])) chained = some S ∧
      IsLeast (S.worth (fun _ => none) (link 0)) (S.urgency (fun _ => none) (link 0)) ∧
      S.urgency (fun _ => none) (link 0) = 3 := by
  have hsome : (run next (boot (fun _ => 0)
      (fun c t => if t = 0 then 31 else if c = 0 then 9 else if c = 1 then 7 else 3) (fun _ => [1])) chained).map
      (fun S => (decide (∀ m c t, (S.stage ⟨c, t⟩).works ≠ some m), S.urgency (fun _ => none) (link 0),
        [S.owner false, S.owner true], [S.nodes false, S.nodes true])) =
      some (true, 3, [some (link 0), some (link 1)], [[(link 1, false)], [(link 2, false)]]) := rfl
  obtain ⟨S, hrun, hview⟩ := Option.map_eq_some_iff.mp hsome
  simp only [Prod.mk.injEq, List.cons.injEq, and_true] at hview
  obtain ⟨hworks, hurgency, ⟨hf, ht⟩, hnf, hnt⟩ := hview
  have hsettled : ∀ m, S.Settled m := fun m t => of_decide_eq_true hworks m t.1 t.2
  -- a waiter is one core further on than the thread it waits for
  have hrank : ∀ u t, S.Behind u t → u.1.val = t.1.val + 1 := by
    rintro u t ⟨m, ho, hmem, -⟩
    cases m with
    | false =>
        rw [hf] at ho
        rw [hnf] at hmem
        cases ho
        cases List.mem_singleton.1 hmem
        rfl
    | true =>
        rw [ht] at ho
        rw [hnt] at hmem
        cases ho
        cases List.mem_singleton.1 hmem
        rfl
  have hchain : ∀ k u t, Chain S.Behind k u t → u.1.val = t.1.val + k := by
    intro k
    induction k with
    | zero =>
        rintro u t rfl
        rfl
    | succ k ih =>
        rintro u t ⟨v, hv, hstep⟩
        have := ih u v hv
        have := hrank v t hstep
        omega
  have hleast := (urgency_fold (fun _ => none) _ _ _ _ hrun hsettled).2.1 (link 0)
    (fun u hu => by
      have := hchain _ u _ hu
      have := u.1.isLt
      simp only [maxInheritanceDepth] at *
      omega)
    (fun u m _ _ => by
      unfold bridges
      refine (List.length_filter_le _ _).trans ?_
      cases m
      · rw [hnf]
        decide
      · rw [hnt]
        decide)
  exact ⟨S, hrun, hleast, hurgency⟩

end Cyros.Kernel.Mutexes
