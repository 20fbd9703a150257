import Cyros.Kernel.Ownership

/-!
# The cached top of a mutex's queue

The queue of a mutex is kept in the order of base priorities, and whoever changes it writes its cache under the
same lock: the base priority of its head, and a hint that some waiter may hold a mutex itself.  The hint is set
when such a waiter arms and cleared when the queue runs empty.  A waiter that holds nothing when it arms gets
one mutex while it is queued, the one it waits for, and is its owner from then on (`Cached.bridges`).

* `Underneath` says what a step of the mutexes does to the waits, the masks and the caches.
* `Cached.next`: every step keeps the caches exact.
-/

namespace Cyros.Kernel

open Cyros.Lib

/-! ### Queues in order -/

namespace Waits

variable {n : ℕ} {T : Fin n → Type}

/-- A queue in the order of the priorities. -/
def Ordered (priority : (Σ c, T c) → ℕ) (nodes : List ((Σ c, T c) × Bool)) : Prop :=
  nodes.Pairwise fun x y => priority x.1 ≤ priority y.1

theorem Ordered.link {priority : (Σ c, T c) → ℕ} {nodes : List ((Σ c, T c) × Bool)}
    (h : Ordered priority nodes) (node : (Σ c, T c) × Bool) : Ordered priority (link priority node nodes) := by
  induction nodes with
  | nil => exact List.pairwise_singleton _ _
  | cons first rest ih =>
      obtain ⟨hfirst, hrest⟩ := List.pairwise_cons.1 h
      unfold Waits.link
      split
      · next hlt =>
        refine List.pairwise_cons.2 ⟨fun x hx => ?_, h⟩
        rcases List.mem_cons.1 hx with rfl | hx
        · exact hlt.le
        · exact hlt.le.trans (hfirst x hx)
      · next hge =>
        refine List.pairwise_cons.2 ⟨fun x hx => ?_, ih hrest⟩
        rcases mem_link.1 hx with rfl | hx
        · exact Nat.le_of_not_lt hge
        · exact hfirst x hx

end Waits

namespace Mutexes

variable {n : ℕ} {T : Fin n → Type} {M Q : Type}
variable {S S' : Mutexes T M Q} {m : M} {t : Σ c, T c}

/-- What `refresh_top` writes for a queue. -/
def headPriority (priority : (Σ c, T c) → ℕ) : List ((Σ c, T c) × Bool) → ℕ
  | [] => noWaiter
  | first :: _ => priority first.1

theorem headPriority_le {priority : (Σ c, T c) → ℕ} {nodes : List ((Σ c, T c) × Bool)}
    (h : Waits.Ordered priority nodes) {x : (Σ c, T c) × Bool} (hx : x ∈ nodes) :
    headPriority priority nodes ≤ priority x.1 := by
  cases nodes with
  | nil => cases hx
  | cons first rest =>
      rcases List.mem_cons.1 hx with rfl | hx
      · exact Nat.le_refl _
      · exact (List.pairwise_cons.1 h).1 x hx

/-- The queue of a mutex. -/
def nodes (S : Mutexes T M Q) (m : M) : List ((Σ c, T c) × Bool) := S.waits.queue (.mutex m)

/-- The caches of the queues. -/
structure Cached (S : Mutexes T M Q) : Prop where
  ordered : ∀ m, Waits.Ordered S.waits.basePriority (S.nodes m)
  top : ∀ m, S.topPriority m = headPriority S.waits.basePriority (S.nodes m)
  empty : ∀ m, S.nodes m = [] → S.mayHaveBridges m = false
  bridges : ∀ m u, S.mayHaveBridges m = false → (u, false) ∈ S.nodes m → S.mask u ≠ 0 → S.owner m = some u

section Refresh

variable [DecidableEq M]

theorem refreshTop_topPriority (S : Mutexes T M Q) (m : M) : (S.refreshTop m).topPriority =
    Function.update S.topPriority m (headPriority S.waits.basePriority (S.nodes m)) := by
  unfold refreshTop nodes
  split
  · next hq => rw [hq, headPriority]
  · next hq => rw [hq, headPriority]

theorem refreshTop_mayHaveBridges (S : Mutexes T M Q) (m : M) : (S.refreshTop m).mayHaveBridges =
    Function.update S.mayHaveBridges m (S.mayHaveBridges m && !(S.nodes m).isEmpty) := by
  unfold refreshTop nodes
  split
  · next hq => simp [hq]
  · next hq => simp [hq]

theorem refreshTop_waits (S : Mutexes T M Q) (m : M) : (S.refreshTop m).waits = S.waits := by
  obtain ⟨top, bridges, heq⟩ := refreshTop_eq S m
  rw [heq]

end Refresh

variable [∀ c, DecidableEq (T c)] [DecidableEq M] [DecidableEq Q] [∀ c, Fintype (T c)]

/-! ### What a step does underneath -/

/-- The caches of the queue of `m` are those of the queue `nodes`, with the hint as it is given. -/
structure Refreshed (S S' : Mutexes T M Q) (m : M) (nodes : List ((Σ c, T c) × Bool)) (hint : Bool) : Prop where
  queue : S'.waits.queue = Function.update S.waits.queue (.mutex m) nodes
  top : S'.topPriority = Function.update S.topPriority m (headPriority S.waits.basePriority nodes)
  hint : S'.mayHaveBridges = Function.update S.mayHaveBridges m (hint && !nodes.isEmpty)

omit [∀ c, DecidableEq (T c)] [∀ c, Fintype (T c)] in
theorem Refreshed.of_refreshTop (S' : Mutexes T M Q) {nodes : List ((Σ c, T c) × Bool)} {hint : Bool}
    (hqueue : S'.waits.queue = Function.update S.waits.queue (.mutex m) nodes)
    (hbase : S'.waits.basePriority = S.waits.basePriority) (htop : S'.topPriority = S.topPriority)
    (hhint : S'.mayHaveBridges = Function.update S.mayHaveBridges m hint) :
    Refreshed S (S'.refreshTop m) m nodes hint := by
  have hnodes : S'.nodes m = nodes := by rw [Mutexes.nodes, hqueue, Function.update_self]
  refine ⟨?_, ?_, ?_⟩
  · rw [refreshTop_waits, hqueue]
  · rw [refreshTop_topPriority, hnodes, hbase, htop]
  · rw [refreshTop_mayHaveBridges, hnodes, hhint, Function.update_self, Function.update_idem]

/-- **What a step of the mutexes does to the waits, the masks and the caches.** -/
inductive Underneath (S S' : Mutexes T M Q) : Prop
  | same (hwaits : S'.waits = S.waits) (htop : S'.topPriority = S.topPriority)
      (hhint : S'.mayHaveBridges = S.mayHaveBridges)
  | aside (act : WaitAct T (MutexQueue M Q)) (h : S.waits.next act = some S'.waits)
      (hmask : Waits.writesMask act = false) (hqueue : ∀ x, S'.nodes x = S.nodes x)
      (htop : S'.topPriority = S.topPriority) (hhint : S'.mayHaveBridges = S.mayHaveBridges)
  /-- The owner sets or clears a bit. -/
  | hold (t : Σ c, T c) (m : M) (i : Fin 4) (bits : BitVec 8) (hrun : S.waits.executes t = true)
      (h : S.waits.next (.core t.1 (.hold bits)) = some S'.waits)
      (hbits : bits = S.mask t &&& ~~~slotBit i ∨ ∃ loops, S.stage t = .registering m loops (.mark i))
      (howner : S'.owner = S.owner) (htop : S'.topPriority = S.topPriority)
      (hhint : S'.mayHaveBridges = S.mayHaveBridges)
  | arm (t : Σ c, T c) (m : M) (h : S.waits.next (.pass t .arm) = some S'.waits)
      (hcache : Refreshed S S' m (Waits.link S.waits.basePriority (t, false) (S.nodes m))
        (S.mayHaveBridges m || S.mask t != 0))
  | disarm (t : Σ c, T c) (m : M) (h : S.waits.next (.pass t .disarm) = some S'.waits)
      (hcache : Refreshed S S' m ((S.nodes m).erase (t, false)) (S.mayHaveBridges m))
  /-- The hand-over takes the new owner off the queue. -/
  | handOver (t chosen : Σ c, T c) (m : M) (i : Fin 4) (hs : S.stage t = .filing m chosen (.mark i))
      (h : S.waits.next (.wake (.mutex m) (.commit (slotBit i))) = some S'.waits)
      (howner : S'.owner = S.owner)
      (hcache : Refreshed S S' m ((S.nodes m).erase (chosen, false)) (S.mayHaveBridges m))

theorem Inv.underneath (hi : Inv S) {act : MutexAct T M Q} (h : S.next act = some S') : Underneath S S' := by
  cases effect_of_next h with
  | waits hallow hv =>
      obtain ⟨-, hmask, hqueue⟩ := hi.waitAct hallow hv
      exact .aside _ hv hmask hqueue rfl rfl
  | lock | tryLock | attemptTakes | attemptFails | registers | pollTakes | unlock => exact .same rfl rfl rfl
  | retireSlot | retireWord | enter | frees | hands => exact .same rfl rfl rfl
  | @registered t m loops => cases loops <;> exact .same rfl rfl rfl
  | @marks t m loops i v hrun hs hv =>
      cases loops <;> exact .hold t m i _ hrun hv (Or.inr ⟨_, hs⟩) rfl rfl rfl
  | claims _ hclaim | files _ hclaim =>
      obtain ⟨slots, held, rfl⟩ := claimStep_eq hclaim
      exact .same rfl rfl rfl
  | loop _ hv | polls _ _ _ hv | acquired _ _ hv =>
      have hqueue := (Waits.next_pass_move hv).queue_of_unlinked rfl
      exact .aside _ hv rfl (fun x => congrFun hqueue _) rfl rfl
  | @arm t m _ _ v hs hp _ hv =>
      obtain ⟨-, hqueue⟩ := hi.arm_view hs hp hv
      have hcache := Refreshed.of_refreshTop (S := S) { S with
          waits := v
          mayHaveBridges := Function.update S.mayHaveBridges m (S.mayHaveBridges m || S.mask t != 0) }
        hqueue (Waits.basePriority_next hv) rfl rfl
      exact .arm t m (by rw [refreshTop_waits]; exact hv) hcache
  | @disarm t m _ _ _ v hs hp _ hv =>
      obtain ⟨-, hqueue⟩ := hi.disarm_view hs hp hv
      split
      · have hcache := Refreshed.of_refreshTop (S := S) { S with waits := v } hqueue
          (Waits.basePriority_next hv) rfl (Function.update_eq_self _ _).symm
        exact .disarm t m (by rw [refreshTop_waits]; exact hv) hcache
      · next hgone =>
        refine .aside _ hv rfl (fun x => ?_) rfl rfl
        show v.queue (.mutex x) = S.waits.queue (.mutex x)
        rw [hqueue, List.erase_of_not_mem hgone, Function.update_eq_self]
  | @retireMask t m i v hrun _ _ _ hv => exact .hold t m i _ hrun hv (Or.inl rfl) rfl rfl rfl
  | @handedOver t m chosen i v hs hv =>
      obtain ⟨rest, hq⟩ := hi.filing_queue hs
      obtain ⟨-, -, hqueue⟩ := Waits.next_commit hq hv
      have herase : (S.nodes m).erase (chosen, false) = rest := by
        rw [Mutexes.nodes, hq, List.erase_cons_head]
      rw [← herase] at hqueue
      have hcache := Refreshed.of_refreshTop (S := S) { S with waits := v } hqueue
        (Waits.basePriority_next hv) rfl (Function.update_eq_self _ _).symm
      refine .handOver t chosen m i hs ?_ ?_ ⟨hcache.queue, hcache.top, hcache.hint⟩
      · show _ = some (Mutexes.refreshTop { S with waits := v } m).waits
        rw [refreshTop_waits]
        exact hv
      · exact owner_refreshTop (S := { S with waits := v }) m

namespace Underneath

theorem basePriority (h : Underneath S S') : S'.waits.basePriority = S.waits.basePriority := by
  cases h with
  | same hwaits => rw [hwaits]
  | aside act h => exact Waits.basePriority_next h
  | hold t m i bits hrun h => exact Waits.basePriority_next h
  | arm t m h => exact Waits.basePriority_next h
  | disarm t m h => exact Waits.basePriority_next h
  | handOver t chosen m i hs h => exact Waits.basePriority_next h

/-- **Who gets a first bit** owns a mutex, and waits for no other. -/
theorem mask (hi : Inv S) (h : Underneath S S') {u : Σ c, T c} (hu : S'.mask u ≠ 0) :
    S.mask u ≠ 0 ∨ ∃ m, S.owner m = some u ∧ S'.owner m = some u ∧
      ∀ x, (u, false) ∈ S.nodes x → x = m := by
  have hsame : S'.waits.heldMask = S.waits.heldMask → S.mask u ≠ 0 := fun heq he =>
    hu (by rw [Mutexes.mask, heq]; exact he)
  cases h with
  | same hwaits => exact Or.inl (hsame (by rw [hwaits]))
  | aside act h hmask => exact Or.inl (hsame (Waits.heldMask_next h hmask))
  | arm t m h => exact Or.inl (hsame (Waits.heldMask_next h rfl))
  | disarm t m h => exact Or.inl (hsame (Waits.heldMask_next h rfl))
  | hold t m i bits hrun h hbits howner =>
      obtain ⟨hmask, -, -⟩ := Waits.next_hold hrun h
      by_cases hut : u = t
      · subst hut
        rcases hbits with rfl | ⟨loops, hs⟩
        · refine Or.inl fun he => hu ?_
          rw [Mutexes.mask, hmask, Function.update_self, he]
          exact BitVec.zero_and
        · have hrec := (hi.record hs rfl).2
          refine Or.inr ⟨m, hrec.1, howner ▸ hrec.1, fun x hx => ?_⟩
          rcases (hi.place u).source (hi.queued hx).1 with hs' | hs' | ⟨claim, hs'⟩
          all_goals rw [hs] at hs'; cases hs'
          rfl
      · refine Or.inl fun he => hu ?_
        rw [Mutexes.mask, hmask, Function.update_of_ne hut]
        exact he
  | handOver t chosen m i hs h howner =>
      obtain ⟨rest, hq⟩ := hi.filing_queue hs
      obtain ⟨hmask, -, -⟩ := Waits.next_commit hq h
      by_cases huc : u = chosen
      · subst huc
        have hrec := (hi.record hs rfl).2
        refine Or.inr ⟨m, hrec.1, howner ▸ hrec.1, fun x hx => ?_⟩
        have hm := (hi.queued (x := (u, false)) (hq ▸ List.mem_cons_self)).1
        rw [(hi.queued hx).1] at hm
        cases hm
        rfl
      · refine Or.inl fun he => hu ?_
        rw [Mutexes.mask, hmask, Function.update_of_ne huc]
        exact he

end Underneath

/-! ### The caches stay exact -/

/-- The waiters that were there are still covered by the hint that was there. -/
theorem Cached.bridged (hc : Cached S) (hi : Inv S) {act : MutexAct T M Q} (h : S.next act = some S') (x : M)
    (u : Σ c, T c) (hhint : S.mayHaveBridges x = false) (hmem : (u, false) ∈ S.nodes x)
    (hmask : S'.mask u ≠ 0) : S'.owner x = some u := by
  rcases (hi.underneath h).mask hi hmask with hold | ⟨m, -, ho, hone⟩
  · have ho := hc.bridges x u hhint hmem hold
    rcases owner_next h x with hsame | hfree | ⟨t, rfl, hs, -⟩
    · exact hsame.trans ho
    · rw [ho] at hfree
      cases hfree
    · -- the thread that hands over is not queued
      have ht := hi.owner_of_unlocking (Or.inr (Or.inr hs))
      obtain rfl : u = t := Option.some.inj (ho.symm.trans ht)
      exact absurd (hi.queued hmem).1 (hi.placed hs x).1
  · rw [hone x hmem]
    exact ho

omit [∀ c, DecidableEq (T c)] [DecidableEq M] [DecidableEq Q] [∀ c, Fintype (T c)] in
theorem Cached.same (hc : Cached S) (hbase : S'.waits.basePriority = S.waits.basePriority)
    (hqueue : ∀ x, S'.nodes x = S.nodes x) (htop : S'.topPriority = S.topPriority)
    (hhint : S'.mayHaveBridges = S.mayHaveBridges)
    (hbridges : ∀ x u, S.mayHaveBridges x = false → (u, false) ∈ S.nodes x → S'.mask u ≠ 0 →
      S'.owner x = some u) : Cached S' where
  ordered := fun x => by
    rw [hbase, hqueue]
    exact hc.ordered x
  top := fun x => by
    rw [htop, hbase, hqueue]
    exact hc.top x
  empty := fun x hx => by
    rw [hhint]
    exact hc.empty x (hqueue x ▸ hx)
  bridges := fun x u hx hmem => hbridges x u (hhint ▸ hx) (hqueue x ▸ hmem)

omit [∀ c, DecidableEq (T c)] [∀ c, Fintype (T c)] in
theorem Cached.refreshed (hc : Cached S) (hbase : S'.waits.basePriority = S.waits.basePriority)
    {nodes : List ((Σ c, T c) × Bool)} {hint : Bool} (hr : Refreshed S S' m nodes hint)
    (hordered : Waits.Ordered S.waits.basePriority nodes)
    (hother : ∀ x, x ≠ m → ∀ u, S.mayHaveBridges x = false → (u, false) ∈ S.nodes x → S'.mask u ≠ 0 →
      S'.owner x = some u)
    (hself : ∀ u, hint = false → (u, false) ∈ nodes → S'.mask u ≠ 0 → S'.owner m = some u) :
    Cached S' := by
  have hnodes : ∀ x, S'.nodes x = if x = m then nodes else S.nodes x := by
    intro x
    rw [Mutexes.nodes, hr.queue]
    by_cases hx : x = m
    · rw [if_pos hx, hx, Function.update_self]
    · rw [if_neg hx, Function.update_of_ne (fun he => hx (by cases he; rfl))]
      rfl
  refine ⟨fun x => ?_, fun x => ?_, fun x hempty => ?_, fun x u hhint hmem hmask => ?_⟩
  · rw [hbase, hnodes]
    split
    · exact hordered
    · exact hc.ordered x
  · rw [hr.top, hbase, hnodes]
    by_cases hx : x = m
    · rw [if_pos hx, hx, Function.update_self]
    · rw [if_neg hx, Function.update_of_ne hx]
      exact hc.top x
  · rw [hnodes] at hempty
    rw [hr.hint]
    by_cases hx : x = m
    · rw [if_pos hx] at hempty
      rw [hx, Function.update_self, hempty]
      simp
    · rw [if_neg hx] at hempty
      rw [Function.update_of_ne hx]
      exact hc.empty x hempty
  · rw [hnodes] at hmem
    rw [hr.hint] at hhint
    by_cases hx : x = m
    · rw [if_pos hx] at hmem
      rw [hx, Function.update_self] at hhint
      have hsome : nodes.isEmpty = false := by
        cases nodes with
        | nil => cases hmem
        | cons => rfl
      rw [hx]
      exact hself u (by simpa [hsome] using hhint) hmem hmask
    · rw [if_neg hx] at hmem
      rw [Function.update_of_ne hx] at hhint
      exact hother x hx u hhint hmem hmask

/-- **One step keeps the caches exact.** -/
theorem Cached.next (hc : Cached S) (hi : Inv S) {act : MutexAct T M Q} (h : S.next act = some S') :
    Cached S' := by
  have hbridged := hc.bridged hi h
  have hunder := hi.underneath h
  have hbase := hunder.basePriority
  cases hunder with
  | same hwaits htop hhint =>
      exact hc.same hbase (fun x => by rw [Mutexes.nodes, hwaits]; rfl) htop hhint hbridged
  | aside act h hmask hqueue htop hhint => exact hc.same hbase hqueue htop hhint hbridged
  | hold t m i bits hrun h hbits howner htop hhint =>
      obtain ⟨-, -, hqueue⟩ := Waits.next_hold hrun h
      exact hc.same hbase (fun x => congrFun hqueue _) htop hhint hbridged
  | arm t m h hcache =>
      refine hc.refreshed hbase hcache ((hc.ordered m).link _) (fun x _ => hbridged x) ?_
      intro u hhint hmem hmask
      obtain ⟨hold, hzero⟩ := Bool.or_eq_false_iff.1 hhint
      rcases Waits.mem_link.1 hmem with he | hmem
      · -- whoever arms without a mutex has none yet
        cases he
        refine absurd ?_ hmask
        rw [Mutexes.mask, Waits.heldMask_next h rfl]
        show S.mask t = 0
        simpa [bne] using hzero
      · exact hbridged m u hold hmem hmask
  | disarm t m h hcache =>
      refine hc.refreshed hbase hcache ((hc.ordered m).sublist List.erase_sublist) (fun x _ => hbridged x) ?_
      exact fun u hhint hmem => hbridged m u hhint (List.mem_of_mem_erase hmem)
  | handOver t chosen m i hs h howner hcache =>
      refine hc.refreshed hbase hcache ((hc.ordered m).sublist List.erase_sublist) (fun x _ => hbridged x) ?_
      exact fun u hhint hmem => hbridged m u hhint (List.mem_of_mem_erase hmem)

omit [DecidableEq M] [DecidableEq Q] in
theorem cached_boot (idle : ∀ c, T c) (basePriority : ∀ c, T c → Level) (threads : ∀ c, List (T c)) :
    Cached (boot idle basePriority threads : Mutexes T M Q) where
  ordered := fun _ => List.Pairwise.nil
  top := fun _ => rfl
  empty := fun _ _ => rfl
  bridges := nofun

end Mutexes

end Cyros.Kernel
