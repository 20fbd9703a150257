import Cyros.Kernel.Urgency

/-!
# The prompts of a donation

A thread that arms on a mutex makes its owner more urgent, and whoever is next on the chain of owners, as the fold of
`urgency` finds them.  `request_repick` walks the chain by other words: `blocked_on` of each owner and the owner of that
mutex.  The walk is bounded by the depth of the fold, so it ends also where the chain is a cycle.

* `Armed.changed`: only threads on the chain of owners change their urgency.
* `donation_prompts`: the walk prompts the core of each of the first `max_inheritance_depth` owners.
-/

namespace Cyros.Kernel.Mutexes

open Cyros.Lib

variable {n : ℕ} {T : Fin n → Type} {M Q : Type}

/-- `cyros_port_pend_reschedule` and `cyros_port_send_reschedule_ipi`. -/
inductive Prompt (n : ℕ) where
  | pend
  | ipi (core : Fin n)
  deriving DecidableEq

/-- How a core prompts another, or itself. -/
def promptFor (thisCore core : Fin n) : Prompt n := if core = thisCore then .pend else .ipi core

section Walk

variable [∀ c, DecidableEq (T c)]

/-- The loop of `request_repick` with the hops that are left; it gives the prompts in their order. -/
def requestRepick (S : Mutexes T M Q) (blockedOn : (Σ c, T c) → Option M) (thisCore : Fin n) :
    ℕ → (Σ c, T c) → List (Prompt n)
  | 0, _ => []
  | hops + 1, target =>
      promptFor thisCore target.1 :: match blockedOn target with
        | none => []
        | some resource => match S.owner resource with
          | none => []
          | some next => if next = target then [] else requestRepick S blockedOn thisCore hops next

/-- Every waiter that is queued has published what it is blocked on.  It need not be parked. -/
def Published (S : Mutexes T M Q) (blockedOn : (Σ c, T c) → Option M) : Prop :=
  ∀ u m, (u, false) ∈ S.nodes m → blockedOn u = some m

variable {S : Mutexes T M Q} {blockedOn : (Σ c, T c) → Option M} {thisCore : Fin n} {target t : Σ c, T c}

theorem requestRepick_length (hops : ℕ) : (S.requestRepick blockedOn thisCore hops target).length ≤ hops := by
  induction hops generalizing target with
  | zero => exact Nat.le_refl 0
  | succ hops ih =>
      rw [requestRepick, List.length_cons]
      repeat' split
      · exact Nat.le_add_left _ _
      · exact Nat.le_add_left _ _
      · exact Nat.le_add_left _ _
      · exact Nat.succ_le_succ ih

/-- The walk takes the edge that the fold takes. -/
theorem requestRepick_behind (hpub : S.Published blockedOn) {u : Σ c, T c} (hbehind : S.Behind target u) (hops : ℕ) :
    S.requestRepick blockedOn thisCore (hops + 1) target =
      promptFor thisCore target.1 :: S.requestRepick blockedOn thisCore hops u := by
  obtain ⟨m, howner, hqueued, hne⟩ := hbehind
  simp only [requestRepick, hpub target m hqueued, howner]
  rw [if_neg (Ne.symm hne)]

/-- Every owner within reach of the hops is prompted. -/
theorem prompt_mem (hpub : S.Published blockedOn) {k hops : ℕ} (hk : k < hops) (hchain : Chain S.Behind k target t) :
    promptFor thisCore t.1 ∈ S.requestRepick blockedOn thisCore hops target := by
  induction k generalizing target hops with
  | zero =>
      obtain rfl : target = t := hchain
      obtain ⟨hops, rfl⟩ := Nat.exists_eq_add_one_of_ne_zero (Nat.ne_zero_of_lt hk)
      exact List.mem_cons_self
  | succ k ih =>
      obtain ⟨u, hbehind, hchain⟩ := hchain.head
      obtain ⟨hops, rfl⟩ := Nat.exists_eq_add_one_of_ne_zero (Nat.ne_zero_of_lt hk)
      rw [requestRepick_behind hpub hbehind]
      exact List.mem_cons_of_mem _ (ih (Nat.lt_of_succ_lt_succ hk) hchain)

end Walk

/-! ### Whose urgency changes -/

/-- The queue of `m` changed, and nothing else that the fold reads. -/
structure Armed (S S' : Mutexes T M Q) (m : M) : Prop where
  owner : S'.owner = S.owner
  slots : S'.heldSlots = S.heldSlots
  mask : S'.waits.heldMask = S.waits.heldMask
  base : S'.waits.basePriority = S.waits.basePriority
  nodes : ∀ x, x ≠ m → S'.nodes x = S.nodes x
  top : ∀ x, x ≠ m → S'.topPriority x = S.topPriority x
  hint : ∀ x, x ≠ m → S'.mayHaveBridges x = S.mayHaveBridges x

variable [∀ c, DecidableEq (T c)] {S S' : Mutexes T M Q} {ceiling : M → Option ℕ} {m : M} {t target w : Σ c, T c}

namespace Armed

/-- A floor changes by the top of a mutex that the thread owns. -/
theorem top_ne (h : Armed S S' m) (hrest : Resting S) {deeper deeper' : Option ((Σ c, T c) → ℕ)}
    (hne : S'.donatedFloor ceiling deeper' t ≠ S.donatedFloor ceiling deeper t) :
    ∃ x, S.owner x = some t ∧ S'.top deeper' x ≠ S.top deeper x := by
  have hheld : S'.heldList t = S.heldList t := by
    unfold heldList Mutexes.bit Mutexes.mask
    rw [h.mask, h.slots]
  unfold donatedFloor at hne
  rw [hheld, h.base] at hne
  obtain ⟨x, hx, hne⟩ := exists_ne_of_foldl_min_ne hne
  refine ⟨x, hrest.mem_heldList.1 hx, fun heq => hne ?_⟩
  unfold urgencyContribution
  rw [heq]

/-- Only the queue of `m` and what its waiters are worth can change a top. -/
theorem bridge_ne (h : Armed S S' m) {deeper deeper' : (Σ c, T c) → ℕ} {x : M} (hx : x ≠ m)
    (hne : S'.top (some deeper') x ≠ S.top (some deeper) x) : ∃ u ∈ S.bridges x, deeper' u ≠ deeper u := by
  have hbridges : S'.bridges x = S.bridges x := by
    unfold bridges Mutexes.mask
    rw [h.nodes x hx, h.mask, h.owner]
  unfold Mutexes.top at hne
  rw [h.hint x hx, h.top x hx, hbridges] at hne
  split at hne
  · exact absurd rfl hne
  · dsimp only at hne
    split at hne
    · exact absurd rfl hne
    · exact exists_ne_of_foldl_min_ne hne

/-- **Only the owners on the chain change**, each within the depth that its fold has left. -/
theorem changed (h : Armed S S' m) (hrest : Resting S) (howner : S.owner m = some target) {depth : ℕ}
    (hne : S'.urgencyAt ceiling depth t ≠ S.urgencyAt ceiling depth t) :
    ∃ k ≤ depth, Chain S'.Behind k target t := by
  induction depth generalizing t with
  | zero =>
      obtain ⟨x, ho, hne⟩ := h.top_ne hrest hne
      by_cases hx : x = m
      · subst hx
        exact ⟨0, Nat.le_refl 0, Option.some.inj (howner.symm.trans ho)⟩
      · unfold Mutexes.top at hne
        rw [h.hint x hx, h.top x hx] at hne
        exact absurd rfl hne
  | succ depth ih =>
      obtain ⟨x, ho, hne⟩ := h.top_ne hrest hne
      by_cases hx : x = m
      · subst hx
        exact ⟨0, Nat.zero_le _, Option.some.inj (howner.symm.trans ho)⟩
      · obtain ⟨u, hu, hne⟩ := h.bridge_ne hx hne
        obtain ⟨k, hk, hchain⟩ := ih hne
        obtain ⟨⟨slot, hmem⟩, -, hnot⟩ := of_mem_bridges hu
        obtain rfl : slot = false := (hrest.inv.queued hmem).2
        refine ⟨k + 1, Nat.succ_le_succ hk, u, hchain, x, ?_, ?_, fun he => hnot (he ▸ ho)⟩
        · rw [h.owner]
          exact ho
        · rw [h.nodes x hx]
          exact hmem

theorem urgency_changed (h : Armed S S' m) (hrest : Resting S) (howner : S.owner m = some target)
    (hne : S'.urgency ceiling t ≠ S.urgency ceiling t) :
    ∃ k ≤ maxInheritanceDepth, Chain S'.Behind k target t := by
  unfold urgency Mutexes.mask at hne
  rw [h.mask, h.base] at hne
  split at hne
  · exact absurd rfl hne
  · exact h.changed hrest howner hne

end Armed

variable [DecidableEq M] [DecidableEq Q] [∀ c, Fintype (T c)]

theorem Inv.armed (hi : Inv S) (hs : S.stage w = .looping m) (h : S.next (.arm w) = some S') : Armed S S' m := by
  simp only [Mutexes.next, Mutexes.loopStep, hs] at h
  split at h
  · next x _ cancel hx hp =>
    cases hx
    split at h
    · cases h
    · obtain ⟨S₁, hstep, rfl⟩ := Option.map_eq_some_iff.mp h
      obtain ⟨v, hv, rfl⟩ := Option.map_eq_some_iff.mp hstep
      obtain ⟨-, hqueue⟩ := hi.arm_view hs hp hv
      obtain ⟨top, hint, heq⟩ := refreshTop_eq { S with
        waits := v
        mayHaveBridges := Function.update S.mayHaveBridges m (S.mayHaveBridges m || S.mask w != 0) } m
      have hcache := Refreshed.of_refreshTop (S := S) { S with
          waits := v
          mayHaveBridges := Function.update S.mayHaveBridges m (S.mayHaveBridges m || S.mask w != 0) }
        hqueue (Waits.basePriority_next hv) rfl rfl
      rw [heq] at hcache ⊢
      refine ⟨rfl, rfl, Waits.heldMask_next hv rfl, Waits.basePriority_next hv, fun x hx => ?_, fun x hx => ?_,
        fun x hx => ?_⟩
      · exact (congrFun hcache.queue _).trans (Function.update_of_ne (by simpa using hx) _ _)
      · exact (congrFun hcache.top x).trans (Function.update_of_ne hx _ _)
      · exact (congrFun hcache.hint x).trans (Function.update_of_ne hx _ _)
  · cases h

/-- **A donation prompts every core it can matter to.**  In every state of every run in which no step on a mutex is in
progress, a thread arms on a mutex of another owner, and the waiters that are queued have published their edges.  Then
the walk that its failed poll starts ends within the hops;
a thread whose urgency the arming changed is one of the owners on the chain from that mutex, at most one further than
the walk goes;
and the walk prompts the core of each owner on that chain up to `max_inheritance_depth`, whatever the state of the
threads on it. -/
theorem donation_prompts (ceiling : M → Option ℕ) (blockedOn : (Σ c, T c) → Option M) (idle : ∀ c, T c)
    (basePriority : ∀ c, T c → Level) (threads : ∀ c, List (T c)) (acts : List (MutexAct T M Q))
    (hrun : run next (boot idle basePriority threads) acts = some S) (hsettled : ∀ m, S.Settled m)
    (hloops : S.stage w = .looping m) (harm : S.next (.arm w) = some S') (howner : S'.owner m = some target)
    (hpub : S'.Published blockedOn) :
    (S'.requestRepick blockedOn w.1 maxInheritanceDepth target).length ≤ maxInheritanceDepth ∧
      (∀ t, S'.urgency ceiling t < S.urgency ceiling t →
        ∃ k ≤ maxInheritanceDepth, Chain S'.Behind k target t) ∧
      ∀ t k, k < maxInheritanceDepth → Chain S'.Behind k target t →
        promptFor w.1 t.1 ∈ S'.requestRepick blockedOn w.1 maxInheritanceDepth target := by
  have hrest := resting_of_run hrun hsettled
  have harmed := hrest.inv.armed hloops harm
  rw [harmed.owner] at howner
  exact ⟨requestRepick_length _, fun t hlt => harmed.urgency_changed hrest howner hlt.ne,
    fun t k hk hchain => prompt_mem hpub hk hchain⟩

/-- What the two waiters of a chain of three are blocked on. -/
def chainEdges (u : Σ _ : Fin 3, Fin 2) : Option Bool :=
  if u = link 2 then some true else if u = link 1 then some false else none

/-- The thread of core 2 arms behind that of core 1, which waits behind that of core 0: the first becomes as urgent as
the last, and its core is prompted. -/
theorem donation_prompts_chained :
    ∃ S S' : Mutexes (fun _ : Fin 3 => Fin 2) Bool Empty,
      S.next (.arm (link 2)) = some S' ∧ S'.urgency (fun _ => none) (link 0) < S.urgency (fun _ => none) (link 0) ∧
      .ipi 0 ∈ S'.requestRepick chainEdges 2 maxInheritanceDepth (link 1) := by
  have hsome : ((run next (boot (fun _ => 0)
      (fun c t => if t = 0 then 31 else if c = 0 then 9 else if c = 1 then 7 else 3) (fun _ => [1]))
      (takes 0 false ++ takes 1 true ++ parksOn 1 false ++
        [.lock (link 2) true, .attempt (link 2), .loop (link 2)])).bind fun S =>
      (S.next (.arm (link 2))).map fun S' => (S, S')).map
      (fun p => (decide (∀ m c t, (p.1.stage ⟨c, t⟩).works ≠ some m), p.1.stage (link 2),
        p.1.urgency (fun _ => none) (link 0), p.2.urgency (fun _ => none) (link 0),
        [p.2.owner false, p.2.owner true], [p.2.nodes false, p.2.nodes true])) =
      some (true, .looping true, 7, 3, [some (link 0), some (link 1)], [[(link 1, false)], [(link 2, false)]]) := rfl
  obtain ⟨⟨S, S'⟩, hpair, hview⟩ := Option.map_eq_some_iff.mp hsome
  obtain ⟨S₀, hrun, hmap⟩ := Option.bind_eq_some_iff.mp hpair
  obtain ⟨S₁, harm, hpair⟩ := Option.map_eq_some_iff.mp hmap
  cases hpair
  simp only [Prod.mk.injEq, List.cons.injEq, and_true] at hview
  obtain ⟨hworks, hloops, hbefore, hafter, ⟨hf, ht⟩, hnf, hnt⟩ := hview
  have hsettled : ∀ m, S.Settled m := fun m t => of_decide_eq_true hworks m t.1 t.2
  have hpub : S'.Published chainEdges := by
    rintro u (_ | _) hu
    · rw [hnf] at hu
      cases List.mem_singleton.1 hu
      rfl
    · rw [hnt] at hu
      cases List.mem_singleton.1 hu
      rfl
  have hchain : Chain S'.Behind 1 (link 1) (link 0) :=
    ⟨link 1, rfl, false, hf, by rw [hnf]; exact List.mem_cons_self, by decide⟩
  refine ⟨S, S', harm, by omega, ?_⟩
  exact (donation_prompts (fun _ => none) chainEdges _ _ _ _ hrun hsettled hloops harm ht hpub).2.2 (link 0) 1
    (by decide) hchain

end Cyros.Kernel.Mutexes
