import Cyros.Kernel.MutexSteps

/-!
# Who owns a mutex

What follows from the invariant of the words in every state of every run, and for every step from it.
`owner_next` says who writes an owner word.
-/

namespace Cyros.Kernel.Mutexes

open Cyros.Lib

variable {n : ℕ} {T : Fin n → Type} {M Q : Type}
variable {S S' : Mutexes T M Q} {m : M} {t : Σ c, T c}

variable [∀ c, DecidableEq (T c)] [DecidableEq M] [DecidableEq Q] [∀ c, Fintype (T c)]

omit [DecidableEq Q] [∀ c, Fintype (T c)] in
/-- A claim writes the slots and `held_slot`. -/
theorem claimStep_eq {claim claim' : Claim} (h : S.claimStep t m claim = some (S', claim')) :
    ∃ slots held, S' = { S with heldSlots := slots, heldSlot := held } := by
  cases claim with
  | scan i =>
      simp only [claimStep] at h
      split at h
      · split at h <;> cases h <;> exact ⟨_, _, rfl⟩
      · cases h
  | store i =>
      cases h
      exact ⟨_, _, rfl⟩
  | mark i => cases h

omit [∀ c, DecidableEq (T c)] [DecidableEq Q] [∀ c, Fintype (T c)] in
theorem owner_refreshTop (x : M) : (S.refreshTop x).owner = S.owner := by
  obtain ⟨top, bridges, heq⟩ := refreshTop_eq S x
  rw [heq]

omit [DecidableEq Q] [∀ c, Fintype (T c)] in
/-- An exchange writes the word of a free mutex only. -/
theorem owner_takes {g : MutexStage T M} {x : M} (hfree : S.owner x = none) :
    ((S.setOwner x (some t)).setStage t g).owner m = S.owner m ∨ S.owner m = none := by
  by_cases hm : m = x
  · rw [hm]
    exact Or.inr hfree
  · exact Or.inl (Function.update_of_ne hm _ _)

/-- **Who writes an owner word**: an exchange that finds it free, or the commit of a hand-over. -/
theorem owner_next {act : MutexAct T M Q} (h : S.next act = some S') (m : M) :
    S'.owner m = S.owner m ∨ S.owner m = none ∨ ∃ t, act = .release t ∧ S.stage t = .committing m ∧
      S'.owner m = (S.waits.queue (.mutex m)).head?.map Prod.fst := by
  cases effect_of_next h with
  | waits | lock | tryLock | attemptFails | registers | loop | polls | acquired | unlock => exact Or.inl rfl
  | retireMask | retireSlot | retireWord | enter => exact Or.inl rfl
  | attemptTakes _ hfree | pollTakes _ _ hfree => exact (owner_takes hfree).imp_right Or.inl
  | @registered t x loops | @marks t x loops => cases loops <;> exact Or.inl rfl
  | claims _ hclaim | files _ hclaim =>
      obtain ⟨slots, held, rfl⟩ := claimStep_eq hclaim
      exact Or.inl rfl
  | arm =>
      rw [owner_refreshTop]
      exact Or.inl rfl
  | disarm =>
      split
      · rw [owner_refreshTop]
        exact Or.inl rfl
      · exact Or.inl rfl
  | handedOver => exact Or.inl (congrFun (owner_refreshTop _) m)
  | @frees t x hs hq | @hands t x _ _ _ hs hq =>
      by_cases hm : m = x
      · subst hm
        refine Or.inr (Or.inr ⟨t, rfl, hs, ?_⟩)
        rw [hq]
        exact Function.update_self ..
      · exact Or.inl (Function.update_of_ne hm _ _)

omit [DecidableEq M] [DecidableEq Q] in
/-- The thread is parked on the mutex. -/
def Parked (S : Mutexes T M Q) (m : M) (t : Σ c, T c) : Prop :=
  (S.waits.cores t.1).sched.state t.2 = .blocked ∧
    ∃ cancel, S.waits.place t = .disarming (.mutex m) cancel false

/-- The thread is in `unlock`, before the commit of its hand-over. -/
def Unlocking (S : Mutexes T M Q) (m : M) (t : Σ c, T c) : Prop :=
  (∃ retire, S.stage t = .retiring m retire) ∨ S.stage t = .entering m ∨ S.stage t = .committing m

/-- No step of a lock, an unlock or a hand-over of the mutex is in progress. -/
def Settled (S : Mutexes T M Q) (m : M) : Prop := ∀ t, (S.stage t).works ≠ some m

omit [∀ c, DecidableEq (T c)] [DecidableEq M] [DecidableEq Q] [∀ c, Fintype (T c)] in
theorem Inv.owner_of_unlocking (hi : Inv S) (h : S.Unlocking m t) : S.owner m = some t := by
  rcases h with ⟨retire, hs⟩ | hs | hs
  · have hrec := (hi.record hs rfl).2
    cases retire <;> exact hrec.1
  · exact (hi.record hs rfl).2.1
  · exact (hi.record hs rfl).2.1

/-- **Ownership.**  In every state of every run:
at most one thread is between a successful lock and its unlock;
the mutex of a thread in `unlock` stays its own until the commit, which gives it to the head of the queue;
nobody is parked on a free mutex, since a waiter whose node was taken is the owner;
and where no step on the mutex is in progress, its owner is the one thread in whose slots it is filed, in
one slot, with `held_slot` and the bit of the mask. -/
theorem ownership (idle : ∀ c, T c) (basePriority : ∀ c, T c → Level) (threads : ∀ c, List (T c))
    (acts : List (MutexAct T M Q)) (hrun : run next (boot idle basePriority threads) acts = some S) :
    (∀ m t u, S.inside t m = true → S.inside u m = true → u = t) ∧
      (∀ m t, S.Unlocking m t → S.owner m = some t ∧ ∀ act S', S.next act = some S' →
        S'.owner m = some t ∨ act = .release t ∧ S.stage t = .committing m ∧
          S'.owner m = (S.waits.queue (.mutex m)).head?.map Prod.fst) ∧
      (∀ m t, S.owner m = none → ¬ S.Parked m t) ∧
      ∀ m, S.Settled m → ∀ t, (S.owner m = some t ↔ ∃ i, S.Filed m t i) ∧
        (S.owner m ≠ some t → ∀ i, S.heldSlots t i ≠ some m) := by
  have hi : Inv S := run_invariant (I := Inv) (fun _ _ _ hi h => hi.next h)
    (inv_boot idle basePriority threads) hrun
  refine ⟨fun m t u ht hu => ?_, fun m t hunlock => ?_, fun m t hfree hparked => ?_, fun m hsettled t => ?_⟩
  · exact Option.some.inj ((hi.inside u m hu).1.symm.trans (hi.inside t m ht).1)
  · have ho := hi.owner_of_unlocking hunlock
    refine ⟨ho, fun act S' hstep => ?_⟩
    rcases owner_next hstep m with hsame | hfree | ⟨u, rfl, hs, hhead⟩
    · exact Or.inl (hsame.trans ho)
    · rw [ho] at hfree
      cases hfree
    · have hu := hi.owner_of_unlocking (Or.inr (Or.inr hs))
      obtain rfl : t = u := Option.some.inj (ho.symm.trans hu)
      exact Or.inr ⟨rfl, hs, hhead⟩
  · obtain ⟨-, cancel, hp⟩ := hparked
    by_cases hmem : (t, false) ∈ S.waits.queue (.mutex m)
    · exact hi.starved t m (by rw [hp]; rfl) hmem hfree
    · have ho := hi.handed t m (by rw [hp]; exact List.mem_cons_self) hmem
      rw [hfree] at ho
      cases ho
  · rcases (hi.recorded m).idle hsettled with ⟨hfree, hclean⟩ | ⟨u, i, ho, hf⟩
    · refine ⟨iff_of_false ?_ ?_, fun _ => hclean.2 t⟩
      · rw [hfree]
        nofun
      · rintro ⟨i, hheld, -⟩
        rw [hclean.1] at hheld
        cases hheld
    · refine ⟨⟨fun ht => ?_, ?_⟩, fun hne j hj => hne ?_⟩
      · obtain rfl : u = t := Option.some.inj (ho.symm.trans ht)
        exact ⟨i, hf⟩
      · rintro ⟨j, -, hslotted, -⟩
        obtain ⟨rfl, -⟩ := (hslotted u i).1 ((hf.2.1 u i).2 ⟨rfl, rfl⟩)
        exact ho
      · obtain ⟨rfl, -⟩ := (hf.2.1 t j).1 hj
        exact ho

/-- The first thread of each of two cores. -/
def holder (c : Fin 2) : Σ _ : Fin 2, Fin 2 := ⟨c, 1⟩

/-- The thread of core 0 takes the mutex, the one of core 1 parks on it, and the first unlocks. -/
def handsOver : List (MutexAct (fun _ : Fin 2 => Fin 2) Unit Empty) :=
  [.lock (holder 0) (), .attempt (holder 0)] ++ List.replicate 4 (.register (holder 0)) ++
    [.lock (holder 1) (), .attempt (holder 1), .loop (holder 1), .arm (holder 1), .poll (holder 1),
      .waits (.pass (holder 1) (.commit fun _ => 0)), .unlock (holder 0) ()] ++
    List.replicate 8 (.release (holder 0))

/-- After the hand-over the waiter of the other core owns the mutex, and it is filed in its slots. -/
theorem ownership_handed_over :
    ∃ S : Mutexes (fun _ : Fin 2 => Fin 2) Unit Empty,
      run next (boot (fun _ => 0) (fun _ t => if t = 0 then 31 else 5) (fun _ => [1])) handsOver = some S ∧
        S.owner () = some (holder 1) ∧ ∃ i, S.Filed () (holder 1) i := by
  have hsome : (run next (boot (fun _ => 0) (fun _ t => if t = 0 then 31 else 5) (fun _ => [1]))
      handsOver).map (fun S => (S.owner (), decide (∀ c t, (S.stage ⟨c, t⟩).works ≠ some ()))) =
        some (some (holder 1), true) := rfl
  obtain ⟨S, hrun, hview⟩ := Option.map_eq_some_iff.mp hsome
  obtain ⟨howner, hworks⟩ := Prod.mk.inj hview
  have hsettled : S.Settled () := fun t => of_decide_eq_true hworks t.1 t.2
  have hfiled := (((ownership _ _ _ _ hrun).2.2.2 () hsettled (holder 1)).1).1 howner
  exact ⟨S, hrun, howner, hfiled⟩

end Cyros.Kernel.Mutexes
