import Cyros.Kernel.QueueTop
import Cyros.Sync.HandedTokens
import Cyros.Sync.Turns

/-!
# Mutexes and handed tokens in turn

The queue of a mutex and that of a semaphore that hands over are lines.  What is given is the mutex, by the
step of `unlock` that writes the owner word, and a token, by each step of `release` that hands it over or finds
that there is nobody to hand it to.  A free mutex or a counted token goes to whoever polls first, and is not
given to anybody.

* `mutexLine_lawful`, `handoffLine_lawful`: both give to the first on the queue.
* `given_in_turn`: so they give in turn while the waiters are in line.
* `woken_loses_turn`: a wake that is not for the wait takes a waiter out of the line.  It disarms, finds
  nothing and arms again, behind those that armed after it did.
-/

namespace Cyros.Sync

open Cyros.Lib Cyros.Kernel

variable {n : ℕ} {T : Fin n → Type} {M Q : Type} [∀ c, DecidableEq (T c)] [DecidableEq M] [DecidableEq Q]
  [∀ c, Fintype (T c)]

/-- A step of the waits that is no arm. -/
theorem step_of_not_arm {V V' : Waits T Q} {w : Q} {arms : Option (Σ c, T c)} {act : WaitAct T Q}
    (h : V.next act = some V') (hact : Turns.armOf act = none) :
    V' = V ∨ ∃ act, V.next act = some V' ∧ ∀ t cancel, Turns.armOf act = some t →
      V.place t = .arming w cancel → arms = some t := by
  refine Or.inr ⟨act, h, fun t _ he => ?_⟩
  rw [hact] at he
  cases he

/-! ### Mutexes -/

/-- The queue of the mutex `m`. -/
def mutexLine (m : M) : Line T (MutexQueue M Q) (Mutexes T M Q) (MutexAct T M Q) where
  next := Mutexes.next
  waits := Mutexes.waits
  queue := .mutex m
  arms := fun _ act => match act with
    | .arm t => some t
    | _ => none
  gives := fun S act => match act with
    | .release t => match S.stage t with
      | .committing m' => decide (m' = m)
      | _ => false
    | _ => false
  receiver := fun _ S' => S'.owner m
  finished := fun S t => decide (S.owner m = some t)

theorem mutexLine_step (m : M) {S S' : Mutexes T M Q} {act : MutexAct T M Q} (h : S.next act = some S') :
    S'.waits = S.waits ∨ ∃ a, S.waits.next a = some S'.waits ∧ ∀ t cancel, Turns.armOf a = some t →
      S.waits.place t = .arming (.mutex m) cancel → (mutexLine m).arms S act = some t := by
  cases Mutexes.effect_of_next h with
  | @waits a v hallow hv =>
      refine Or.inr ⟨a, hv, fun t cancel ha hp => ?_⟩
      obtain rfl := Turns.eq_of_armOf ha
      simp [Mutexes.allows, Mutexes.allowsPass, Mutexes.onMutex, hp, WaitPlace.source] at hallow
  | lock | tryLock | attemptTakes | attemptFails | registers | pollTakes | unlock => exact Or.inl rfl
  | retireSlot | retireWord | enter | frees | hands => exact Or.inl rfl
  | @registered t x loops => cases loops <;> exact Or.inl rfl
  | @marks t x loops i v _ _ hv => cases loops <;> exact step_of_not_arm hv rfl
  | claims _ hclaim | files _ hclaim =>
      obtain ⟨slots, held, rfl⟩ := Mutexes.claimStep_eq hclaim
      exact Or.inl rfl
  | loop _ hv | polls _ _ _ hv | acquired _ _ hv | retireMask _ _ _ _ hv => exact step_of_not_arm hv rfl
  | @arm t _ _ _ _ _ _ _ hv =>
      refine Or.inr ⟨.pass t .arm, by rw [Mutexes.refreshTop_waits]; exact hv, fun u cancel ha _ => ?_⟩
      cases ha
      rfl
  | disarm _ _ _ hv =>
      split
      · rw [Mutexes.refreshTop_waits]
        exact step_of_not_arm hv rfl
      · exact step_of_not_arm hv rfl
  | @handedOver _ _ _ _ v _ hv =>
      have hwaits := Mutexes.refreshTop_waits { S with waits := v }
      exact step_of_not_arm (hv.trans (congrArg some (hwaits _).symm)) rfl

/-- **A mutex is given to the first on its queue.** -/
theorem mutexLine_lawful (m : M) :
    Turns.Lawful (mutexLine m : Line T (MutexQueue M Q) (Mutexes T M Q) (MutexAct T M Q)) Mutexes.Inv where
  keeps := fun _ _ _ hi h => hi.next h
  nodes := fun _ hi => hi.nodes
  cancel := fun _ hi t => (hi.place t).cancel m
  step := fun _ _ _ _ h => mutexLine_step m h
  first := by
    intro S act S' hi h hgives
    cases act with
    | release t =>
        simp only [mutexLine] at hgives
        split at hgives
        · next m' hs =>
          obtain rfl : m' = m := of_decide_eq_true hgives
          have hstep : S.next (.release t) = some S' := h
          show S'.owner m' = (S.waits.queue (.mutex m')).head?.map Prod.fst
          cases Mutexes.effect_of_next hstep with
          | frees hs' hq | hands hs' hq =>
              obtain rfl : m' = _ := MutexStage.committing.inj (hs.symm.trans hs')
              rw [hq]
              exact Function.update_self ..
          | retireMask _ hs' | retireSlot hs' | retireWord hs' | enter hs' | handedOver hs' | files hs' =>
              cases hs.symm.trans hs'
        · cases hgives
    | _ => cases hgives

/-! ### Tokens that are handed over -/

/-- The release gives a token away in its next step: to the first on the queue, or to nobody. -/
def HandingOver.gives (empty : Bool) : HandingOver → Bool
  | .looking (_ + 1) => empty
  | .handing (_ + 1) | .reclaimed _ => true
  | _ => false

/-- The queue of a semaphore that hands over. -/
def handoffLine (w : Q) : Line T Q (Handoff T Q) (HandoffAct T Q) where
  next := Handoff.next w
  waits := Handoff.waits
  queue := w
  arms := fun _ act => match act with
    | .waits a => Turns.armOf a
    | _ => none
  gives := fun S act => match act with
    | .proceed i => S.releasing[i]?.any fun r => r.place.gives (S.waits.queue w).isEmpty
    | _ => false
  receiver := fun S S' => ((S.waits.queue w).head?.map Prod.fst).filter S'.handed
  finished := fun S t => S.handed t || S.tookCounted t || match S.after t with
    | .ended _ | .settled _ => true
    | _ => false

/-- What `hand_over` does to the waits, and whom it chooses. -/
theorem handOver_spec {w : Q} {S S' : Handoff T Q} (h : S.handOver w = some S') :
    (S'.waits = S.waits ∨ S.waits.next (.wake w .one) = some S'.waits) ∧
      ((S.waits.queue w).head?.map Prod.fst).filter S'.handed = (S.waits.queue w).head?.map Prod.fst := by
  simp only [Handoff.handOver] at h
  split at h
  · next hq =>
    cases h
    rw [hq]
    exact ⟨Or.inl rfl, rfl⟩
  · next first rest hq =>
    obtain ⟨S₁, hstep, rfl⟩ := Option.map_eq_some_iff.mp h
    obtain ⟨v, hv, rfl⟩ := Option.map_eq_some_iff.mp hstep
    refine ⟨Or.inr hv, ?_⟩
    rw [hq]
    show Option.filter (Function.update S.handed first.1 true) (some first.1) = some first.1
    rw [Option.filter_some, Function.update_self]
    rfl

theorem proceed_waits {w : Q} {S S' : Handoff T Q} {i : ℕ} (h : S.proceed w i = some S') :
    S'.waits = S.waits ∨ S.waits.next (.wake w .one) = some S'.waits := by
  simp only [Handoff.proceed] at h
  split at h
  · cases h
  · split at h
    · cases h
      exact Or.inl rfl
    · cases h
      exact Or.inl rfl
    · obtain ⟨S₁, hover, rfl⟩ := Option.map_eq_some_iff.mp h
      exact (handOver_spec hover).1
    · cases h
      exact Or.inl rfl
    · cases h
      split <;> exact Or.inl rfl
    · cases h
      exact Or.inl rfl
    · cases h
      split <;> exact Or.inl rfl
    · obtain ⟨S₁, hover, rfl⟩ := Option.map_eq_some_iff.mp h
      exact (handOver_spec hover).1

theorem handoffLine_step (w : Q) {S S' : Handoff T Q} {act : HandoffAct T Q} (h : S.next w act = some S') :
    S'.waits = S.waits ∨ ∃ a, S.waits.next a = some S'.waits ∧ ∀ t cancel, Turns.armOf a = some t →
      S.waits.place t = .arming w cancel → (handoffLine w).arms S act = some t := by
  cases Handoff.effect_of_next h with
  | @waits a v _ hv => exact Or.inr ⟨a, hv, fun t cancel ha _ => ha⟩
  | proceed h =>
      rcases proceed_waits h with hsame | hwake
      · exact Or.inl hsame
      · exact step_of_not_arm hwake rfl
  | wait _ _ hv | pollMarked _ _ hv | pollTakes _ _ hv | pollFinds _ _ hv | again _ _ hv | reply _ hv =>
      exact step_of_not_arm hv rfl
  | _ => exact Or.inl rfl

/-- **A token is given to the first on the queue.** -/
theorem handoffLine_lawful (w : Q) (total : ℕ) :
    Turns.Lawful (handoffLine w : Line T Q (Handoff T Q) (HandoffAct T Q)) (Handoff.Inv w total) where
  keeps := fun _ _ _ hi h => hi.next h
  nodes := fun _ hi => hi.nodes
  cancel := fun _ hi => hi.cancel
  step := fun _ _ _ _ h => handoffLine_step w h
  first := by
    intro S act S' hi h hgives
    cases act with
    | proceed i =>
        have hstep : S.proceed w i = some S' := h
        replace hgives : S.releasing[i]?.any (fun r => r.place.gives (S.waits.queue w).isEmpty) = true := hgives
        show ((S.waits.queue w).head?.map Prod.fst).filter S'.handed = (S.waits.queue w).head?.map Prod.fst
        cases hr : S.releasing[i]? with
        | none =>
            rw [hr] at hgives
            cases hgives
        | some r =>
            obtain ⟨place, giver⟩ := r
            rw [hr] at hgives
            replace hgives : place.gives (S.waits.queue w).isEmpty = true := hgives
            simp only [Handoff.proceed, hr] at hstep
            cases place with
            | looking tokens =>
                cases tokens with
                | zero => cases hgives
                | succ k =>
                    rw [List.isEmpty_iff.1 hgives]
                    rfl
            | handing left =>
                cases left with
                | zero => cases hgives
                | succ k =>
                    obtain ⟨S₁, hover, rfl⟩ := Option.map_eq_some_iff.mp hstep
                    exact (handOver_spec hover).2
            | reclaimed left =>
                obtain ⟨S₁, hover, rfl⟩ := Option.map_eq_some_iff.mp hstep
                exact (handOver_spec hover).2
            | _ => cases hgives
    | _ => cases hgives

/-! ### In turn -/

/-- **Mutexes and tokens are given in turn while the waiters are in line.**  In every run of the mutexes, and
in every run of a semaphore that hands over, in which each step finds the waiters in line: every unlock and
every release gives to the waiter who comes first, by base priority and then by the time at which it first
armed for its call, and gives to nobody only if nobody waits. -/
theorem given_in_turn :
    (∀ (m : M) (idle : ∀ c, T c) (basePriority : ∀ c, T c → Level) (threads : ∀ c, List (T c))
        (acts : List (MutexAct T M Q)) (S : Turns T (Mutexes T M Q)),
      Meets (Turns.next (mutexLine m)) (Turns.inLine (mutexLine m))
        (Turns.boot (Mutexes.boot idle basePriority threads)) acts →
      run (Turns.next (mutexLine m)) (Turns.boot (Mutexes.boot idle basePriority threads)) acts = some S →
      ∀ g ∈ S.grants, g.Fair) ∧
    ∀ (w : Q) (idle : ∀ c, T c) (basePriority : ∀ c, T c → Level) (threads : ∀ c, List (T c)) (initial : ℕ)
        (acts : List (HandoffAct T Q)) (S : Turns T (Handoff T Q)),
      Meets (Turns.next (handoffLine w)) (Turns.inLine (handoffLine w))
        (Turns.boot (Handoff.boot idle basePriority threads initial)) acts →
      run (Turns.next (handoffLine w)) (Turns.boot (Handoff.boot idle basePriority threads initial)) acts =
        some S →
      ∀ g ∈ S.grants, g.Fair := by
  refine ⟨fun m idle basePriority threads acts S hok hrun => ?_,
    fun w idle basePriority threads initial acts S hok hrun => ?_⟩
  · exact (mutexLine_lawful m).grants_fair (Mutexes.inv_boot idle basePriority threads) rfl hok hrun
  · exact (handoffLine_lawful w initial).grants_fair (Handoff.inv_boot idle basePriority threads) rfl hok hrun

section Runs

/-- The thread of each of three cores. -/
def worker (c : Fin 3) : Σ _ : Fin 3, Fin 2 := ⟨c, 1⟩

/-- All three have one priority. -/
def equals (_ : Fin 3) (t : Fin 2) : Level := if t = 0 then 31 else 5

def equalMutexes : Turns (fun _ : Fin 3 => Fin 2) (Mutexes (fun _ : Fin 3 => Fin 2) Unit Empty) :=
  Turns.boot (Mutexes.boot (fun _ => 0) equals fun _ => [1])

def equalTokens : Turns (fun _ : Fin 3 => Fin 2) (Handoff (fun _ : Fin 3 => Fin 2) Unit) :=
  Turns.boot (Handoff.boot (fun _ => 0) equals (fun _ => [1]) 0)

/-- An interrupt resumes the thread of its core. -/
def resumes {Q : Type} (c : Fin 3) : List (WaitAct (fun _ : Fin 3 => Fin 2) Q) :=
  [.core c .irqEnter, .core c (.wake 1 .automatic), .core c .wakeClear, .core c .wakeLook,
    .core c (.wakeReady (fun _ => 0) .interrupt), .core c .irqReturn]

/-- The thread of core 0 locks the mutex, and those of cores 1 and 2 park on it, one after the other. -/
def twoPark : List (MutexAct (fun _ : Fin 3 => Fin 2) Unit Empty) :=
  [.lock (worker 0) (), .attempt (worker 0)] ++ List.replicate 4 (.register (worker 0)) ++
    [worker 1, worker 2].flatMap fun t => [.lock t (), .attempt t, .loop t, .arm t, .poll t,
      .waits (.pass t (.commit fun _ => 0))]

/-- The first of them is resumed, and goes round its loop. -/
def goesRound : List (MutexAct (fun _ : Fin 3 => Fin 2) Unit Empty) :=
  (resumes 1).map .waits ++ [.disarm (worker 1), .loop (worker 1), .arm (worker 1)]

/-- The owner unlocks, up to the write of the owner word. -/
def unlocks : List (MutexAct (fun _ : Fin 3 => Fin 2) Unit Empty) :=
  .unlock (worker 0) () :: List.replicate 5 (.release (worker 0))

/-- The threads of cores 1 and 2 park on the semaphore, one after the other. -/
def twoWait : List (HandoffAct (fun _ : Fin 3 => Fin 2) Unit) :=
  [worker 1, worker 2].flatMap fun t => [.wait t none, .waits (.pass t .arm), .poll t false,
    .waits (.pass t (.commit fun _ => 0))]

/-- The first of them is resumed, and goes round its loop. -/
def waitsAgain : List (HandoffAct (fun _ : Fin 3 => Fin 2) Unit) :=
  (resumes 1).map .waits ++ [.waits (.pass (worker 1) .disarm), .mark (worker 1), .pollUnarmed (worker 1),
    .again (worker 1), .waits (.pass (worker 1) .arm)]

/-- A token is released, and handed over. -/
def releasesOne : List (HandoffAct (fun _ : Fin 3 => Fin 2) Unit) := [.release 1, .proceed 0, .proceed 0]

/-- What was given, and how long the threads of cores 1 and 2 had waited for it. -/
def given {σ : Type} (S : Turns (fun _ : Fin 3 => Fin 2) σ) :
    List (Option (ℕ × ℕ) × Option (ℕ × ℕ) × Option (ℕ × ℕ)) :=
  S.grants.map fun g => (g.chosen, g.waiting (worker 1), g.waiting (worker 2))

/-- Without the resume both runs are in line: the first to arm is given the mutex, and the token. -/
theorem given_in_turn_two_waiters :
    (∃ S, run (Turns.next (mutexLine ())) equalMutexes (twoPark ++ unlocks) = some S ∧
      given S = [(some (5, 9), some (5, 9), some (5, 15))] ∧ ∀ g ∈ S.grants, g.Fair) ∧
    ∃ S, run (Turns.next (handoffLine ())) equalTokens (twoWait ++ releasesOne) = some S ∧
      given S = [(some (5, 1), some (5, 1), some (5, 5))] ∧ ∀ g ∈ S.grants, g.Fair := by
  have hmutex : (run (Turns.next (mutexLine ())) equalMutexes (twoPark ++ unlocks)).map given =
      some [(some (5, 9), some (5, 9), some (5, 15))] := rfl
  have htoken : (run (Turns.next (handoffLine ())) equalTokens (twoWait ++ releasesOne)).map given =
      some [(some (5, 1), some (5, 1), some (5, 5))] := rfl
  obtain ⟨S, hS, hgiven⟩ := Option.map_eq_some_iff.mp hmutex
  obtain ⟨R, hR, hgivenR⟩ := Option.map_eq_some_iff.mp htoken
  exact ⟨⟨S, hS, hgiven, given_in_turn.1 () _ _ _ _ S (by decide +kernel) hS⟩,
    ⟨R, hR, hgivenR, (given_in_turn (M := Unit)).2 () _ _ _ _ _ R (by decide +kernel) hR⟩⟩

/-- A gift to one who armed later, with another of its priority waiting. -/
theorem not_fair_of_later {T : Fin n → Type} {g : Grant T} {t : Σ c, T c} {p x y : ℕ}
    (hchosen : g.chosen = some (p, y)) (ht : g.waiting t = some (p, x)) (hlt : x < y) : ¬ g.Fair := by
  intro hfair
  obtain ⟨p', y', hsome, hle⟩ := hfair t p x ht
  rw [hchosen] at hsome
  cases hsome
  omega

theorem exists_later {σ : Type} {S : Turns (fun _ : Fin 3 => Fin 2) σ} {x y : ℕ}
    (h : given S = [(some (5, y), some (5, x), some (5, y))]) (hlt : x < y) : ∃ g ∈ S.grants, ¬ g.Fair := by
  have hmem : (some (5, y), some (5, x), some (5, y)) ∈ given S := by
    rw [h]
    exact List.mem_cons_self
  obtain ⟨g, hg, heq⟩ := List.mem_map.1 hmem
  simp only [Prod.mk.injEq] at heq
  exact ⟨g, hg, not_fair_of_later heq.1 heq.2.1 hlt⟩

/-- **A resume costs a waiter its turn.**  The thread of core 1 armed before that of core 2; it is resumed,
goes round its loop, and the mutex and the token are given to the other. -/
theorem woken_loses_turn :
    (∃ S, run (Turns.next (mutexLine ())) equalMutexes (twoPark ++ goesRound ++ unlocks) = some S ∧
      S.base.owner () = some (worker 2) ∧ given S = [(some (5, 15), some (5, 9), some (5, 15))] ∧
      ∃ g ∈ S.grants, ¬ g.Fair) ∧
    ∃ S, run (Turns.next (handoffLine ())) equalTokens (twoWait ++ waitsAgain ++ releasesOne) = some S ∧
      S.base.handed (worker 2) = true ∧ given S = [(some (5, 5), some (5, 1), some (5, 5))] ∧
      ∃ g ∈ S.grants, ¬ g.Fair := by
  have hmutex : (run (Turns.next (mutexLine ())) equalMutexes (twoPark ++ goesRound ++ unlocks)).map
      (fun S => (S.base.owner (), given S)) =
      some (some (worker 2), [(some (5, 15), some (5, 9), some (5, 15))]) := rfl
  have htoken : (run (Turns.next (handoffLine ())) equalTokens (twoWait ++ waitsAgain ++ releasesOne)).map
      (fun S => (S.base.handed (worker 2), given S)) =
      some (true, [(some (5, 5), some (5, 1), some (5, 5))]) := rfl
  obtain ⟨S, hS, hview⟩ := Option.map_eq_some_iff.mp hmutex
  obtain ⟨R, hR, hviewR⟩ := Option.map_eq_some_iff.mp htoken
  obtain ⟨howner, hgiven⟩ := Prod.mk.inj hview
  obtain ⟨hhanded, hgivenR⟩ := Prod.mk.inj hviewR
  exact ⟨⟨S, hS, howner, hgiven, exists_later hgiven (by decide)⟩,
    ⟨R, hR, hhanded, hgivenR, exists_later hgivenR (by decide)⟩⟩

end Runs

end Cyros.Sync
