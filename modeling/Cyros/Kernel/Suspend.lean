import Cyros.Kernel.WaitSteps
import Mathlib.Data.List.Pairwise

/-!
# Suspend and resume

`this_thread::suspend` is the two-phase block with nothing to arm: the thread says that it is prepared to
block, looks for its token, and takes it and returns, or parks if it is still prepared.  `thread::resume`
puts the token up and then calls `global_ready_thread`, from any core, by a thread or an interrupt.

* The cores, with preemption, interrupts and the intake, are those of `Waits`, and so are the other waits of
  every thread and their wakes, late ones too.
* The token is loaded and stored in single steps.  A resume may come between any two of them.

`resumes` counts the token stores of the resumes of a thread.  A return of `suspend` is logged with what that
count was when it took the token, so a resume with a smaller number had put the token up before.
-/

namespace Cyros.Kernel

open Cyros.Lib

/-- Where a thread stands in `suspend`. -/
inductive SuspendPlace where
  | out
  /-- Prepared, before it looks. -/
  | looking
  /-- It has found the token up. -/
  | taking
  /-- It has taken the token, `landed` resumes having stored it. -/
  | leaving (landed : ℕ)
  /-- It has found the token down. -/
  | committing
  /-- In `commit_to_block`, or back from it. -/
  | parked
  deriving DecidableEq

structure Suspends {n : ℕ} (T : Fin n → Type) (Q : Type) where
  waits : Waits T Q
  token : (Σ c, T c) → Bool
  place : (Σ c, T c) → SuspendPlace
  /-- The token stores of resumes. -/
  resumes : (Σ c, T c) → ℕ
  /-- For each return, last first, the resumes that had stored the token when it was taken. -/
  returns : (Σ c, T c) → List ℕ

inductive SuspendAct {n : ℕ} (T : Fin n → Type) (Q : Type) where
  /-- A step that is no part of `suspend` or of a resume's token store. -/
  | waits (act : WaitAct T Q)
  /-- The token store of a resume; the call follows, as one of `waits`. -/
  | resume (t : Σ c, T c)
  | prepare (t : Σ c, T c)
  | look (t : Σ c, T c)
  | take (t : Σ c, T c)
  | settle (t : Σ c, T c)
  | commit (t : Σ c, T c) (fold : T t.1 → ℕ)

namespace Suspends

variable {n : ℕ} {T : Fin n → Type} {Q : Type}
variable [∀ c, DecidableEq (T c)] [DecidableEq Q]

/-- A thread in `suspend` does nothing else, and blocks by the steps below. -/
def allows (S : Suspends T Q) : WaitAct T Q → Bool
  | .core _ .prepare | .core _ .unprepare | .core _ (.commitToBlock _) => false
  | .core c .threadExit => (S.waits.cores c).runningThread.all fun t => S.place ⟨c, t⟩ == .out
  | .pass t _ => S.place t == .out
  | _ => true

def setPlace (S : Suspends T Q) (t : Σ c, T c) (p : SuspendPlace) : Suspends T Q :=
  { S with place := Function.update S.place t p }

variable [∀ c, Fintype (T c)]

def waitStep (S : Suspends T Q) (act : WaitAct T Q) : Option (Suspends T Q) :=
  (S.waits.next act).map fun v => { S with waits := v }

/-- **One step.** -/
def next (S : Suspends T Q) : SuspendAct T Q → Option (Suspends T Q)
  | .waits act => if S.allows act then S.waitStep act else none
  | .resume t => some { S with
      token := Function.update S.token t true
      resumes := Function.update S.resumes t (S.resumes t + 1)
      waits := { S.waits with called := t :: S.waits.called } }
  | .prepare t =>
      if S.waits.executes t ∧ (S.place t = .out ∨ S.place t = .parked) then
        (S.waitStep (.core t.1 .prepare)).map (·.setPlace t .looking)
      else none
  | .look t =>
      if S.waits.executes t ∧ S.place t = .looking then
        some (S.setPlace t (if S.token t then .taking else .committing))
      else none
  | .take t =>
      if S.waits.executes t ∧ S.place t = .taking then
        some { S with
          token := Function.update S.token t false
          place := Function.update S.place t (.leaving (S.resumes t)) }
      else none
  | .settle t => match S.place t with
    | .leaving landed =>
        if S.waits.executes t then
          (S.waitStep (.core t.1 .unprepare)).map fun S' => { S' with
            place := Function.update S.place t .out
            returns := Function.update S.returns t (landed :: S.returns t) }
        else none
    | _ => none
  | .commit t fold =>
      if S.waits.executes t ∧ S.place t = .committing then
        (S.waitStep (.core t.1 (.commitToBlock fold))).map (·.setPlace t .parked)
      else none

def boot (idle : ∀ c, T c) (basePriority : ∀ c, T c → Level) (threads : ∀ c, List (T c)) :
    Suspends T Q where
  waits := Waits.boot idle basePriority threads
  token := fun _ => false
  place := fun _ => .out
  resumes := fun _ => 0
  returns := fun _ => []

/-! ### What holds between steps -/

/-- The takes of the thread, last first: those that have returned, and the one that is about to. -/
def takes (S : Suspends T Q) (t : Σ c, T c) : List ℕ :=
  match S.place t with
  | .leaving landed => landed :: S.returns t
  | _ => S.returns t

/-- **Takes and resumes.**  Every take has a resume of its own, that no earlier take had; while the token is
up the last resume has yet to be answered, and while it is down all have been. -/
structure Books (token : Bool) (resumes : ℕ) (takes : List ℕ) : Prop where
  own : takes.Pairwise (· > ·)
  pos : ∀ r ∈ takes, 0 < r
  up : token = true → ∀ r ∈ takes, r < resumes
  fresh : token = true → 0 < resumes
  down : token = false → resumes = 0 ∨ resumes ∈ takes
  le : ∀ r ∈ takes, r ≤ resumes

theorem Books.resume {token : Bool} {resumes : ℕ} {takes : List ℕ} (h : Books token resumes takes) :
    Books true (resumes + 1) takes where
  own := h.own
  pos := h.pos
  up := fun _ r hr => Nat.lt_succ_of_le (h.le r hr)
  fresh := fun _ => Nat.succ_pos resumes
  down := nofun
  le := fun r hr => Nat.le_succ_of_le (h.le r hr)

theorem Books.take {resumes : ℕ} {takes : List ℕ} (h : Books true resumes takes) :
    Books false resumes (resumes :: takes) where
  own := List.pairwise_cons.2 ⟨fun r hr => h.up rfl r hr, h.own⟩
  pos := List.forall_mem_cons.2 ⟨h.fresh rfl, h.pos⟩
  up := nofun
  fresh := nofun
  down := fun _ => Or.inr List.mem_cons_self
  le := List.forall_mem_cons.2 ⟨le_rfl, h.le⟩

/-- **A token that came after the look has its wake still to come.** -/
structure Inv (S : Suspends T Q) : Prop where
  waits : S.waits.Inv
  live : ∀ t, S.place t ≠ .out → (S.waits.cores t.1).sched.Live t.2
  taking : ∀ t, S.place t = .taking → S.token t = true
  owed : ∀ t, S.place t = .committing ∨ S.place t = .parked → S.token t = true → S.waits.Owed t
  books : ∀ t, Books (S.token t) (S.resumes t) (S.takes t)

omit [DecidableEq Q] in
theorem inv_boot (idle : ∀ c, T c) (basePriority : ∀ c, T c → Level) (threads : ∀ c, List (T c)) :
    Inv (boot idle basePriority threads : Suspends T Q) where
  waits := Waits.inv_boot idle basePriority threads
  live := fun _ h => absurd rfl h
  taking := nofun
  owed := nofun
  books := fun _ => ⟨List.Pairwise.nil, nofun, nofun, nofun, fun _ => Or.inl rfl, nofun⟩

variable {S S' : Suspends T Q}

omit [∀ c, DecidableEq (T c)] [DecidableEq Q] [∀ c, Fintype (T c)] in
theorem takes_of_ne {t : Σ c, T c} (h : ∀ landed, S.place t ≠ .leaving landed) : S.takes t = S.returns t := by
  unfold takes
  split
  · next landed hp => exact absurd hp (h landed)
  · rfl

omit [∀ c, Fintype (T c)] in
/-- The allowed steps of the waits begin no pass and no exit of a thread in `suspend`. -/
theorem allows_not_own {act : WaitAct T Q} (hallow : S.allows act = true) {t : Σ c, T c}
    (hin : S.place t ≠ .out) (a : CoreAct (T t.1)) (hact : Waits.CoreActOf S.waits act t.1 a)
    (ha : a = .prepare ∨ a = .threadExit) : (S.waits.cores t.1).runningThread ≠ some t.2 := by
  intro hrun
  obtain ⟨c, x⟩ := t
  cases hact with
  | core c a hown =>
      rcases ha with rfl | rfl
      · cases hallow
      · simp only [allows, hrun, Option.all_some, beq_iff_eq] at hallow
        exact hin hallow
  | prepare u w cancel hexec =>
      simp only [allows, beq_iff_eq] at hallow
      have hu : (S.waits.cores u.1).runningThread = some u.2 := by simpa [Waits.executes] using hexec
      obtain rfl : x = u.2 := Option.some.inj (hrun.symm.trans hu)
      exact hin hallow
  | unprepare | commit | file | call | post => rcases ha with h | h <;> cases h

/-- A step of the waits that is nobody's next `prepare` or exit in `suspend`. -/
theorem Inv.waitStep (hi : Inv S) {act : WaitAct T Q} {v : Waits T Q} (h : S.waits.next act = some v)
    (hown : ∀ t, S.place t ≠ .out → ∀ a : CoreAct (T t.1), Waits.CoreActOf S.waits act t.1 a →
      a = .prepare ∨ a = .threadExit → (S.waits.cores t.1).runningThread ≠ some t.2) :
    Inv { S with waits := v } where
  waits := hi.waits.next h
  live := fun t ht => (Waits.Owed.next hi.waits h (hi.live t ht) (hown t ht)).1
  taking := hi.taking
  owed := fun t hp htoken => by
    have hin : S.place t ≠ .out := by
      rcases hp with hp | hp
      · exact ne_of_eq_of_ne hp (by simp)
      · exact ne_of_eq_of_ne hp (by simp)
    exact (Waits.Owed.next hi.waits h (hi.live t hin) (hown t hin)).2 (hi.owed t hp htoken)
  books := hi.books

omit [DecidableEq Q] [∀ c, Fintype (T c)] in
/-- The thread moves on in `suspend`, with no take. -/
theorem Inv.setPlace (hi : Inv S) {t : Σ c, T c} {p : SuspendPlace}
    (hlive : p ≠ .out → (S.waits.cores t.1).sched.Live t.2) (htakes : ∀ landed, S.place t ≠ .leaving landed)
    (hp : ∀ landed, p ≠ .leaving landed) (htaking : p = .taking → S.token t = true)
    (howed : p = .committing ∨ p = .parked → S.token t = true → S.waits.Owed t) :
    Inv (S.setPlace t p) where
  waits := hi.waits
  live := fun u hu => by
    by_cases hut : u = t
    · subst hut
      exact hlive (by simpa [Suspends.setPlace] using hu)
    · exact hi.live u (by simpa [Suspends.setPlace, hut] using hu)
  taking := fun u hu => by
    by_cases hut : u = t
    · subst hut
      exact htaking (by simpa [Suspends.setPlace] using hu)
    · exact hi.taking u (by simpa [Suspends.setPlace, hut] using hu)
  owed := fun u hu => by
    by_cases hut : u = t
    · subst hut
      exact howed (by simpa [Suspends.setPlace] using hu)
    · exact hi.owed u (by simpa [Suspends.setPlace, hut] using hu)
  books := fun u => by
    by_cases hut : u = t
    · subst hut
      have hbooks := hi.books u
      rw [takes_of_ne htakes] at hbooks
      rw [takes_of_ne fun landed => by simpa [Suspends.setPlace] using hp landed]
      exact hbooks
    · simpa [takes, Suspends.setPlace, hut] using hi.books u

omit [DecidableEq Q] [∀ c, Fintype (T c)] in
/-- **The token store of a resume**: the wake is to come. -/
theorem Inv.resume (hi : Inv S) (t : Σ c, T c) :
    Inv { S with
      token := Function.update S.token t true
      resumes := Function.update S.resumes t (S.resumes t + 1)
      waits := { S.waits with called := t :: S.waits.called } } where
  waits := ⟨hi.waits.core, hi.waits.posted, hi.waits.live, fun u q slot hmem hgone =>
    (hi.waits.owed u q slot hmem hgone).imp_left (List.mem_cons_of_mem t)⟩
  live := hi.live
  taking := fun u hu => by
    by_cases hut : u = t
    · subst hut
      exact Function.update_self ..
    · show Function.update S.token t true u = true
      rw [Function.update_of_ne hut]
      exact hi.taking u hu
  owed := fun u hu htoken => by
    by_cases hut : u = t
    · subst hut
      exact Or.inl List.mem_cons_self
    · have htoken : S.token u = true := by simpa [hut] using htoken
      exact (hi.owed u hu htoken).imp_left (List.mem_cons_of_mem t)
  books := fun u => by
    show Books (Function.update S.token t true u) (Function.update S.resumes t _ u) (S.takes u)
    by_cases hut : u = t
    · subst hut
      rw [Function.update_self, Function.update_self]
      exact (hi.books u).resume
    · rw [Function.update_of_ne hut, Function.update_of_ne hut]
      exact hi.books u

omit [DecidableEq Q] [∀ c, Fintype (T c)] in
/-- **The take.** -/
theorem Inv.take (hi : Inv S) {t : Σ c, T c} (hp : S.place t = .taking) :
    Inv { S with
      token := Function.update S.token t false
      place := Function.update S.place t (.leaving (S.resumes t)) } where
  waits := hi.waits
  live := fun u hu => by
    by_cases hut : u = t
    · subst hut
      exact hi.live u (by simp [hp])
    · exact hi.live u (by simpa [hut] using hu)
  taking := fun u hu => by
    by_cases hut : u = t
    · simp [hut] at hu
    · simpa [hut] using hi.taking u (by simpa [hut] using hu)
  owed := fun u hu htoken => by
    by_cases hut : u = t
    · simp [hut] at htoken
    · exact hi.owed u (by simpa [hut] using hu) (by simpa [hut] using htoken)
  books := fun u => by
    by_cases hut : u = t
    · subst hut
      have hbooks := hi.books u
      rw [hi.taking u hp, show S.takes u = S.returns u by simp [takes, hp]] at hbooks
      simpa [takes] using hbooks.take
    · simpa [takes, hut] using hi.books u

omit [DecidableEq Q] [∀ c, Fintype (T c)] in
/-- **The return.** -/
theorem Inv.leave (hi : Inv S) {t : Σ c, T c} {landed : ℕ} (hp : S.place t = .leaving landed) :
    Inv { S with
      place := Function.update S.place t .out
      returns := Function.update S.returns t (landed :: S.returns t) } where
  waits := hi.waits
  live := fun u hu => by
    by_cases hut : u = t
    · simp [hut] at hu
    · exact hi.live u (by simpa [hut] using hu)
  taking := fun u hu => by
    by_cases hut : u = t
    · simp [hut] at hu
    · exact hi.taking u (by simpa [hut] using hu)
  owed := fun u hu htoken => by
    by_cases hut : u = t
    · simp [hut] at hu
    · exact hi.owed u (by simpa [hut] using hu) htoken
  books := fun u => by
    by_cases hut : u = t
    · subst hut
      have hbooks := hi.books u
      rw [show S.takes u = landed :: S.returns u by simp [takes, hp]] at hbooks
      simpa [takes] using hbooks
    · simpa [takes, hut] using hi.books u

omit [DecidableEq Q] [∀ c, Fintype (T c)] in
theorem executes_iff {S : Waits T Q} {t : Σ c, T c} :
    S.executes t = true ↔ (S.cores t.1).runningThread = some t.2 := by
  simp [Waits.executes]

omit [∀ c, Fintype (T c)] in
theorem coreActOf_core {S : Waits T Q} {c d : Fin n} {act : CoreAct (T c)} {a : CoreAct (T d)}
    (h : Waits.CoreActOf S (.core c act) d a) (ha : a = .prepare ∨ a = .threadExit) :
    act = .prepare ∨ act = .threadExit := by
  cases h
  exact ha

omit [∀ c, Fintype (T c)] in
/-- A core's step by the thread itself is nobody else's. -/
theorem not_own_of_executes {t u : Σ c, T c} {act : CoreAct (T t.1)} (hexec : S.waits.executes t = true)
    (hu : u ≠ t) (a : CoreAct (T u.1)) (hact : Waits.CoreActOf S.waits (.core t.1 act) u.1 a) :
    (S.waits.cores u.1).runningThread ≠ some u.2 := by
  intro hrun
  rw [executes_iff] at hexec
  obtain ⟨c, x⟩ := t
  obtain ⟨d, y⟩ := u
  cases hact
  obtain rfl : y = x := Option.some.inj (hrun.symm.trans hexec)
  exact hu rfl

/-- Another pass begins, or the first: what was said of the token is settled by the look that follows. -/
theorem Inv.prepare (hi : Inv S) {t : Σ c, T c} {v : Waits T Q} (hexec : S.waits.executes t = true)
    (hp : S.place t = .out ∨ S.place t = .parked) (h : S.waits.next (.core t.1 .prepare) = some v) :
    Inv (Suspends.setPlace { S with waits := v } t .looking) := by
  have htakes : ∀ landed, S.place t ≠ .leaving landed := by
    intro landed he
    rcases hp with hp | hp <;> cases hp.symm.trans he
  have hout : Inv (S.setPlace t .out) :=
    hi.setPlace (fun hne => absurd rfl hne) htakes (by simp) (by simp) (by simp)
  have hstep := hout.waitStep h fun u hu a hact _ =>
    not_own_of_executes hexec (fun he => hu (by simp [Suspends.setPlace, he])) a hact
  have hlive : (v.cores t.1).sched.Live t.2 := by
    cases Waits.effect_of_next h with
    | core _ hk => simpa [Waits.setCore] using Waits.live_prepare (hi.waits.core t.1) (executes_iff.1 hexec) hk
  have hlook := hstep.setPlace (t := t) (p := .looking) (fun _ => hlive)
    (fun landed => by simp [Suspends.setPlace]) (by simp) (by simp) (by simp)
  simpa [Suspends.setPlace] using hlook

theorem Inv.next (hi : Inv S) {act : SuspendAct T Q} (h : S.next act = some S') : Inv S' := by
  cases act with
  | waits act =>
      simp only [Suspends.next] at h
      split at h
      · next hallow =>
        obtain ⟨v, hv, rfl⟩ := Option.map_eq_some_iff.mp h
        exact hi.waitStep hv fun t ht => allows_not_own hallow ht
      · cases h
  | resume t =>
      cases h
      exact hi.resume t
  | prepare t =>
      simp only [Suspends.next] at h
      split at h
      · next hg =>
        obtain ⟨S₁, hstep, rfl⟩ := Option.map_eq_some_iff.mp h
        obtain ⟨v, hv, rfl⟩ := Option.map_eq_some_iff.mp hstep
        exact hi.prepare hg.1 hg.2 hv
      · cases h
  | look t =>
      simp only [Suspends.next] at h
      split at h
      · next hg =>
        cases h
        have hlive := hi.live t (by simp [hg.2])
        have htakes : ∀ landed, S.place t ≠ .leaving landed := by
          intro landed he
          cases hg.2.symm.trans he
        split
        · next htoken => exact hi.setPlace (fun _ => hlive) htakes (by simp) (fun _ => htoken) (by simp)
        · next htoken =>
          exact hi.setPlace (fun _ => hlive) htakes (by simp) (by simp) fun _ hup => absurd hup htoken
      · cases h
  | take t =>
      simp only [Suspends.next] at h
      split at h
      · next hg =>
        cases h
        exact hi.take hg.2
      · cases h
  | settle t =>
      simp only [Suspends.next] at h
      split at h
      · next landed hp =>
        split at h
        · obtain ⟨S₁, hstep, rfl⟩ := Option.map_eq_some_iff.mp h
          obtain ⟨v, hv, rfl⟩ := Option.map_eq_some_iff.mp hstep
          have hi₁ := hi.waitStep hv fun u hu a hact ha => by
            rcases coreActOf_core hact ha with he | he <;> cases he
          exact hi₁.leave hp
        · cases h
      · cases h
  | commit t fold =>
      simp only [Suspends.next] at h
      split at h
      · next hg =>
        obtain ⟨S₁, hstep, rfl⟩ := Option.map_eq_some_iff.mp h
        obtain ⟨v, hv, rfl⟩ := Option.map_eq_some_iff.mp hstep
        have hi₁ := hi.waitStep hv fun u hu a hact ha => by
          rcases coreActOf_core hact ha with he | he <;> cases he
        refine hi₁.setPlace (fun _ => hi₁.live t ?_) ?_ (by simp) (by simp)
          fun _ htoken => hi₁.owed t (Or.inl hg.2) htoken
        · show S.place t ≠ .out
          rw [hg.2]
          simp
        · intro landed he
          cases hg.2.symm.trans he
      · cases h

/-- **Suspend and resume.**  In every state of every run, for every thread: each return of `suspend` took a
token that a resume had put up and no earlier return had taken; a thread parked in `suspend` with its token up
has a `make_ready` owed to it; and every resume has been answered by a return that took the token after its
store, or by one that is about to return, or the token is still up. -/
theorem suspend_resume (idle : ∀ c, T c) (basePriority : ∀ c, T c → Level) (threads : ∀ c, List (T c))
    (acts : List (SuspendAct T Q)) (hrun : run next (boot idle basePriority threads) acts = some S)
    (t : Σ c, T c) :
    ((S.returns t).Pairwise (· > ·) ∧ ∀ r ∈ S.returns t, 0 < r ∧ r ≤ S.resumes t) ∧
      (S.place t = .parked → (S.waits.cores t.1).sched.state t.2 = .blocked → S.token t = true →
        S.waits.MakeReadyOwed t) ∧
      ∀ i < S.resumes t, (∃ r ∈ S.returns t, i < r) ∨ (∃ r, S.place t = .leaving r ∧ i < r) ∨
        S.token t = true := by
  have hi : Inv S := run_invariant (I := Inv) (fun _ _ _ hi h => hi.next h)
    (inv_boot idle basePriority threads) hrun
  have hbooks := hi.books t
  have hreturns : ∀ r ∈ S.returns t, r ∈ S.takes t := by
    intro r hr
    unfold takes
    split
    · exact List.mem_cons_of_mem _ hr
    · exact hr
  refine ⟨⟨?_, fun r hr => ⟨hbooks.pos r (hreturns r hr), hbooks.le r (hreturns r hr)⟩⟩, ?_, ?_⟩
  · have hown := hbooks.own
    unfold takes at hown
    split at hown
    · exact (List.pairwise_cons.1 hown).2
    · exact hown
  · intro hp hblocked htoken
    exact hi.waits.makeReadyOwed_of_owed hblocked (hi.owed t (Or.inr hp) htoken)
  · intro i hlt
    by_cases htoken : S.token t = true
    · exact Or.inr (Or.inr htoken)
    · have hmem : S.resumes t ∈ S.takes t := by
        rcases hbooks.down (by simpa using htoken) with hzero | hmem
        · omega
        · exact hmem
      unfold takes at hmem
      split at hmem
      · next landed hp =>
        rcases List.mem_cons.1 hmem with he | hmem
        · exact Or.inr (Or.inl ⟨landed, hp, he ▸ hlt⟩)
        · exact Or.inl ⟨_, hmem, hlt⟩
      · exact Or.inl ⟨_, hmem, hlt⟩

/-- Two cores with a thread each: thread `1` of core `0` is resumed before it suspends and returns at once,
suspends again and parks, and core `1` resumes it, with the late wake of the first resume on its way. -/
def resumedTwice : List (SuspendAct (fun _ : Fin 2 => Fin 2) Unit) :=
  [.resume ⟨0, 1⟩, .prepare ⟨0, 1⟩, .look ⟨0, 1⟩, .take ⟨0, 1⟩, .settle ⟨0, 1⟩, .prepare ⟨0, 1⟩, .look ⟨0, 1⟩,
    .commit ⟨0, 1⟩ fun _ => 0, .resume ⟨0, 1⟩, .waits (.call 1 ⟨0, 1⟩ .automatic)]

theorem suspend_resume_resumedTwice :
    ∃ S : Suspends (fun _ : Fin 2 => Fin 2) Unit,
      run next (boot (fun _ => 0) (fun _ t => if t = 0 then 31 else 5) fun _ => [1]) resumedTwice = some S ∧
        S.returns ⟨0, 1⟩ = [1] ∧ S.place ⟨0, 1⟩ = .parked ∧ (S.waits.cores 0).sched.state 1 = .blocked ∧
        S.token ⟨0, 1⟩ = true ∧ S.waits.MakeReadyOwed ⟨0, 1⟩ := by
  have heval : (run next (boot (fun _ => 0) (fun _ t => if t = 0 then 31 else 5) fun _ => [1])
      resumedTwice).map (fun S => (S.returns ⟨0, 1⟩, S.place ⟨0, 1⟩, (S.waits.cores 0).sched.state 1,
        S.token ⟨0, 1⟩)) = some ([1], .parked, .blocked, true) := rfl
  obtain ⟨S, hS, hv⟩ := Option.map_eq_some_iff.mp heval
  simp only [Prod.mk.injEq] at hv
  obtain ⟨hreturns, hplace, hblocked, htoken⟩ := hv
  have hspec := suspend_resume _ _ _ _ hS ⟨0, 1⟩
  exact ⟨S, hS, hreturns, hplace, hblocked, htoken, hspec.2.1 hplace hblocked htoken⟩

end Suspends

end Cyros.Kernel
