import Cyros.Kernel.WaitSteps

/-!
# What the scheduler never writes

Base priorities are written once, at creation, and held masks by mutexes only: the scheduler reads both.
`Core.untouched_next` says which steps of a core write a mask, and `Waits.heldMask_next`, `next_hold` and
`next_commit` which steps of the system.
-/

namespace Cyros.Kernel

open Cyros.Lib.IntrusiveQueue

variable {Tid : Type} [DecidableEq Tid]

namespace Sched

structure Untouched (s s' : Sched Tid) : Prop where
  heldMask : s'.heldMask = s.heldMask
  basePriority : s'.basePriority = s.basePriority

variable {s s' s'' : Sched Tid}

omit [DecidableEq Tid] in
theorem Untouched.refl (s : Sched Tid) : Untouched s s := ⟨rfl, rfl⟩

omit [DecidableEq Tid] in
theorem Untouched.trans (h : Untouched s s') (h' : Untouched s' s'') : Untouched s s'' :=
  ⟨h'.heldMask.trans h.heldMask, h'.basePriority.trans h.basePriority⟩

omit [DecidableEq Tid] in
theorem untouched_unmarkIfEmpty (p : Level) : Untouched s (s.unmarkIfEmpty p) := by
  unfold unmarkIfEmpty
  split <;> exact ⟨rfl, rfl⟩

omit [DecidableEq Tid] in
theorem untouched_setLevel_unmark (p : Level) (l : Linked Tid) :
    Untouched s ((s.setLevel p l).unmarkIfEmpty p) :=
  have h := untouched_unmarkIfEmpty (s := s.setLevel p l) p
  ⟨h.heldMask, h.basePriority⟩

theorem untouched_popBestThread : Untouched s s.popBestThread.2 := by
  unfold popBestThread
  split
  · exact .refl s
  · split
    · exact untouched_setLevel_unmark _ _
    · exact untouched_unmarkIfEmpty _

theorem untouched_linkHolder (t : Tid) : Untouched s (s.linkHolder t) := by
  unfold linkHolder
  split <;> exact ⟨rfl, rfl⟩

theorem untouched_admitThread (t : Tid) (atFront : Bool) : Untouched s (s.admitThread t atFront) := by
  unfold admitThread
  dsimp only
  split
  · exact ⟨rfl, rfl⟩
  · split
    · split <;> exact ⟨rfl, rfl⟩
    · have h := untouched_linkHolder (s := s.setState t .ready) t
      exact ⟨h.heldMask, h.basePriority⟩

variable [Fintype Tid]

theorem untouched_removeThread (t : Tid) : Untouched s (s.removeThread t) := by
  unfold removeThread
  dsimp only
  split
  · exact untouched_setLevel_unmark _ _
  · exact untouched_unmarkIfEmpty _

theorem untouched_unlinkHolder (t : Tid) : Untouched s (s.unlinkHolder t) := by
  unfold unlinkHolder
  split
  · split <;> exact ⟨rfl, rfl⟩
  · exact .refl s

theorem untouched_makeReady (fold : Tid → ℕ) (t : Tid) : Untouched s (s.makeReady fold t).1 := by
  unfold makeReady
  split
  · exact .refl s
  · split
    · split
      · exact (untouched_removeThread t).trans (untouched_linkHolder t)
      · exact .refl s
    · exact untouched_admitThread t false

theorem untouched_pickNext (fold : Tid → ℕ) : Untouched s (s.pickNext fold).2 := by
  obtain ⟨rotor, hpick⟩ := s.pickNext_cases fold
  have hrotor : Untouched s { s with tieRotor := rotor } := ⟨rfl, rfl⟩
  obtain heq | ⟨h, -, heq⟩ := hpick
  · rw [heq]
    exact hrotor.trans untouched_popBestThread
  · rw [heq]
    exact hrotor.trans (untouched_unlinkHolder h)

theorem untouched_runNext (fold : Tid → ℕ) : Untouched s (s.runNext fold) := by
  have hpick := untouched_pickNext (s := s) fold
  unfold runNext
  split
  · next t s₁ heq =>
    rw [heq] at hpick
    exact ⟨hpick.heldMask, hpick.basePriority⟩
  · next s₁ heq =>
    rw [heq] at hpick
    exact ⟨hpick.heldMask, hpick.basePriority⟩

omit [DecidableEq Tid] [Fintype Tid] in
theorem untouched_foldl {f : Sched Tid → Tid → Sched Tid} (hf : ∀ s t, Untouched s (f s t))
    (ts : List Tid) (s : Sched Tid) : Untouched s (ts.foldl f s) := by
  induction ts generalizing s with
  | nil => exact .refl s
  | cons t ts ih => exact (hf s t).trans (ih (f s t))

theorem untouched_globalReadyThread (fold : Tid → ℕ) (t : Tid) :
    Untouched s (s.globalReadyThread fold t) := by
  unfold globalReadyThread
  split
  · exact .refl s
  · have hclear : Untouched s (s.setDisposition t .none) := ⟨rfl, rfl⟩
    dsimp only
    split
    · exact hclear
    · exact hclear.trans (untouched_makeReady fold t)

theorem untouched_depart (fold : Tid → ℕ) (joiners : List Tid) (t : Tid) (reason : Departure) :
    Untouched s (s.depart fold joiners t reason) := by
  cases reason with
  | yielded => exact untouched_admitThread t false
  | preempted => exact untouched_admitThread t true
  | parked => exact ⟨rfl, rfl⟩
  | exited =>
      have hraise : Untouched s { s.setState t .terminated with raised := t :: s.raised } := ⟨rfl, rfl⟩
      exact hraise.trans (untouched_foldl (fun _ j => untouched_globalReadyThread fold j) joiners _)

omit [Fintype Tid] in
theorem untouched_takeRequests_revoke (t : Tid) : Untouched s ((s.takeRequests t).revokePrepared t) := by
  unfold revokePrepared
  split <;> exact ⟨rfl, rfl⟩

theorem untouched_drainIntake (fold : Tid → ℕ) : Untouched s (s.drainIntake fold) := by
  have hempty : Untouched s { s with intake := [] } := ⟨rfl, rfl⟩
  refine hempty.trans (untouched_foldl (fun s t => ?_) s.intake.reverse _)
  unfold serviceIntake
  split
  · exact (untouched_takeRequests_revoke t).trans (untouched_makeReady fold t)
  · exact ⟨rfl, rfl⟩

theorem untouched_decide (fold : Tid → ℕ) (reason : Departure) : Untouched s (s.decide fold reason) := by
  have hdrain := untouched_drainIntake (s := s) fold
  unfold Sched.decide
  dsimp only
  split
  · exact hdrain
  · refine hdrain.trans (Untouched.trans ?_ (untouched_runNext fold))
    split
    · exact untouched_depart fold [] _ reason
    · exact .refl _

theorem untouched_rescheduleGuarded {fold : Tid → ℕ} {joiners : List Tid} {prev : Tid}
    (h : s.rescheduleGuarded fold joiners prev = some s') : Untouched s s' := by
  unfold rescheduleGuarded at h
  split at h
  · split at h <;> cases h
    exact (untouched_depart fold joiners prev _).trans (untouched_runNext fold)
  · cases h
    exact untouched_runNext fold

end Sched

namespace Core

open Sched

variable [Fintype Tid] {k k' : Core Tid}

theorem untouched_setThreadReady {s : Sched Tid} (fold : Tid → ℕ) (t : Tid) (policy : Policy) (road : Road) :
    Untouched s (setThreadReady s fold t policy road) := by
  have hready := untouched_makeReady (s := s) fold t
  unfold setThreadReady
  dsimp only
  split
  · exact hready.trans (untouched_decide fold .preempted)
  · exact hready

/-- **Who writes a mask**: the running thread its own, and a hand-over that of another thread. -/
theorem untouched_next {act : CoreAct Tid} (h : k.next act = some k') :
    Untouched k.sched k'.sched ∨
      (∃ c mask, act = .hold mask ∧ k.runningThread = some c ∧ k'.sched =
        { k.sched with heldMask := Function.update k.sched.heldMask c mask }) ∨
      ∃ t mask, act = .remoteFile t mask ∧ k'.sched =
        { k.sched with heldMask := Function.update k.sched.heldMask t (k.sched.heldMask t ||| mask) } := by
  cases effect_of_next h with
  | hold hrun => exact Or.inr (Or.inl ⟨_, _, rfl, hrun, rfl⟩)
  | file => exact Or.inr (Or.inr ⟨_, _, rfl, rfl⟩)
  | wake | clear | look => exact Or.inl (by rw [moveTo_sched]; exact ⟨rfl, rfl⟩)
  | ready => exact Or.inl (untouched_setThreadReady _ _ _ _)
  | park | yield => exact Or.inl (untouched_decide _ _)
  | service => exact Or.inl (untouched_takeRequests_revoke _)
  | serviced => exact Or.inl (untouched_makeReady _ _)
  | guard _ _ hs => exact Or.inl (untouched_rescheduleGuarded hs)
  | _ => exact Or.inl ⟨rfl, rfl⟩

end Core

namespace Waits

variable {n : ℕ} {T : Fin n → Type} {Q : Type}
variable [∀ c, DecidableEq (T c)] [DecidableEq Q] [∀ c, Fintype (T c)] {S S' : Waits T Q}

def heldMask (S : Waits T Q) (t : Σ c, T c) : BitVec 8 := (S.cores t.1).sched.heldMask t.2

/-- The steps that write a mask. -/
def writesMask : WaitAct T Q → Bool
  | .core _ (.hold _) | .wake _ (.commit _) => true
  | _ => false

theorem heldMask_next {act : WaitAct T Q} (h : S.next act = some S') (hact : writesMask act = false) :
    S'.heldMask = S.heldMask := by
  funext t
  rcases next_cores h with ⟨hcores, -⟩ | ⟨c, a, k, hof, hk, hcores⟩
  · rw [heldMask, hcores]
    rfl
  · have hsame : k.sched.heldMask = (S.cores c).sched.heldMask := by
      rcases Core.untouched_next hk with hu | ⟨x, mask, rfl, -⟩ | ⟨x, mask, rfl, -⟩
      · exact hu.heldMask
      · cases hof
        cases hact
      · cases hof with
        | core _ _ hown => cases hown
        | file => cases hact
    rw [heldMask, hcores]
    by_cases ht : t.1 = c
    · subst ht
      rw [Function.update_self, hsame]
      rfl
    · rw [Function.update_of_ne ht]
      rfl

theorem basePriority_next {act : WaitAct T Q} (h : S.next act = some S') :
    S'.basePriority = S.basePriority := by
  funext t
  rcases next_cores h with ⟨hcores, -⟩ | ⟨c, a, k, hof, hk, hcores⟩
  · rw [basePriority, hcores]
    rfl
  · have hsame : k.sched.basePriority = (S.cores c).sched.basePriority := by
      rcases Core.untouched_next hk with hu | ⟨x, mask, -, -, heq⟩ | ⟨x, mask, -, heq⟩
      · exact hu.basePriority
      · rw [heq]
      · rw [heq]
    rw [basePriority, hcores]
    by_cases ht : t.1 = c
    · subst ht
      rw [Function.update_self, hsame]
      rfl
    · rw [Function.update_of_ne ht]
      rfl

omit [DecidableEq Q] [∀ c, Fintype (T c)] in
/-- A core's step writes the mask of one thread. -/
theorem heldMask_of_cores {c : Fin n} {k : Core (T c)} {t : T c} {mask : BitVec 8}
    (hcores : S'.cores = Function.update S.cores c k)
    (hk : k.sched.heldMask = Function.update (S.cores c).sched.heldMask t mask) :
    S'.heldMask = Function.update S.heldMask ⟨c, t⟩ mask := by
  funext ⟨c', u⟩
  rw [heldMask, hcores]
  by_cases hc : c' = c
  · subst hc
    rw [Function.update_self, hk]
    by_cases hu : u = t
    · subst hu
      rw [Function.update_self, Function.update_self]
    · rw [Function.update_of_ne hu, Function.update_of_ne (fun he => hu (by cases he; rfl))]
      rfl
  · rw [Function.update_of_ne hc, Function.update_of_ne (fun he => hc (by cases he; rfl))]
    rfl

/-- The running thread writes its own mask. -/
theorem next_hold {t : Σ c, T c} {mask : BitVec 8} (hrun : S.executes t = true)
    (h : S.next (.core t.1 (.hold mask)) = some S') :
    S'.heldMask = Function.update S.heldMask t mask ∧ S'.place = S.place ∧ S'.queue = S.queue := by
  have hrun : (S.cores t.1).runningThread = some t.2 := by simpa [executes] using hrun
  cases effect_of_next h with
  | core _ hk =>
      cases Core.effect_of_next hk with
      | hold hrun' =>
          obtain rfl := Option.some.inj (hrun.symm.trans hrun')
          exact ⟨heldMask_of_cores rfl rfl, rfl, rfl⟩

/-- A hand-over files a mutex for the head of the queue, and takes it off. -/
theorem next_commit {q : Q} {mask : BitVec 8} {first : (Σ c, T c) × Bool}
    {rest : List ((Σ c, T c) × Bool)} (hq : S.queue q = first :: rest)
    (h : S.next (.wake q (.commit mask)) = some S') :
    S'.heldMask = Function.update S.heldMask first.1 (S.heldMask first.1 ||| mask) ∧
      S'.place = S.place ∧ S'.queue = Function.update S.queue q rest := by
  cases effect_of_next h with
  | take hkind => exact absurd rfl (hkind mask)
  | nobody hnone => cases hq.symm.trans hnone
  | commit hq' hk =>
      cases hq.symm.trans hq'
      cases Core.effect_of_next hk
      exact ⟨heldMask_of_cores (S := S) rfl rfl, rfl, rfl⟩

end Waits

end Cyros.Kernel
