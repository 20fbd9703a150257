import Cyros.Sync.Semaphore

/-!
# What the steps of a wait keep

A type that is waited on leaves most steps of its waits as they are: the arms, the disarms, the parks, all
steps of the cores, and everything on other queues.  `leaves` is the guard for those steps, and `next_leaves`
says what one of them shows of a thread: nothing, or a move of its own, of which `passMove_keeps` says what it
keeps.  What the type adds are the polls and the wakes of its queue `w`.
-/

namespace Cyros.Kernel.WaitPlace

variable {Q : Type}

/-- A wake has taken the thread's node in this pass, where `queued` says whether it is on the queue. -/
def nodeGone (queued : Bool) : WaitPlace Q → Bool
  | .outside | .arming .. => false
  | .armingCancel .. | .polling .. | .settling .. | .committing .. | .disarming .. => !queued
  | .disarmingCancel _ _ _ chosen | .polled _ _ _ chosen => chosen

/-- The armed poll of this pass was satisfied. -/
def satisfied : WaitPlace Q → Bool
  | .settling _ _ s | .disarming _ _ s | .disarmingCancel _ _ s _ | .polled _ _ s _ => s
  | _ => false

def isPolled : WaitPlace Q → Bool
  | .polled .. => true
  | _ => false

theorem nodeGone_of_armed {w : Q} {p : WaitPlace Q} (h : (w, false) ∈ p.armed) (queued : Bool) :
    p.nodeGone queued = !queued ∧ p.source = some w ∧ p.isPolled = false := by
  cases p <;> simp_all [armed, nodeGone, source, isPolled]

end Cyros.Kernel.WaitPlace

namespace Cyros.Sync

open Cyros.Lib Cyros.Kernel

variable {n : ℕ} {T : Fin n → Type} {Q : Type} [DecidableEq Q]

/-- The steps that are left as they are: those that neither wake `w`, nor begin, poll or end a wait on it, nor
make it a cancel signal. -/
def leaves (w : Q) (S : Waits T Q) : WaitAct T Q → Bool
  | .core .. | .call .. => true
  | .wake q _ => q != w
  | .pass t act => Semaphore.allowsPass w (S.place t) act

variable [∀ c, DecidableEq (T c)]

/-- The thread's node for what it waits on is on the queue `w`. -/
def onQueue (w : Q) (S : Waits T Q) (t : Σ c, T c) : Bool := (S.queue w).contains (t, false)

/-- What a move inside a wait on `w` keeps. -/
theorem passMove_keeps {w : Q} {t : Σ c, T c} {priority : (Σ c, T c) → ℕ}
    {queue queue' : Q → List ((Σ c, T c) × Bool)} {p p' : WaitPlace Q} {act : PassAct (T t.1) Q}
    (hmove : Waits.PassMove t priority queue p act p' queue')
    (hallow : Semaphore.allowsPass w p act = true) (hcancel : p.cancel ≠ some w) (hin : p.source = some w) :
    p'.nodeGone ((queue' w).contains (t, false)) = p.nodeGone ((queue w).contains (t, false)) ∧
      p'.satisfied = p.satisfied ∧ (p.isPolled = true → p' = p) ∧
      (Semaphore.starvedAt w ((queue' w).contains (t, false)) p' = true →
        Semaphore.starvedAt w ((queue w).contains (t, false)) p = true) := by
  cases hmove with
  | startFirst | startAgain | pollEnds | pollFails | finish =>
      simp_all [Semaphore.allowsPass, WaitPlace.source]
  | armCancel w' c =>
      have hne : w ≠ c := fun he => hcancel (by simp [WaitPlace.cancel, he])
      rw [Function.update_of_ne hne]
      simp_all [WaitPlace.nodeGone, WaitPlace.satisfied, WaitPlace.isPolled, Semaphore.starvedAt]
  | arm | armFirst | settle | settleAfter | commit | disarm | disarmFirst | disarmCancel =>
      simp_all [WaitPlace.source, WaitPlace.cancel, WaitPlace.nodeGone, WaitPlace.satisfied,
        WaitPlace.isPolled, Semaphore.starvedAt, Waits.mem_link]

variable [∀ c, Fintype (T c)]

/-- **What a step that is left as it is shows of a thread.** -/
theorem next_leaves {w : Q} {S S' : Waits T Q} {act : WaitAct T Q} (hleave : leaves w S act = true)
    (h : S.next act = some S') (t : Σ c, T c) :
    (S'.place t = S.place t ∧ onQueue w S' t = onQueue w S t) ∨
      ∃ a, act = .pass t a ∧ Semaphore.allowsPass w (S.place t) a = true ∧
        Waits.PassMove t S.basePriority S.queue (S.place t) a (S'.place t) S'.queue := by
  cases act with
  | core c act =>
      obtain ⟨hplace, hqueue⟩ := Waits.next_core h
      refine Or.inl ⟨congrFun hplace t, ?_⟩
      rw [onQueue, onQueue, hqueue]
  | call c u policy =>
      obtain ⟨hplace, hqueue⟩ := Waits.next_call h
      refine Or.inl ⟨congrFun hplace t, ?_⟩
      rw [onQueue, onQueue, hqueue]
  | wake q kind =>
      have hne : w ≠ q := by
        intro he
        simp [leaves, he] at hleave
      refine Or.inl ⟨congrFun (Waits.next_wake h).1 t, ?_⟩
      rw [onQueue, onQueue, Waits.next_wake_queue_of_ne h hne]
  | pass u a =>
      by_cases hu : t = u
      · subst hu
        exact Or.inr ⟨a, rfl, hleave, Waits.next_pass_move h⟩
      · have hmem := (Waits.next_pass_move h).mem_of_ne (x := (t, false)) hu w
        refine Or.inl ⟨Waits.next_pass_place_of_ne h hu, ?_⟩
        simp only [onQueue, List.contains_eq_mem, hmem]

section Moves

variable {S v : Waits T Q} {w : Q} {t u : Σ c, T c} {cancel : Option Q}

/-- Where a poll leads. -/
theorem place_poll {satisfied cancelled : Bool} (hp : S.place t = .polling w cancel)
    (h : S.next (.pass t (.poll satisfied cancelled)) = some v) :
    v.queue = S.queue ∧
      (v.place t = .settling w cancel satisfied ∨ satisfied = false ∧ v.place t = .committing w cancel) := by
  have hmove := Waits.next_pass_move h
  rw [hp] at hmove
  generalize v.place t = p' at hmove
  generalize v.queue = queue' at hmove
  cases hmove with
  | pollEnds => exact ⟨rfl, Or.inl rfl⟩
  | pollFails _ _ _ _ hends =>
      rw [Bool.or_eq_false_iff] at hends
      exact ⟨rfl, Or.inr ⟨hends.1, rfl⟩⟩

theorem place_start (h : S.next (.pass t (.start w cancel)) = some v) :
    v.queue = S.queue ∧ v.place t = .arming w cancel := by
  have hmove := Waits.next_pass_move h
  generalize S.place t = p at hmove
  generalize v.place t = p' at hmove
  generalize v.queue = queue' at hmove
  cases hmove with
  | startFirst | startAgain => exact ⟨rfl, rfl⟩

theorem place_finish (h : S.next (.pass t .finish) = some v) :
    v.queue = S.queue ∧ v.place t = .outside := by
  have hmove := Waits.next_pass_move h
  generalize S.place t = p at hmove
  generalize v.place t = p' at hmove
  generalize v.queue = queue' at hmove
  cases hmove with
  | finish => exact ⟨rfl, rfl⟩

/-- A step of one thread's pass shows nothing of another. -/
theorem onQueue_pass {act : PassAct (T t.1) Q} (h : S.next (.pass t act) = some v) (hu : u ≠ t) :
    v.place u = S.place u ∧ onQueue w v u = onQueue w S u := by
  have hmem := (Waits.next_pass_move h).mem_of_ne (x := (u, false)) hu w
  refine ⟨Waits.next_pass_place_of_ne h hu, ?_⟩
  simp only [onQueue, List.contains_eq_mem, hmem]

omit [DecidableEq Q] [∀ c, DecidableEq (T c)] [∀ c, Fintype (T c)] in
/-- A node on a queue that is nobody's cancel signal is that of a thread that waits on it. -/
theorem slot_of_mem (hnodes : S.Nodes) (hcancel : ∀ t, (S.place t).cancel ≠ some w)
    {x : (Σ c, T c) × Bool} (hx : x ∈ S.queue w) : x.2 = false := by
  have harmed := hnodes.armed w x hx
  have hc := hcancel x.1
  cases hp : S.place x.1 <;> simp_all [WaitPlace.armed, WaitPlace.cancel]

/-- **A wake of `w`** takes the first node, and shows nothing of any other thread. -/
theorem wake_one (hnodes : S.Nodes) (hcancel : ∀ t, (S.place t).cancel ≠ some w)
    {first : (Σ c, T c) × Bool} {rest : List ((Σ c, T c) × Bool)} (hq : S.queue w = first :: rest)
    (h : S.next (.wake w .one) = some v) :
    v.place = S.place ∧ (w, false) ∈ (S.place first.1).armed ∧ onQueue w S first.1 = true ∧
      onQueue w v first.1 = false ∧ ∀ u, u ≠ first.1 → onQueue w v u = onQueue w S u := by
  have hmem : first ∈ S.queue w := by rw [hq]; exact List.mem_cons_self
  have hslot := slot_of_mem hnodes hcancel hmem
  obtain ⟨x, slot⟩ := first
  obtain rfl : slot = false := hslot
  have hnodup := hnodes.nodup w
  rw [hq] at hnodup
  have hqueue : v.queue w = rest := by
    cases h
    show Function.update S.queue w ((S.queue w).drop 1) w = rest
    rw [Function.update_self, hq]
    rfl
  have hplace : v.place = S.place := by
    cases h
    rfl
  refine ⟨hplace, hnodes.armed w _ hmem, ?_, ?_, ?_⟩
  · rw [onQueue, hq]
    simp
  · rw [onQueue, hqueue, List.contains_eq_mem]
    exact decide_eq_false (List.nodup_cons.1 hnodup).1
  · intro u hu
    rw [onQueue, onQueue, hqueue, hq]
    simp [hu]

end Moves

end Cyros.Sync
