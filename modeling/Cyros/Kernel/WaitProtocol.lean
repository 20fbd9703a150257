import Mathlib.Data.Sigma.Basic
import Cyros.Kernel.WakeStands

/-!
# The two-phase block

The waits of the system: every thread may wait on a queue, with a cancel signal or without, by
`wait_engine::run` or by `base_mutex::lock`, which is the same loop without a cancel.  A pass says that the
thread is prepared to block, arms its nodes, polls, and parks if it is still prepared; whatever lets it run
again, it disarms its nodes and then polls once more, returns or makes another pass.

* The answers of the polls are left open, and so is who makes a wake: any thread or interrupt.
* A wake takes nodes off a queue under its lock and calls `global_ready_thread` for their owners later
  (`called` lists the owners not called yet).  A call for a thread of another core leaves a request there.
* A core's own steps are those of `Core`.  The running thread's own block and exit are made outside its
  waits.

`no_lost_wake` says that a parked thread whose node has been taken has its wake still to come.
-/

namespace Cyros.Kernel

open Cyros.Lib Cyros.Lib.IntrusiveQueue

/-- Where a thread stands in a wait on `w`, with a cancel signal or without. -/
inductive WaitPlace (Q : Type) where
  | outside
  /-- Prepared, before either arm. -/
  | arming (w : Q) (cancel : Option Q)
  | armingCancel (w c : Q)
  /-- Armed, before the poll. -/
  | polling (w : Q) (cancel : Option Q)
  /-- The poll ended the wait: before the wish to block is taken back. -/
  | settling (w : Q) (cancel : Option Q) (satisfied : Bool)
  | committing (w : Q) (cancel : Option Q)
  | disarming (w : Q) (cancel : Option Q) (satisfied : Bool)
  | disarmingCancel (w c : Q) (satisfied chosen : Bool)
  /-- Off the queues, knowing whether a wake of `w` chose the thread. -/
  | polled (w : Q) (cancel : Option Q) (satisfied chosen : Bool)
  deriving DecidableEq

/-- The queues on which the thread's nodes are, or were until a wake took them: `false` is the node for
what it waits on, `true` the one for the cancel signal. -/
def WaitPlace.armed {Q : Type} : WaitPlace Q → List (Q × Bool)
  | .outside | .arming .. | .polled .. => []
  | .armingCancel w _ => [(w, false)]
  | .polling w cancel | .settling w cancel _ | .committing w cancel | .disarming w cancel _ =>
      (w, false) :: (cancel.map fun c => (c, true)).toList
  | .disarmingCancel _ c _ _ => [(c, true)]

/-- The cores and the wait queues. -/
structure Waits {n : ℕ} (T : Fin n → Type) (Q : Type) where
  cores : ∀ c, Core (T c)
  /-- The nodes of each queue, by owner, best first. -/
  queue : Q → List ((Σ c, T c) × Bool)
  place : (Σ c, T c) → WaitPlace Q
  /-- The owners of the nodes that wakes have taken, not yet called. -/
  called : List (Σ c, T c)

/-- The steps of a thread in its pass. -/
inductive PassAct (Tid Q : Type) where
  /-- It begins a pass, its first or another. -/
  | start (w : Q) (cancel : Option Q)
  | arm
  | armCancel
  /-- The armed poll: satisfied, cancelled, or neither. -/
  | poll (satisfied cancelled : Bool)
  /-- The wish to block is taken back: after a poll that ended the wait, and by `base_mutex::lock` once
  more after a hand-over. -/
  | settle
  | commit (fold : Tid → ℕ)
  | disarm
  | disarmCancel
  | finish

/-- The core's part of a step of a pass. -/
def PassAct.coreAct {Tid Q : Type} : PassAct Tid Q → Option (CoreAct Tid)
  | .start _ _ => some .prepare
  | .settle => some .unprepare
  | .commit fold => some (.commitToBlock fold)
  | _ => none

/-- What a wake takes off a queue.  `wake_all` is `one` until the queue is empty, and `wake_all_where` is
`filtered` until a walk takes fewer than it has room for. -/
inductive WakeKind {n : ℕ} (T : Fin n → Type) where
  | one
  | filtered (pick : (Σ c, T c) → Bool)
  /-- `raise_all`, which also calls under the queue's lock; here others may use the queue meanwhile. -/
  | raise
  /-- `wake_one_and_commit`, with the slot that a hand-over claims for the chosen thread. -/
  | commit (slot : BitVec 8)

inductive WaitAct {n : ℕ} (T : Fin n → Type) (Q : Type) where
  /-- A step of a core outside the waits. -/
  | core (c : Fin n) (act : CoreAct (T c))
  | pass (t : Σ c, T c) (act : PassAct (T t.1) Q)
  | wake (q : Q) (kind : WakeKind T)
  /-- A waker on core `c` calls `global_ready_thread`. -/
  | call (c : Fin n) (t : Σ c, T c) (policy : Policy)

namespace Waits

variable {n : ℕ} {T : Fin n → Type} {Q : Type}

/-- `wait_queue::link`: behind every waiter as urgent or more. -/
def link (priority : (Σ c, T c) → ℕ) (node : (Σ c, T c) × Bool) :
    List ((Σ c, T c) × Bool) → List ((Σ c, T c) × Bool)
  | [] => [node]
  | first :: rest =>
      if priority node.1 < priority first.1 then node :: first :: rest
      else first :: link priority node rest

/-- The walk of `wake_all_where`: the nodes it takes, at most `room`, and those it leaves. -/
def takeWhere (pick : (Σ c, T c) → Bool) :
    ℕ → List ((Σ c, T c) × Bool) → List ((Σ c, T c) × Bool) × List ((Σ c, T c) × Bool)
  | 0, nodes => ([], nodes)
  | _, [] => ([], [])
  | room + 1, first :: rest =>
      if pick first.1 then
        let walked := takeWhere pick room rest
        (first :: walked.1, walked.2)
      else
        let walked := takeWhere pick (room + 1) rest
        (walked.1, first :: walked.2)

/-- The nodes that a wake takes off a queue, and those it leaves. -/
def walk : WakeKind T → List ((Σ c, T c) × Bool) → List ((Σ c, T c) × Bool) × List ((Σ c, T c) × Bool)
  | .filtered pick, nodes => takeWhere pick 8 nodes
  | .raise, nodes => (nodes, [])
  | .one, nodes | .commit _, nodes => (nodes.take 1, nodes.drop 1)

theorem mem_link {priority : (Σ c, T c) → ℕ} {node x : (Σ c, T c) × Bool}
    {nodes : List ((Σ c, T c) × Bool)} : x ∈ link priority node nodes ↔ x = node ∨ x ∈ nodes := by
  induction nodes with
  | nil => simp [link]
  | cons first rest ih =>
      unfold link
      split
      · simp
      · simp only [List.mem_cons, ih]
        tauto

/-- The walk loses no node. -/
theorem mem_takeWhere {pick : (Σ c, T c) → Bool} {room : ℕ} {x : (Σ c, T c) × Bool}
    {nodes : List ((Σ c, T c) × Bool)} (h : x ∈ nodes) :
    x ∈ (takeWhere pick room nodes).1 ∨ x ∈ (takeWhere pick room nodes).2 := by
  fun_induction takeWhere pick room nodes with
  | case1 => exact Or.inr h
  | case2 => exact absurd h List.not_mem_nil
  | case3 room first rest hpick walked ih =>
      rcases List.mem_cons.mp h with rfl | hrest
      · exact Or.inl List.mem_cons_self
      · exact (ih hrest).imp_left (List.mem_cons_of_mem _)
  | case4 room first rest hpick walked ih =>
      rcases List.mem_cons.mp h with rfl | hrest
      · exact Or.inr List.mem_cons_self
      · exact (ih hrest).imp_right (List.mem_cons_of_mem _)

theorem mem_walk {kind : WakeKind T} {x : (Σ c, T c) × Bool} {nodes : List ((Σ c, T c) × Bool)} (h : x ∈ nodes) :
    x ∈ (walk kind nodes).1 ∨ x ∈ (walk kind nodes).2 := by
  cases kind with
  | filtered => exact mem_takeWhere h
  | raise => exact Or.inl h
  | one | commit => rwa [← List.take_append_drop 1 nodes, List.mem_append] at h

def basePriority (S : Waits T Q) (t : Σ c, T c) : ℕ := (S.cores t.1).sched.basePriority t.2

variable [∀ c, DecidableEq (T c)] [DecidableEq Q]

def setCore (S : Waits T Q) (c : Fin n) (k : Core (T c)) : Waits T Q :=
  { S with cores := Function.update S.cores c k }

def setPlace (S : Waits T Q) (t : Σ c, T c) (p : WaitPlace Q) : Waits T Q :=
  { S with place := Function.update S.place t p }

def setQueue (S : Waits T Q) (q : Q) (nodes : List ((Σ c, T c) × Bool)) : Waits T Q :=
  { S with queue := Function.update S.queue q nodes }

/-- A wake has taken `taken` off a queue and left `left`. -/
def take (S : Waits T Q) (q : Q) (taken left : List ((Σ c, T c) × Bool)) : Waits T Q :=
  { S.setQueue q left with called := S.called ++ taken.map Prod.fst }

/-- The thread executes its own code. -/
def executes (S : Waits T Q) (t : Σ c, T c) : Bool := (S.cores t.1).runningThread == some t.2

variable [∀ c, Fintype (T c)]

/-- A step of one core. -/
def coreStep (S : Waits T Q) (c : Fin n) (act : CoreAct (T c)) : Option (Waits T Q) :=
  ((S.cores c).next act).map (S.setCore c)

/-- The steps of a core that are no part of a wait or a wake.  A thread outside its waits may also block
by itself, as `this_thread::suspend` does, and exit.  A mutex is filed for another thread by a hand-over
only. -/
def ownsAct (S : Waits T Q) (c : Fin n) : CoreAct (T c) → Bool
  | .prepare | .unprepare | .commitToBlock _ | .threadExit =>
      (S.cores c).runningThread.all fun t => S.place ⟨c, t⟩ == .outside
  | .remoteFile .. => false
  | _ => true

/-- The steps of a pass, by its thread. -/
def passStep (S : Waits T Q) (t : Σ c, T c) : PassAct (T t.1) Q → Option (Waits T Q)
  | .start w cancel => match S.place t with
    | .outside => (S.coreStep t.1 .prepare).map (·.setPlace t (.arming w cancel))
    | .polled w' cancel' false _ =>
        if w = w' ∧ cancel = cancel' then (S.coreStep t.1 .prepare).map (·.setPlace t (.arming w cancel))
        else none
    | _ => none
  | .arm => match S.place t with
    | .arming w cancel =>
        some ((S.setQueue w (link S.basePriority (t, false) (S.queue w))).setPlace t
          (match cancel with
            | some c => .armingCancel w c
            | none => .polling w none))
    | _ => none
  | .armCancel => match S.place t with
    | .armingCancel w c =>
        some ((S.setQueue c (link S.basePriority (t, true) (S.queue c))).setPlace t (.polling w (some c)))
    | _ => none
  | .poll satisfied cancelled => match S.place t with
    | .polling w cancel =>
        some (S.setPlace t (if satisfied || (cancelled && cancel.isSome) then .settling w cancel satisfied
          else .committing w cancel))
    | _ => none
  | .settle => match S.place t with
    | .settling w cancel satisfied =>
        (S.coreStep t.1 .unprepare).map (·.setPlace t (.disarming w cancel satisfied))
    | .polled w none false chosen =>
        (S.coreStep t.1 .unprepare).map (·.setPlace t (.polled w none false chosen))
    | _ => none
  | .commit fold => match S.place t with
    | .committing w cancel =>
        (S.coreStep t.1 (.commitToBlock fold)).map (·.setPlace t (.disarming w cancel false))
    | _ => none
  | .disarm => match S.place t with
    | .disarming w cancel satisfied =>
        let chosen := !(S.queue w).contains (t, false)
        some ((S.setQueue w ((S.queue w).erase (t, false))).setPlace t
          (match cancel with
            | some c => .disarmingCancel w c satisfied chosen
            | none => .polled w none satisfied chosen))
    | _ => none
  | .disarmCancel => match S.place t with
    | .disarmingCancel w c satisfied chosen =>
        some ((S.setQueue c ((S.queue c).erase (t, true))).setPlace t
          (.polled w (some c) satisfied chosen))
    | _ => none
  | .finish => match S.place t with
    | .polled .. => some (S.setPlace t .outside)
    | _ => none

/-- The part of a wake under the queue's lock. -/
def wakeStep (S : Waits T Q) (q : Q) : WakeKind T → Option (Waits T Q)
  | .one => some (S.take q ((S.queue q).take 1) ((S.queue q).drop 1))
  | .filtered pick =>
      let walked := takeWhere pick 8 (S.queue q)
      some (S.take q walked.1 walked.2)
  | .raise => some (S.take q (S.queue q) [])
  | .commit slot => match S.queue q with
    | [] => some S
    | first :: rest =>
        (S.coreStep first.1.1 (.remoteFile first.1.2 slot)).map (·.take q [first] rest)

/-- `global_ready_thread`, by a waker on core `c`: the steps of a local call are the core's own. -/
def callStep (S : Waits T Q) (c : Fin n) (t : Σ c, T c) (policy : Policy) : Option (Waits T Q) :=
  if t ∈ S.called then
    let S' := { S with called := S.called.erase t }
    if t.1 = c then S'.coreStep t.1 (.wake t.2 policy)
    else if (S.cores t.1).sched.state t.2 = .terminated ∨
        (S.cores t.1).sched.disposition t.2 = .terminating then some S'
    else S'.coreStep t.1 (.remoteClaim t.2)
  else none

/-- One step of the system. -/
def next (S : Waits T Q) : WaitAct T Q → Option (Waits T Q)
  | .core c act => if S.ownsAct c act then S.coreStep c act else none
  | .pass t act => if S.executes t then S.passStep t act else none
  | .wake q kind => S.wakeStep q kind
  | .call c t policy => S.callStep c t policy

/-- The system as `start` leaves it. -/
def boot (idle : ∀ c, T c) (basePriority : ∀ c, T c → Level) (threads : ∀ c, List (T c)) : Waits T Q where
  cores := fun c => Core.boot (idle c) (basePriority c) (threads c)
  queue := fun _ => []
  place := fun _ => .outside
  called := []

/-! ### What a step does -/

/-- **What a step of a pass can do**: the place and the queues before and after. -/
inductive PassMove (t : Σ c, T c) (priority : (Σ c, T c) → ℕ) (queue : Q → List ((Σ c, T c) × Bool)) :
    WaitPlace Q → PassAct (T t.1) Q → WaitPlace Q → (Q → List ((Σ c, T c) × Bool)) → Prop
  | startFirst (w : Q) (cancel : Option Q) :
      PassMove t priority queue .outside (.start w cancel) (.arming w cancel) queue
  | startAgain (w : Q) (cancel : Option Q) (chosen : Bool) :
      PassMove t priority queue (.polled w cancel false chosen) (.start w cancel) (.arming w cancel) queue
  | arm (w : Q) :
      PassMove t priority queue (.arming w none) .arm (.polling w none)
        (Function.update queue w (link priority (t, false) (queue w)))
  | armFirst (w c : Q) :
      PassMove t priority queue (.arming w (some c)) .arm (.armingCancel w c)
        (Function.update queue w (link priority (t, false) (queue w)))
  | armCancel (w c : Q) :
      PassMove t priority queue (.armingCancel w c) .armCancel (.polling w (some c))
        (Function.update queue c (link priority (t, true) (queue c)))
  | pollEnds (w : Q) (cancel : Option Q) (satisfied cancelled : Bool)
      (h : (satisfied || (cancelled && cancel.isSome)) = true) :
      PassMove t priority queue (.polling w cancel) (.poll satisfied cancelled)
        (.settling w cancel satisfied) queue
  | pollFails (w : Q) (cancel : Option Q) (satisfied cancelled : Bool)
      (h : (satisfied || (cancelled && cancel.isSome)) = false) :
      PassMove t priority queue (.polling w cancel) (.poll satisfied cancelled) (.committing w cancel) queue
  | settle (w : Q) (cancel : Option Q) (satisfied : Bool) :
      PassMove t priority queue (.settling w cancel satisfied) .settle (.disarming w cancel satisfied) queue
  | settleAfter (w : Q) (chosen : Bool) :
      PassMove t priority queue (.polled w none false chosen) .settle (.polled w none false chosen) queue
  | commit (w : Q) (cancel : Option Q) (fold : T t.1 → ℕ) :
      PassMove t priority queue (.committing w cancel) (.commit fold) (.disarming w cancel false) queue
  | disarm (w : Q) (satisfied : Bool) :
      PassMove t priority queue (.disarming w none satisfied) .disarm
        (.polled w none satisfied (!(queue w).contains (t, false)))
        (Function.update queue w ((queue w).erase (t, false)))
  | disarmFirst (w c : Q) (satisfied : Bool) :
      PassMove t priority queue (.disarming w (some c) satisfied) .disarm
        (.disarmingCancel w c satisfied (!(queue w).contains (t, false)))
        (Function.update queue w ((queue w).erase (t, false)))
  | disarmCancel (w c : Q) (satisfied chosen : Bool) :
      PassMove t priority queue (.disarmingCancel w c satisfied chosen) .disarmCancel
        (.polled w (some c) satisfied chosen)
        (Function.update queue c ((queue c).erase (t, true)))
  | finish (w : Q) (cancel : Option Q) (satisfied chosen : Bool) :
      PassMove t priority queue (.polled w cancel satisfied chosen) .finish .outside queue

/-- **All that a step of the system can do.** -/
inductive Effect (S : Waits T Q) : WaitAct T Q → Waits T Q → Prop
  | core {c : Fin n} {a : CoreAct (T c)} {k : Core (T c)} (hown : S.ownsAct c a = true)
      (hk : (S.cores c).next a = some k) : Effect S (.core c a) (S.setCore c k)
  /-- A step of a pass that is none of the core. -/
  | quiet {t : Σ c, T c} {act : PassAct (T t.1) Q} {p : WaitPlace Q} {queue : Q → List ((Σ c, T c) × Bool)}
      (hrun : S.executes t = true) (hact : act.coreAct = none)
      (hmove : PassMove t S.basePriority S.queue (S.place t) act p queue) :
      Effect S (.pass t act) { S with place := Function.update S.place t p, queue := queue }
  | own {t : Σ c, T c} {act : PassAct (T t.1) Q} {p : WaitPlace Q} {a : CoreAct (T t.1)} {k : Core (T t.1)}
      (hrun : S.executes t = true) (hact : act.coreAct = some a)
      (hmove : PassMove t S.basePriority S.queue (S.place t) act p S.queue)
      (hk : (S.cores t.1).next a = some k) : Effect S (.pass t act) ((S.setCore t.1 k).setPlace t p)
  | take {q : Q} {kind : WakeKind T} (hkind : ∀ slot, kind ≠ .commit slot) :
      Effect S (.wake q kind) (S.take q (walk kind (S.queue q)).1 (walk kind (S.queue q)).2)
  | nobody {q : Q} {slot : BitVec 8} (hq : S.queue q = []) : Effect S (.wake q (.commit slot)) S
  | commit {q : Q} {slot : BitVec 8} {first : (Σ c, T c) × Bool} {rest : List ((Σ c, T c) × Bool)}
      {k : Core (T first.1.1)} (hq : S.queue q = first :: rest)
      (hk : (S.cores first.1.1).next (.remoteFile first.1.2 slot) = some k) :
      Effect S (.wake q (.commit slot)) ((S.setCore first.1.1 k).take q [first] rest)
  | call {t : Σ c, T c} {policy : Policy} {k : Core (T t.1)} (hcalled : t ∈ S.called)
      (hk : (S.cores t.1).next (.wake t.2 policy) = some k) :
      Effect S (.call t.1 t policy) { S.setCore t.1 k with called := S.called.erase t }
  /-- A call from another core finds the thread done. -/
  | done {c : Fin n} {t : Σ c, T c} {policy : Policy} (hcalled : t ∈ S.called) (hne : t.1 ≠ c)
      (hdone : ¬ (S.cores t.1).sched.Live t.2) :
      Effect S (.call c t policy) { S with called := S.called.erase t }
  | post {c : Fin n} {t : Σ c, T c} {policy : Policy} {k : Core (T t.1)} (hcalled : t ∈ S.called)
      (hne : t.1 ≠ c) (hk : (S.cores t.1).next (.remoteClaim t.2) = some k) :
      Effect S (.call c t policy) { S.setCore t.1 k with called := S.called.erase t }

section Effect

variable {S S' : Waits T Q}

theorem effect_of_pass {t : Σ c, T c} {act : PassAct (T t.1) Q} (hrun : S.executes t = true)
    (h : S.passStep t act = some S') : Effect S (.pass t act) S' := by
  have hown : ∀ {p a}, act.coreAct = some a → PassMove t S.basePriority S.queue (S.place t) act p S.queue →
      (S.coreStep t.1 a).map (·.setPlace t p) = some S' → Effect S (.pass t act) S' := by
    intro p a hact hmove h
    obtain ⟨S₁, hcore, rfl⟩ := Option.map_eq_some_iff.mp h
    obtain ⟨k, hk, rfl⟩ := Option.map_eq_some_iff.mp hcore
    exact .own hrun hact hmove hk
  have hquiet : ∀ {p queue}, act.coreAct = none → PassMove t S.basePriority S.queue (S.place t) act p queue →
      Effect S (.pass t act) { S with place := Function.update S.place t p, queue := queue } := .quiet hrun
  cases act with
  | start w cancel =>
      simp only [passStep] at h
      split at h
      · next hp => exact hown rfl (hp ▸ .startFirst w cancel) h
      · next w' cancel' chosen hp =>
        split at h
        · next heq =>
          obtain ⟨rfl, rfl⟩ := heq
          exact hown rfl (hp ▸ .startAgain w cancel chosen) h
        · cases h
      · cases h
  | settle =>
      simp only [passStep] at h
      split at h
      · next hp => exact hown rfl (hp ▸ .settle _ _ _) h
      · next hp => exact hown rfl (by rw [hp]; exact .settleAfter _ _) h
      · cases h
  | commit fold =>
      simp only [passStep] at h
      split at h
      · next hp => exact hown rfl (hp ▸ .commit _ _ fold) h
      · cases h
  | arm =>
      simp only [passStep] at h
      split at h <;> cases h
      next w cancel hp =>
      cases cancel with
      | none => exact hquiet rfl (hp ▸ .arm w)
      | some c => exact hquiet rfl (hp ▸ .armFirst w c)
  | armCancel =>
      simp only [passStep] at h
      split at h <;> cases h
      next hp => exact hquiet rfl (hp ▸ .armCancel _ _)
  | poll satisfied cancelled =>
      simp only [passStep] at h
      split at h <;> cases h
      next hp =>
      refine hquiet rfl ?_
      rw [hp]
      split
      · next hends => exact .pollEnds _ _ satisfied cancelled hends
      · next hends => exact .pollFails _ _ satisfied cancelled (by simpa using hends)
  | disarm =>
      simp only [passStep] at h
      split at h <;> cases h
      next w cancel satisfied hp =>
      cases cancel with
      | none => exact hquiet rfl (hp ▸ .disarm w satisfied)
      | some c => exact hquiet rfl (hp ▸ .disarmFirst w c satisfied)
  | disarmCancel =>
      simp only [passStep] at h
      split at h <;> cases h
      next hp => exact hquiet rfl (hp ▸ .disarmCancel _ _ _ _)
  | finish =>
      simp only [passStep] at h
      split at h <;> cases h
      next hp => exact hquiet rfl (hp ▸ .finish _ _ _ _)

theorem effect_of_next {act : WaitAct T Q} (h : S.next act = some S') : Effect S act S' := by
  cases act with
  | core c a =>
      simp only [Waits.next] at h
      split at h
      · next hown =>
        obtain ⟨k, hk, rfl⟩ := Option.map_eq_some_iff.mp h
        exact .core hown hk
      · cases h
  | pass t act =>
      simp only [Waits.next] at h
      split at h
      · next hrun => exact effect_of_pass hrun h
      · cases h
  | wake q kind =>
      cases kind with
      | one | filtered | raise =>
          cases h
          exact .take (by simp)
      | commit slot =>
          simp only [Waits.next, wakeStep] at h
          split at h
          · next hq =>
            cases h
            exact .nobody hq
          · next hq =>
            obtain ⟨S₁, hcore, rfl⟩ := Option.map_eq_some_iff.mp h
            obtain ⟨k, hk, rfl⟩ := Option.map_eq_some_iff.mp hcore
            exact .commit hq hk
  | call c t policy =>
      simp only [Waits.next, callStep] at h
      split at h
      · next hcalled =>
        split at h
        · next hc =>
          subst hc
          obtain ⟨k, hk, rfl⟩ := Option.map_eq_some_iff.mp h
          exact .call hcalled hk
        · next hc =>
          split at h
          · next hdone =>
            cases h
            exact .done hcalled hc fun hl => hdone.elim hl.1 hl.2
          · obtain ⟨k, hk, rfl⟩ := Option.map_eq_some_iff.mp h
            exact .post hcalled hc hk
      · cases h

end Effect

/-! ### The invariant -/

/-- A wake of the thread is still to come. -/
def Owed (S : Waits T Q) (t : Σ c, T c) : Prop :=
  t ∈ S.called ∨ Core.WakeStands (S.cores t.1) t.2

/-- **What holds between steps**: a thread inside a wait is alive, and where one of its nodes has been
taken off its queue, a wake of the thread is still to come. -/
structure Inv (S : Waits T Q) : Prop where
  core : ∀ c, Core.Inv False (S.cores c)
  posted : ∀ c, Core.Posted (S.cores c)
  live : ∀ t, S.place t ≠ .outside → (S.cores t.1).sched.Live t.2
  owed : ∀ t q slot, (q, slot) ∈ (S.place t).armed → (t, slot) ∉ S.queue q → S.Owed t

omit [DecidableEq Q] in
theorem inv_boot (idle : ∀ c, T c) (basePriority : ∀ c, T c → Level) (threads : ∀ c, List (T c)) :
    Inv (boot idle basePriority threads : Waits T Q) where
  core := fun _ => Core.inv_boot _ _ _
  posted := fun _ => Core.posted_boot _ _ _
  live := fun t h => absurd rfl h
  owed := fun t q slot h => by simp [boot, WaitPlace.armed] at h

variable {S S' : Waits T Q}

omit [DecidableEq Q] [∀ c, Fintype (T c)] in
/-- A thread moves in its wait; a node it did not have is on its queue. -/
theorem Inv.setPlace (hi : Inv S) {t : Σ c, T c} {p : WaitPlace Q}
    (hlive : p ≠ .outside → (S.cores t.1).sched.Live t.2)
    (harmed : ∀ x ∈ p.armed, x ∈ (S.place t).armed ∨ (t, x.2) ∈ S.queue x.1) :
    Inv (S.setPlace t p) where
  core := hi.core
  posted := hi.posted
  live := fun u hu => by
    by_cases h : u = t
    · subst h
      exact hlive (by simpa [Waits.setPlace] using hu)
    · exact hi.live u (by simpa [Waits.setPlace, h] using hu)
  owed := fun u q slot hmem hgone => by
    by_cases h : u = t
    · subst h
      rcases harmed (q, slot) (by simpa [Waits.setPlace] using hmem) with hold | hqueued
      · exact hi.owed u q slot hold hgone
      · exact absurd hqueued hgone
    · exact hi.owed u q slot (by simpa [Waits.setPlace, h] using hmem) hgone

omit [∀ c, Fintype (T c)] in
/-- A queue changes; the owner of a node that leaves it is to be called, or is done with the node. -/
theorem Inv.requeue (hi : Inv S) {q : Q} {nodes : List ((Σ c, T c) × Bool)} (called : List (Σ c, T c))
    (hkeep : ∀ x ∈ S.queue q, x ∈ nodes ∨ x.1 ∈ called ∨ (q, x.2) ∉ (S.place x.1).armed)
    (hcalled : ∀ t ∈ S.called, t ∈ called) : Inv { S.setQueue q nodes with called := called } where
  core := hi.core
  posted := hi.posted
  live := hi.live
  owed := fun t r slot hmem hgone => by
    have hmem' : (r, slot) ∈ (S.place t).armed := hmem
    by_cases h : r = q
    · subst h
      have hgone' : (t, slot) ∉ nodes := by simpa [setQueue] using hgone
      by_cases hold : (t, slot) ∈ S.queue r
      · rcases hkeep _ hold with hin | hcall | hdone
        · exact absurd hin hgone'
        · exact Or.inl hcall
        · exact absurd hmem' hdone
      · exact (hi.owed t r slot hmem' hold).imp_left (hcalled t)
    · have hgone' : (t, slot) ∉ S.queue r := by simpa [setQueue, h] using hgone
      exact (hi.owed t r slot hmem' hgone').imp_left (hcalled t)

omit [∀ c, Fintype (T c)] in
/-- A wake takes nodes, and loses none. -/
theorem Inv.take (hi : Inv S) {q : Q} {taken left : List ((Σ c, T c) × Bool)}
    (hkeep : ∀ x ∈ S.queue q, x ∈ taken ∨ x ∈ left) : Inv (S.take q taken left) := by
  refine hi.requeue _ (fun x hx => ?_) fun t ht => List.mem_append_left _ ht
  rcases hkeep x hx with ht | hl
  · exact Or.inr (Or.inl (List.mem_append_right _ (List.mem_map_of_mem ht)))
  · exact Or.inl hl

omit [DecidableEq Q] in
/-- A step of one core that is not the start of a pass, nor the exit, of a thread inside a wait. -/
theorem Inv.stepCore (hi : Inv S) {c : Fin n} {act : CoreAct (T c)} {k : Core (T c)}
    (hown : ∀ t, S.place ⟨c, t⟩ ≠ .outside → act = .prepare ∨ act = .threadExit →
      (S.cores c).runningThread ≠ some t)
    (hk : (S.cores c).next act = some k) : Inv (S.setCore c k) := by
  have hstep : ∀ t, S.place ⟨c, t⟩ ≠ .outside →
      k.sched.Live t ∧ (Core.WakeStands (S.cores c) t → Core.WakeStands k t) := fun t ht =>
    Core.WakeStands.next (hi.core c) (hi.live ⟨c, t⟩ ht) (hown t ht) hk
  refine ⟨fun d => ?_, fun d => ?_, fun t ht => ?_, fun t q slot hmem hgone => ?_⟩
  · by_cases hd : d = c
    · subst hd
      simpa [setCore] using (hi.core d).next (fun hf => hf.elim) hk
    · simpa [setCore, hd] using hi.core d
  · by_cases hd : d = c
    · subst hd
      simpa [setCore] using Core.Posted.next (hi.core d) (hi.posted d) hk
    · simpa [setCore, hd] using hi.posted d
  · obtain ⟨d, x⟩ := t
    by_cases hd : d = c
    · subst hd
      simpa [setCore] using (hstep x ht).1
    · simpa [setCore, hd] using hi.live ⟨d, x⟩ ht
  · obtain ⟨d, x⟩ := t
    -- a node armed means a thread inside its wait
    have hin : S.place ⟨d, x⟩ ≠ .outside := fun he => by simp [setCore, he, WaitPlace.armed] at hmem
    refine (hi.owed ⟨d, x⟩ q slot hmem hgone).imp id fun hw => ?_
    by_cases hd : d = c
    · subst hd
      simpa [setCore] using (hstep x hin).2 hw
    · simpa [setCore, hd] using hw

omit [DecidableEq Q] in
/-- A thread that has begun a pass is alive. -/
theorem live_prepare {c : Fin n} {k : Core (T c)} {t : T c} (hi : Core.Inv False (S.cores c))
    (hrun : (S.cores c).runningThread = some t) (h : (S.cores c).next .prepare = some k) :
    k.sched.Live t := by
  cases Core.effect_of_next h with
  | prepare hrun' =>
      obtain rfl := Option.some.inj (hrun'.symm.trans hrun)
      refine ⟨fun hs => ?_, by simp [Sched.setDisposition]⟩
      rcases (hi.running hrun).2.2.live with hl | hl <;> simp [Sched.setDisposition, hl] at hs

omit [DecidableEq Q] in
/-- A pass begins with no node armed, so nothing is owed to the thread. -/
theorem Inv.start (hi : Inv S) {t : Σ c, T c} {p : WaitPlace Q} {k : Core (T t.1)} (hrun : S.executes t = true)
    (hp : p.armed = []) (hk : (S.cores t.1).next .prepare = some k) : Inv ((S.setCore t.1 k).setPlace t p) := by
  have hrun' : (S.cores t.1).runningThread = some t.2 := by simpa [executes] using hrun
  have hlive : k.sched.Live t.2 := live_prepare (hi.core t.1) hrun' hk
  -- seen as outside its wait, the thread makes a step like any other
  have hout : Inv (S.setPlace t .outside) :=
    hi.setPlace (fun hne => absurd rfl hne) fun x hx => absurd hx List.not_mem_nil
  have hi₁ := hout.stepCore (k := k) (fun u hu _ he => ?_) hk
  · have hi₂ := hi₁.setPlace (t := t) (p := p) (fun _ => by simpa [setCore] using hlive)
      fun x hx => by simp [hp] at hx
    simpa [Waits.setPlace, setCore] using hi₂
  · obtain rfl : t.2 = u := Option.some.inj (hrun'.symm.trans he)
    exact hu (by simp [Waits.setPlace])

omit [DecidableEq Q] in
/-- A step of the thread's own core, after which it stands where it keeps its nodes. -/
theorem Inv.moveOn (hi : Inv S) {t : Σ c, T c} {act : CoreAct (T t.1)} {k : Core (T t.1)} {p : WaitPlace Q}
    (hk : (S.cores t.1).next act = some k) (hact : act ≠ .prepare ∧ act ≠ .threadExit)
    (hin : S.place t ≠ .outside) (harmed : ∀ x ∈ p.armed, x ∈ (S.place t).armed) :
    Inv ((S.setCore t.1 k).setPlace t p) := by
  have hi₁ := hi.stepCore (fun _ _ hor => (hor.elim hact.1 hact.2).elim) hk
  exact hi₁.setPlace (fun _ => hi₁.live t hin) fun x hx => Or.inl (harmed x hx)

omit [∀ c, Fintype (T c)] in
/-- The owner takes its node off, where it no longer counts it. -/
theorem Inv.unlink (hi : Inv S) {t : Σ c, T c} {q : Q} {slot : Bool} {p : WaitPlace Q}
    (hin : S.place t ≠ .outside) (harmed : ∀ x ∈ p.armed, x ∈ (S.place t).armed)
    (hdone : (q, slot) ∉ p.armed) :
    Inv ((S.setQueue q ((S.queue q).erase (t, slot))).setPlace t p) := by
  have hi₁ : Inv (S.setPlace t p) :=
    hi.setPlace (fun _ => hi.live t hin) fun x hx => Or.inl (harmed x hx)
  refine hi₁.requeue S.called (fun x hx => ?_) fun _ => id
  by_cases h : x = (t, slot)
  · subst h
    exact Or.inr (Or.inr (by simpa [Waits.setPlace] using hdone))
  · exact Or.inl ((List.mem_erase_of_ne h).mpr hx)

omit [∀ c, Fintype (T c)] in
/-- The owner links its node. -/
theorem Inv.link (hi : Inv S) {t : Σ c, T c} {q : Q} {slot : Bool} {p : WaitPlace Q}
    (hin : S.place t ≠ .outside)
    (harmed : ∀ x ∈ p.armed, x ∈ (S.place t).armed ∨ x = (q, slot)) :
    Inv ((S.setQueue q (Waits.link S.basePriority (t, slot) (S.queue q))).setPlace t p) := by
  have hi₁ : Inv (S.setQueue q (Waits.link S.basePriority (t, slot) (S.queue q))) :=
    hi.requeue S.called (fun x hx => Or.inl (mem_link.mpr (Or.inr hx))) fun _ => id
  refine hi₁.setPlace (fun _ => hi.live t hin) fun x hx => ?_
  rcases harmed x hx with hold | rfl
  · exact Or.inl hold
  · exact Or.inr (by simp [setQueue, mem_link])

omit [∀ c, Fintype (T c)] in
/-- A step of a pass that is none of the core. -/
theorem Inv.quiet (hi : Inv S) {t : Σ c, T c} {act : PassAct (T t.1) Q} {p : WaitPlace Q}
    {queue : Q → List ((Σ c, T c) × Bool)} (hact : act.coreAct = none)
    (hmove : PassMove t S.basePriority S.queue (S.place t) act p queue) :
    Inv { S with place := Function.update S.place t p, queue := queue } := by
  generalize hp : S.place t = old at hmove
  cases hmove with
  | startFirst | startAgain | settle | settleAfter | commit => cases hact
  | arm | armFirst => exact hi.link (by simp [hp]) fun x hx => Or.inr (by simpa [WaitPlace.armed] using hx)
  | armCancel => exact hi.link (by simp [hp]) fun x hx => by simpa [hp, WaitPlace.armed] using hx
  | pollEnds | pollFails => exact hi.setPlace (fun _ => hi.live t (by simp [hp])) fun x hx => Or.inl (by rwa [hp])
  | disarm | disarmFirst | disarmCancel =>
      exact hi.unlink (by simp [hp]) (fun x hx => by simp_all [WaitPlace.armed]) (by simp [WaitPlace.armed])
  | finish => exact hi.setPlace (fun hne => absurd rfl hne) fun x hx => absurd hx List.not_mem_nil

/-- A step of a pass with its core's part. -/
theorem Inv.own (hi : Inv S) {t : Σ c, T c} {act : PassAct (T t.1) Q} {p : WaitPlace Q} {a : CoreAct (T t.1)}
    {k : Core (T t.1)} (hrun : S.executes t = true) (hact : act.coreAct = some a)
    (hmove : PassMove t S.basePriority S.queue (S.place t) act p S.queue)
    (hk : (S.cores t.1).next a = some k) : Inv ((S.setCore t.1 k).setPlace t p) := by
  generalize hp : S.place t = old at hmove
  generalize S.queue = queue at hmove
  cases act <;> cases hact
  · cases hmove <;> exact hi.start hrun rfl hk
  · cases hmove <;> exact hi.moveOn hk (by simp) (by simp [hp]) fun x hx => by rwa [hp]
  · cases hmove
    exact hi.moveOn hk (by simp) (by simp [hp]) fun x hx => by rwa [hp]

omit [DecidableEq Q] [∀ c, Fintype (T c)] in
/-- A call is struck off the list once the wake stands on the core of the thread. -/
theorem Inv.uncall (hi : Inv S) {t : Σ c, T c}
    (ht : S.place t ≠ .outside → Core.WakeStands (S.cores t.1) t.2) :
    Inv { S with called := S.called.erase t } where
  core := hi.core
  posted := hi.posted
  live := hi.live
  owed := fun u q slot hmem hgone => by
    have hmem' : (q, slot) ∈ (S.place u).armed := hmem
    by_cases h : u = t
    · subst h
      exact Or.inr (ht fun he => by simp [he, WaitPlace.armed] at hmem')
    · exact (hi.owed u q slot hmem' hgone).imp_left (List.mem_erase_of_ne h).mpr

/-- **One step keeps the invariant.** -/
theorem Inv.next (hi : Inv S) {act : WaitAct T Q} (h : S.next act = some S') : Inv S' := by
  cases effect_of_next h with
  | core hown hk =>
      refine hi.stepCore (fun t ht hor hr => ?_) hk
      rcases hor with rfl | rfl <;> exact ht (by simpa [ownsAct, hr] using hown)
  | quiet _ hact hmove => exact hi.quiet hact hmove
  | own hrun hact hmove hk => exact hi.own hrun hact hmove hk
  | take => exact hi.take fun x hx => mem_walk hx
  | nobody => exact hi
  | commit hq hk => exact (hi.stepCore (by simp) hk).take fun x hx => by simpa [setCore, hq] using hx
  | call _ hk =>
      refine (hi.stepCore (by simp) hk).uncall fun hin => ?_
      simpa [setCore] using Core.WakeStands.of_clearing (Core.clearing_wake (hi.live _ hin) hk)
  | done _ _ hdone => exact hi.uncall fun hin => absurd (hi.live _ hin) hdone
  | post _ _ hk =>
      refine (hi.stepCore (by simp) hk).uncall fun _ => ?_
      simpa [setCore] using Core.WakeStands.of_pending (Core.pending_remoteClaim hk)

/-! ### No lost wake -/

/-- A `make_ready` of the thread is owed: by a waker that has not called `global_ready_thread` or whose
call has not reached it, or by the intake of its core. -/
def MakeReadyOwed (S : Waits T Q) (t : Σ c, T c) : Prop :=
  (t ∈ S.called ∨ (S.cores t.1).Clearing t.2 ∨ (S.cores t.1).Late t.2) ∨
    (S.cores t.1).sched.pending t.2 = true ∧
      (t.2 ∈ (S.cores t.1).posting ∨ t.2 ∈ (S.cores t.1).sched.intake ∨
        t.2 ∈ (S.cores t.1).handler.chain)

omit [DecidableEq Q] [∀ c, DecidableEq (T c)] [∀ c, Fintype (T c)] in
theorem Inv.makeReadyOwed_of_owed (hi : Inv S) {t : Σ c, T c}
    (hblocked : (S.cores t.1).sched.state t.2 = .blocked) (howed : S.Owed t) : S.MakeReadyOwed t := by
  rcases howed with hcall | hstands
  · exact Or.inl (Or.inl hcall)
  · rcases hstands.blocked hblocked with (hclear | hpend) | hlate
    · exact Or.inl (Or.inr (Or.inl hclear))
    · exact Or.inr ⟨hpend, hi.posted t.1 t.2 hpend⟩
    · exact Or.inl (Or.inr (Or.inr hlate))

omit [DecidableEq Q] [∀ c, DecidableEq (T c)] [∀ c, Fintype (T c)] in
theorem Inv.makeReadyOwed (hi : Inv S) {t : Σ c, T c} {q : Q} {slot : Bool}
    (hblocked : (S.cores t.1).sched.state t.2 = .blocked) (harmed : (q, slot) ∈ (S.place t).armed)
    (hgone : (t, slot) ∉ S.queue q) : S.MakeReadyOwed t :=
  hi.makeReadyOwed_of_owed hblocked (hi.owed t q slot harmed hgone)

/-- **No thread is parked with its wake spent.**  In every state of every run, a thread that is blocked
inside a wait and one of whose nodes is no longer on the queue it armed has a `make_ready` owed to it. -/
theorem no_lost_wake (idle : ∀ c, T c) (basePriority : ∀ c, T c → Level) (threads : ∀ c, List (T c))
    (acts : List (WaitAct T Q)) (hrun : run next (boot idle basePriority threads) acts = some S)
    (t : Σ c, T c) (q : Q) (slot : Bool) (hblocked : (S.cores t.1).sched.state t.2 = .blocked)
    (harmed : (q, slot) ∈ (S.place t).armed) (hgone : (t, slot) ∉ S.queue q) :
    S.MakeReadyOwed t := by
  have hi : Inv S := run_invariant (I := Inv) (fun _ _ _ hi h => hi.next h)
    (inv_boot idle basePriority threads) hrun
  exact hi.makeReadyOwed hblocked harmed hgone

/-- Two cores with a thread each: thread `1` of core `0` parks, with a cancel signal, and core `1` takes
its node and posts the wake. -/
def parkedAndPosted : List (WaitAct (fun _ : Fin 2 => Fin 2) Bool) :=
  [.pass ⟨0, 1⟩ (.start false (some true)), .pass ⟨0, 1⟩ .arm, .pass ⟨0, 1⟩ .armCancel,
    .pass ⟨0, 1⟩ (.poll false false), .pass ⟨0, 1⟩ (.commit fun _ => 0), .wake false .one,
    .call 1 ⟨0, 1⟩ .automatic]

theorem no_lost_wake_parkedAndPosted :
    ∃ S : Waits (fun _ : Fin 2 => Fin 2) Bool,
      run next (boot (fun _ => 0) (fun _ t => if t = 0 then 31 else 5) fun _ => [1]) parkedAndPosted =
        some S ∧ (S.cores 0).sched.state 1 = .blocked ∧ (false, false) ∈ (S.place ⟨0, 1⟩).armed ∧
        (⟨0, 1⟩, false) ∉ S.queue false ∧ S.MakeReadyOwed ⟨0, 1⟩ := by
  have heval : (run next (boot (fun _ => 0) (fun _ t => if t = 0 then 31 else 5) fun _ => [1])
      parkedAndPosted).map (fun S => ((S.cores 0).sched.state 1, (S.place ⟨0, 1⟩).armed, S.queue false)) =
      some (.blocked, [(false, false), (true, true)], []) := rfl
  obtain ⟨S, hS, hv⟩ := Option.map_eq_some_iff.mp heval
  simp only [Prod.mk.injEq] at hv
  obtain ⟨hb, ha, hq⟩ := hv
  have harmed : (false, false) ∈ (S.place ⟨0, 1⟩).armed := by simp [ha]
  have hgone : (⟨0, 1⟩, false) ∉ S.queue false := by simp [hq]
  exact ⟨S, hS, hb, harmed, hgone, no_lost_wake _ _ _ _ hS ⟨0, 1⟩ false false hb harmed hgone⟩

end Waits

end Cyros.Kernel
