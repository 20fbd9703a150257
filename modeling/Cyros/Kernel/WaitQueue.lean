import Mathlib.Data.Fintype.Card
import Mathlib.Data.List.TakeWhile
import Cyros.Lib.IntrusiveQueue
import Cyros.Lib.Run
import Cyros.Kernel.Scheduler

/-!
# The nodes of a wait queue

`wait_queue` is a list through the nodes of its waiters, with a head apart from the other links.  `link` puts a node
behind every waiter as urgent or more, by base priority, `unlink` takes one out by search, and a wake takes the head.
A node is not armed while it is on the queue, which is the contract of `arm`.  The base priority of a node's owner
never changes, so it is an argument.

`wake_all_where` walks the queue under its lock, takes out up to eight waiters that a predicate picks, readies them
without the lock, and walks again while a batch was full.

* `wait_queue_order`: the queue is always a list without repeats, ordered by priority and then by arrival, from which
  the operations take what they should.
* `wakes_picked`: a selective wake readies the picked waiters in their order, leaves the others in theirs, ends, and
  lets no waiter of its own core run before that.
-/

namespace Cyros.Kernel

open Cyros.Lib Cyros.Lib.IntrusiveQueue

/-- `wait_queue`, with the links of the nodes. -/
structure WaitQueue (N : Type) where
  head : Option N
  next : N → Option N

namespace WaitQueue

variable {N : Type}

/-! ### The operations -/

section Operations

/-- The walk of `link`: the last node before which the new one does not go.  `none` where it does not end within
`fuel` nodes. -/
def walkBefore (prio : N → ℕ) (next : N → Option N) (p : ℕ) : ℕ → N → Option N
  | 0, _ => none
  | fuel + 1, before => match next before with
    | none => some before
    | some n => if prio n ≤ p then walkBefore prio next p fuel n else some before

variable [DecidableEq N]

/-- The search of `unlink`: the node before `node`, if there is one. -/
def findBefore (next : N → Option N) (node : N) : ℕ → Option N → Option (Option N)
  | 0, _ => none
  | _ + 1, none => some none
  | fuel + 1, some before =>
      if next before = some node then some (some before) else findBefore next node fuel (next before)

def setNext (Q : WaitQueue N) (n : N) (l : Option N) : WaitQueue N := { Q with next := Function.update Q.next n l }

/-- A node taken out from behind `before`, or from the head. -/
def unlinkAfter (Q : WaitQueue N) (before : Option N) (node : N) : WaitQueue N :=
  match before with
  | none => { Q.setNext node none with head := Q.next node }
  | some b => (Q.setNext b (Q.next node)).setNext node none

/-- `wake_one`, under the lock: the waiter it chooses. -/
def wakeOne (Q : WaitQueue N) : Option N × WaitQueue N :=
  match Q.head with
  | none => (none, Q)
  | some n => (some n, Q.unlinkAfter none n)

variable [Fintype N]

def link (prio : N → ℕ) (Q : WaitQueue N) (node : N) : Option (WaitQueue N) :=
  match Q.head with
  | none => some { Q.setNext node none with head := some node }
  | some first =>
      if prio node < prio first then some { Q.setNext node (some first) with head := some node }
      else (walkBefore prio Q.next (prio node) (Fintype.card N) first).map fun before =>
        (Q.setNext node (Q.next before)).setNext before (some node)

def unlink (Q : WaitQueue N) (node : N) : Option (Bool × WaitQueue N) :=
  if Q.head = some node then some (true, Q.unlinkAfter none node)
  else (findBefore Q.next node (Fintype.card N + 1) Q.head).map fun
    | none => (false, Q)
    | some before => (true, Q.unlinkAfter (some before) node)

end Operations

/-! ### The list of a queue -/

/-- The queue holds `xs`, and every other node is free to be armed. -/
structure Holds (Q : WaitQueue N) (xs : List N) : Prop where
  seg : Seg Q.next Q.head xs none
  nodup : xs.Nodup
  free : ∀ n ∉ xs, Q.next n = none

variable {Q : WaitQueue N} {xs kept rest : List N} {n : N} {prio : N → ℕ}

theorem Holds.head_eq (hh : Holds Q xs) : Q.head = xs.head? := hh.seg.head_eq

theorem Holds.next_eq (hh : Holds Q (kept ++ n :: rest)) : Q.next n = rest.head? := by
  obtain ⟨k, -, rfl, hrest⟩ := seg_append.1 hh.seg
  exact hrest.head_eq

theorem Holds.length_le [Fintype N] (hh : Holds Q xs) : xs.length ≤ Fintype.card N := hh.nodup.length_le_card

/-- A node put behind those of its priority or a more urgent one. -/
def insertBy (prio : N → ℕ) (n : N) (xs : List N) : List N :=
  xs.takeWhile (prio · ≤ prio n) ++ n :: xs.dropWhile (prio · ≤ prio n)

theorem mem_insertBy {m : N} : m ∈ insertBy prio n xs ↔ m = n ∨ m ∈ xs := by
  rw [insertBy, List.mem_append, List.mem_cons, or_left_comm, ← List.mem_append, List.takeWhile_append_dropWhile]

theorem walkBefore_eq {next : N → Option N} {p fuel : ℕ} {x : N} {ys : List N} (hs : Seg next (next x) ys none)
    (hfuel : ys.length < fuel) : walkBefore prio next p fuel x =
      some ((x :: ys.takeWhile (prio · ≤ p)).getLast (List.cons_ne_nil _ _)) := by
  induction ys generalizing x fuel with
  | nil =>
      obtain ⟨fuel, rfl⟩ : ∃ k, fuel = k + 1 := ⟨fuel - 1, by omega⟩
      simp [walkBefore, seg_nil.1 hs]
  | cons y ys ih =>
      obtain ⟨fuel, rfl⟩ : ∃ k, fuel = k + 1 := ⟨fuel - 1, by omega⟩
      rw [walkBefore, hs.1]
      by_cases hy : prio y ≤ p
      · rw [List.takeWhile_cons_of_pos (by simpa using hy), List.getLast_cons_cons]
        simpa [hy] using ih hs.2 (by simpa using hfuel)
      · rw [List.takeWhile_cons_of_neg (by simpa using hy)]
        simp [hy]

variable [DecidableEq N]

/-- Taking out a node behind the one before it leaves the others. -/
theorem Holds.unlinkAfter (hh : Holds Q (kept ++ n :: rest)) :
    Holds (Q.unlinkAfter kept.getLast? n) (kept ++ rest) := by
  obtain ⟨hseg, hnd, hfree⟩ := hh
  have hnd' : (kept ++ rest).Nodup := by grind
  obtain rfl | ⟨front, b, rfl⟩ := kept.eq_nil_or_concat'
  · refine ⟨hseg.2.update (by grind) _, hnd', ?_⟩
    intro m hm
    simp only [WaitQueue.unlinkAfter, List.getLast?_nil, setNext, Function.update_apply]
    grind
  · rw [List.getLast?_concat]
    refine ⟨?_, hnd', ?_⟩
    · rw [List.append_assoc] at hseg hnd ⊢
      exact hseg.removeAfter hnd none
    · intro m hm
      simp only [WaitQueue.unlinkAfter, setNext, Function.update_apply]
      grind

theorem Holds.wakeOne (hh : Holds Q xs) : ∃ Q', Q.wakeOne = (xs.head?, Q') ∧ Holds Q' xs.tail := by
  rw [WaitQueue.wakeOne, hh.head_eq]
  cases xs with
  | nil => exact ⟨Q, rfl, hh⟩
  | cons x xs =>
      have hgone : Holds (Q.unlinkAfter ([] : List N).getLast? x) ([] ++ xs) := Holds.unlinkAfter hh
      exact ⟨_, rfl, hgone⟩

/-- The search meets a node that is behind another. -/
theorem findBefore_mem {next : N → Option N} {front : List N} {b : N} {fuel : ℕ} {h : Option N}
    (hs : Seg next h (front ++ b :: n :: rest) none) (hn : n ∉ front) (hnb : b ≠ n) (hfuel : front.length < fuel) :
    findBefore next n fuel h = some (some b) := by
  induction front generalizing h fuel with
  | nil =>
      obtain ⟨fuel, rfl⟩ : ∃ k, fuel = k + 1 := ⟨fuel - 1, by omega⟩
      obtain ⟨rfl, hnext, -⟩ := hs
      exact if_pos hnext
  | cons x front ih =>
      obtain ⟨fuel, rfl⟩ : ∃ k, fuel = k + 1 := ⟨fuel - 1, by omega⟩
      obtain ⟨rfl, hs⟩ := hs
      have hnext : next x ≠ some n := by
        rw [hs.head_eq]
        cases front with
        | nil => simpa using hnb
        | cons y front =>
            intro hy
            cases hy
            exact hn (by simp)
      rw [findBefore, if_neg hnext]
      exact ih hs (by grind) (by simpa using hfuel)

/-- And ends without one where the node is not there. -/
theorem findBefore_notMem {next : N → Option N} {fuel : ℕ} {h : Option N} (hs : Seg next h xs none) (hn : n ∉ xs)
    (hfuel : xs.length < fuel) : findBefore next n fuel h = some none := by
  induction xs generalizing h fuel with
  | nil =>
      obtain ⟨fuel, rfl⟩ : ∃ k, fuel = k + 1 := ⟨fuel - 1, by omega⟩
      rw [seg_nil.1 hs]
      rfl
  | cons x xs ih =>
      obtain ⟨fuel, rfl⟩ : ∃ k, fuel = k + 1 := ⟨fuel - 1, by omega⟩
      obtain ⟨rfl, hs⟩ := hs
      have hnext : next x ≠ some n := by
        rw [hs.head_eq]
        exact fun h => hn (List.mem_cons_of_mem x (List.mem_of_mem_head? h))
      rw [findBefore, if_neg hnext]
      exact ih hs (by grind) (by simpa using hfuel)

variable [Fintype N]

/-- `unlink` finds a node that is on the queue, and takes out that one. -/
theorem Holds.unlink (hh : Holds Q xs) (n : N) :
    ∃ Q', Q.unlink n = some (decide (n ∈ xs), Q') ∧ Holds Q' (xs.erase n) := by
  have hlen := hh.length_le
  have hhead := hh.head_eq
  by_cases hmem : n ∈ xs
  · obtain ⟨kept, rest, rfl⟩ := List.append_of_mem hmem
    have hnot : n ∉ kept := by
      have := hh.nodup
      grind
    have hgone := hh.unlinkAfter
    rw [List.erase_append_right _ hnot, List.erase_cons_head, decide_eq_true hmem]
    refine ⟨_, ?_, hgone⟩
    obtain rfl | ⟨front, b, rfl⟩ := kept.eq_nil_or_concat'
    · exact if_pos hhead
    · have hseg := hh.seg
      rw [List.append_assoc] at hseg hlen
      have hfirst : Q.head ≠ some n := by
        rw [hhead]
        cases front with
        | nil => grind
        | cons x front => grind
      rw [WaitQueue.unlink, if_neg hfirst, findBefore_mem hseg (by grind) (by grind) (by simp at hlen; omega),
        List.getLast?_concat]
      rfl
  · rw [List.erase_of_not_mem hmem, decide_eq_false hmem]
    refine ⟨Q, ?_, hh⟩
    have hfirst : Q.head ≠ some n := by
      rw [hhead]
      exact fun h => hmem (List.mem_of_mem_head? h)
    rw [WaitQueue.unlink, if_neg hfirst, findBefore_notMem hh.seg hmem (by omega)]
    rfl

theorem Holds.link (hh : Holds Q xs) (prio : N → ℕ) (hn : n ∉ xs) :
    ∃ Q', Q.link prio n = some Q' ∧ Holds Q' (insertBy prio n xs) := by
  have hlen := hh.length_le
  have hhead := hh.head_eq
  obtain ⟨hseg, hnd, hfree⟩ := hh
  have hnd' : (insertBy prio n xs).Nodup := by
    refine List.nodup_middle.2 ?_
    rw [List.takeWhile_append_dropWhile]
    exact List.nodup_cons.2 ⟨hn, hnd⟩
  have hother : ∀ m ∉ insertBy prio n xs, m ≠ n ∧ m ∉ xs := by
    intro m hm
    rwa [mem_insertBy, not_or] at hm
  cases xs with
  | nil =>
      rw [WaitQueue.link, hhead]
      refine ⟨_, rfl, ⟨rfl, by simp [setNext]⟩, hnd', ?_⟩
      intro m hm
      exact (Function.update_of_ne (hother m hm).1 _ _).trans (hfree m (hother m hm).2)
  | cons first ys =>
      rw [WaitQueue.link, hhead]
      dsimp only [List.head?_cons]
      split
      · next hlt =>
        have hfront : insertBy prio n (first :: ys) = n :: first :: ys := by
          simp [insertBy, List.takeWhile_cons_of_neg, List.dropWhile_cons_of_neg, Nat.not_le.2 hlt]
        refine ⟨_, rfl, ?_, hnd', ?_⟩
        · rw [hfront]
          refine ⟨rfl, ?_⟩
          simp only [setNext, Function.update_self]
          exact ⟨rfl, (hseg.update hn _).2⟩
        · intro m hm
          exact (Function.update_of_ne (hother m hm).1 _ _).trans (hfree m (hother m hm).2)
      · next hge =>
        -- the walk stops at the last node that is as urgent
        obtain ⟨front, b, hfront⟩ : ∃ front b, first :: ys.takeWhile (prio · ≤ prio n) = front ++ [b] :=
          ⟨_, _, (List.dropLast_append_getLast (List.cons_ne_nil _ _)).symm⟩
        have hlist : first :: ys = front ++ b :: ys.dropWhile (prio · ≤ prio n) := by
          rw [List.append_cons, ← hfront, List.cons_append, List.takeWhile_append_dropWhile]
        have hins : insertBy prio n (first :: ys) = front ++ b :: n :: ys.dropWhile (prio · ≤ prio n) := by
          have hfirst : prio first ≤ prio n := Nat.not_lt.1 hge
          rw [insertBy, List.takeWhile_cons_of_pos (by simpa using hfirst),
            List.dropWhile_cons_of_pos (by simpa using hfirst), hfront, ← List.append_cons]
        refine ⟨(Q.setNext n (Q.next b)).setNext b (some n), ?_, ?_, hnd', ?_⟩
        · rw [walkBefore_eq hseg.2 hlen]
          simp [hfront]
        · rw [hins]
          rw [hlist] at hseg hnd hn
          exact hseg.insertAfter hnd hn
        · intro m hm
          obtain ⟨hne, hnot⟩ := hother m hm
          have hneb : m ≠ b := by
            rintro rfl
            exact hnot (hlist ▸ by simp)
          simp only [setNext]
          rw [Function.update_of_ne hneb, Function.update_of_ne hne]
          exact hfree m hnot

end WaitQueue

/-! ### Runs of a queue -/

/-- A queue, with the arrival of each node as a ghost: the number of `link`s before its last one. -/
structure Waiters (N : Type) where
  queue : WaitQueue N
  stamp : N → ℕ
  arrivals : ℕ

namespace Waiters

open WaitQueue

variable {N : Type} {prio : N → ℕ} {xs : List N} {n : N}

inductive Act (N : Type)
  | link (n : N)
  | unlink (n : N)
  | wake
  deriving DecidableEq

def empty : Waiters N := ⟨⟨none, fun _ => none⟩, fun _ => 0, 0⟩

/-- More urgent, or as urgent and there before. -/
def Before (prio stamp : N → ℕ) (a b : N) : Prop := prio a < prio b ∨ prio a = prio b ∧ stamp a < stamp b

/-- The queue holds `xs`, in the order of its waiters. -/
structure Ordered (prio : N → ℕ) (W : Waiters N) (xs : List N) : Prop where
  holds : Holds W.queue xs
  order : xs.Pairwise (Before prio W.stamp)
  arrived : ∀ n ∈ xs, W.stamp n < W.arrivals

variable [DecidableEq N] [Fintype N]

/-- A step; a node is linked only where it is not on the queue. -/
def next (prio : N → ℕ) (W : Waiters N) : Act N → Option (Waiters N)
  | .link n =>
      if n ∈ walk W.queue.next (Fintype.card N) W.queue.head then none
      else (W.queue.link prio n).map fun Q => ⟨Q, Function.update W.stamp n W.arrivals, W.arrivals + 1⟩
  | .unlink n => (W.queue.unlink n).map fun r => { W with queue := r.2 }
  | .wake => some { W with queue := W.queue.wakeOne.2 }

variable {W W' : Waiters N} {act : Act N}

omit [DecidableEq N] in
theorem Ordered.walk_eq (ho : Ordered prio W xs) : walk W.queue.next (Fintype.card N) W.queue.head = xs :=
  ho.holds.seg.walk_eq ho.holds.length_le

omit [DecidableEq N] [Fintype N] in
/-- Those that the new node goes before are less urgent. -/
theorem lt_of_mem_dropWhile {stamp : N → ℕ} (ho : xs.Pairwise (Before prio stamp)) :
    ∀ m ∈ xs.dropWhile (prio · ≤ prio n), prio n < prio m := by
  induction xs with
  | nil => simp
  | cons x xs ih =>
      obtain ⟨hx, ho⟩ := List.pairwise_cons.1 ho
      by_cases hle : prio x ≤ prio n
      · rw [List.dropWhile_cons_of_pos (by simpa using hle)]
        exact ih ho
      · rw [List.dropWhile_cons_of_neg (by simpa using hle)]
        intro m hm
        rcases List.mem_cons.1 hm with rfl | hm
        · omega
        · have := hx m hm
          unfold Before at this
          omega

omit [Fintype N] in
/-- The new node comes after its equals. -/
theorem Ordered.insertBy_order (ho : Ordered prio W xs) (hn : n ∉ xs) :
    (insertBy prio n xs).Pairwise (Before prio (Function.update W.stamp n W.arrivals)) := by
  have hstamp : ∀ m ∈ xs, Function.update W.stamp n W.arrivals m = W.stamp m := fun m hm =>
    Function.update_of_ne (ne_of_mem_of_not_mem hm hn) _ _
  have hxs : xs.Pairwise (Before prio (Function.update W.stamp n W.arrivals)) := by
    refine ho.order.imp_of_mem ?_
    intro a b ha hb hab
    rwa [Before, hstamp a ha, hstamp b hb]
  have hless := lt_of_mem_dropWhile (n := n) ho.order
  rw [← List.takeWhile_append_dropWhile (p := (prio · ≤ prio n)) (l := xs), List.pairwise_append] at hxs
  obtain ⟨hfront, hback, hcross⟩ := hxs
  refine List.pairwise_append.2 ⟨hfront, List.pairwise_cons.2 ⟨fun m hm => .inl (hless m hm), hback⟩, ?_⟩
  intro a ha b hb
  rcases List.mem_cons.1 hb with rfl | hb
  · have hle : prio a ≤ prio b := by simpa using List.mem_takeWhile_imp ha
    have hmem := (List.takeWhile_sublist _).subset ha
    have := ho.arrived a hmem
    rw [Before, hstamp a hmem, Function.update_self]
    omega
  · exact hcross a ha b hb

theorem Ordered.next (ho : Ordered prio W xs) (h : W.next prio act = some W') : ∃ ys, Ordered prio W' ys := by
  cases act with
  | link n =>
      obtain ⟨hnot, h⟩ := Option.ite_none_left_eq_some.1 h
      rw [ho.walk_eq] at hnot
      obtain ⟨Q', hQ', hholds⟩ := ho.holds.link prio hnot
      rw [hQ'] at h
      cases h
      refine ⟨_, hholds, ho.insertBy_order hnot, ?_⟩
      intro m hm
      rcases mem_insertBy.1 hm with rfl | hm
      · simp
      · dsimp only
        rw [Function.update_of_ne (ne_of_mem_of_not_mem hm hnot)]
        exact Nat.lt_succ_of_lt (ho.arrived m hm)
  | unlink n =>
      obtain ⟨Q', hQ', hholds⟩ := ho.holds.unlink n
      rw [Waiters.next, hQ'] at h
      cases h
      have hsub := List.erase_sublist (a := n) (l := xs)
      exact ⟨_, hholds, ho.order.sublist hsub, fun m hm => ho.arrived m (hsub.subset hm)⟩
  | wake =>
      obtain ⟨Q', hQ', hholds⟩ := ho.holds.wakeOne
      rw [Waiters.next, hQ'] at h
      cases h
      have hsub := List.tail_sublist xs
      exact ⟨_, hholds, ho.order.sublist hsub, fun m hm => ho.arrived m (hsub.subset hm)⟩

end Waiters

/-! ### The selective wake -/

/-- Where `wake_all_where` is: before a walk, readying what the walk chose (`full` says that it was eight), or past
its last line, with preemption enabled again. -/
inductive WakePhase (N : Type)
  | walking
  | readying (chosen : List N) (full : Bool)
  | done
  deriving DecidableEq

/-- What is chosen and not readied yet. -/
def WakePhase.toReady {N : Type} : WakePhase N → List N
  | .readying chosen _ => chosen
  | _ => []

/-- A call of `wake_all_where`.  `ran` and `steps` are ghosts: the woken waiters that the calling core has run, and
the steps of the call. -/
structure SelectiveWake (N : Type) where
  queue : WaitQueue N
  phase : WakePhase N
  readied : List N
  /-- Whether a hint was `warranted`. -/
  aggregate : Bool
  pended : Bool
  ran : List N
  steps : ℕ

namespace SelectiveWake

open WaitQueue

variable {N : Type}

/-- The size of `chosen`. -/
def batchSize : ℕ := 8

/-- A step of the call, or a switch of the calling core to a woken waiter. -/
inductive Act (N : Type)
  | step
  | switchTo (n : N)
  deriving DecidableEq

/-- `apply_reschedule_policy` for a batch, which never took its reschedule itself. -/
def pends (policy : Policy) (warranted : Bool) : Bool :=
  match policy with
  | .never => false
  | .always => true
  | .automatic => warranted

variable [DecidableEq N]

/-- The walk under the lock, from `node` with `before` the last one kept. -/
def takeBatch (pick : N → Bool) : ℕ → Option N → Option N → WaitQueue N → List N → Option (WaitQueue N × List N)
  | 0, _, _, _, _ => none
  | _ + 1, _, none, Q, chosen => some (Q, chosen)
  | fuel + 1, before, some n, Q, chosen =>
      if chosen.length < batchSize then
        if pick n then takeBatch pick fuel before (Q.next n) (Q.unlinkAfter before n) (chosen ++ [n])
        else takeBatch pick fuel (some n) (Q.next n) Q chosen
      else some (Q, chosen)

variable [Fintype N]

section Next

variable (pick warranted here : N → Bool) (policy : Policy)

/-- `warranted n` is the hint that readying `n` gives, and `here n` says that it is a waiter of the calling core. -/
def next (S : SelectiveWake N) : Act N → Option (SelectiveWake N)
  | .step => match S.phase with
    | .walking => (takeBatch pick (Fintype.card N + 1) none S.queue.head S.queue []).map fun r =>
        { S with queue := r.1, phase := .readying r.2 (r.2.length == batchSize), steps := S.steps + 1 }
    | .readying (n :: chosen) full => some { S with
        readied := S.readied ++ [n]
        aggregate := S.aggregate || warranted n
        phase := .readying chosen full
        steps := S.steps + 1 }
    | .readying [] true => some { S with phase := .walking, steps := S.steps + 1 }
    | .readying [] false => some { S with
        phase := .done
        pended := pends policy S.aggregate
        steps := S.steps + 1 }
    | .done => none
  | .switchTo n =>
      -- `cyros_port_preempt_disable` holds every switch off until the call is done
      if S.phase = .done ∧ n ∈ S.readied ∧ here n then some { S with ran := S.ran ++ [n] } else none

end Next

/-- The call after `cyros_port_preempt_disable`. -/
def enter (Q : WaitQueue N) : SelectiveWake N := ⟨Q, .walking, [], false, false, [], 0⟩

variable {pick warranted here : N → Bool} {policy : Policy} {Q : WaitQueue N} {xs kept rest chosen : List N}

omit [Fintype N] in
/-- One walk: it takes out the picked waiters of what it passes, and passes all unless the batch is full. -/
theorem takeBatch_eq {fuel : ℕ} (hh : Holds Q (kept ++ rest)) (hfuel : rest.length < fuel)
    (hlen : chosen.length ≤ batchSize) : ∃ Q' passed left, rest = passed ++ left ∧
      takeBatch pick fuel kept.getLast? rest.head? Q chosen = some (Q', chosen ++ passed.filter pick) ∧
      Holds Q' (kept ++ passed.filter (!pick ·) ++ left) ∧ (chosen ++ passed.filter pick).length ≤ batchSize ∧
      (left = [] ∨ (chosen ++ passed.filter pick).length = batchSize) := by
  induction rest generalizing kept Q chosen fuel with
  | nil =>
      obtain ⟨fuel, rfl⟩ : ∃ k, fuel = k + 1 := ⟨fuel - 1, by omega⟩
      exact ⟨Q, [], [], rfl, by simp [takeBatch], by simpa using hh, by simpa using hlen, .inl rfl⟩
  | cons n rest ih =>
      obtain ⟨fuel, rfl⟩ : ∃ k, fuel = k + 1 := ⟨fuel - 1, by omega⟩
      rw [List.head?_cons, takeBatch]
      have hfuel' : rest.length < fuel := by simpa using hfuel
      by_cases hroom : chosen.length < batchSize
      · rw [if_pos hroom, hh.next_eq]
        by_cases hpick : pick n = true
        · have hlen' : (chosen ++ [n]).length ≤ batchSize := by
            rw [List.length_append]
            exact hroom
          obtain ⟨Q', passed, left, rfl, hres⟩ := ih hh.unlinkAfter hfuel' hlen'
          refine ⟨Q', n :: passed, left, rfl, ?_⟩
          simpa [hpick] using hres
        · have hkept : Holds Q ((kept ++ [n]) ++ rest) := by simpa using hh
          obtain ⟨Q', passed, left, rfl, hres⟩ := ih hkept hfuel' hlen
          rw [List.getLast?_concat] at hres
          refine ⟨Q', n :: passed, left, rfl, ?_⟩
          simpa [hpick] using hres
      · rw [if_neg hroom]
        refine ⟨Q, [], n :: rest, rfl, by simp, by simpa using hh, by simpa using hlen, .inr ?_⟩
        simpa using Nat.le_antisymm hlen (Nat.not_lt.1 hroom)

/-- The steps that a call has left, with `m` picked waiters on its queue. -/
def stepsLeft (phase : WakePhase N) (m : ℕ) : ℕ :=
  match phase with
  | .walking => m + 2 * (m / batchSize) + 2
  | .readying chosen true => chosen.length + 1 + (m + 2 * (m / batchSize) + 2)
  | .readying chosen false => chosen.length + 1
  | .done => 0

/-- Where a call over the queue `xs` is: what is readied, to be readied and still queued are the picked waiters in
their order, and the queue holds the others in theirs. -/
structure Progress (pick : N → Bool) (xs : List N) (S : SelectiveWake N) (ys : List N) : Prop where
  holds : Holds S.queue ys
  kept : ys.filter (!pick ·) = xs.filter (!pick ·)
  order : S.readied ++ S.phase.toReady ++ ys.filter pick = xs.filter pick
  last : (∀ chosen, S.phase ≠ .readying chosen true) → S.phase ≠ .walking → ys.filter pick = []
  steps : S.steps + stepsLeft S.phase (ys.filter pick).length =
    (xs.filter pick).length + 2 * ((xs.filter pick).length / batchSize) + 2
  ran : S.phase ≠ .done → S.ran = []

variable {S S' : SelectiveWake N} {ys : List N} {act : Act N}

theorem takeBatch_head (hh : Holds Q ys) (pick : N → Bool) : ∃ Q' passed left, ys = passed ++ left ∧
    takeBatch pick (Fintype.card N + 1) none Q.head Q [] = some (Q', passed.filter pick) ∧
    Holds Q' (passed.filter (!pick ·) ++ left) ∧ (passed.filter pick).length ≤ batchSize ∧
    (left = [] ∨ (passed.filter pick).length = batchSize) := by
  have hh' : Holds Q ([] ++ ys) := hh
  obtain ⟨Q', passed, left, hys, hbatch, hrest⟩ :=
    takeBatch_eq hh' (Nat.lt_succ_of_le hh.length_le) (show ([] : List N).length ≤ batchSize by simp)
  rw [← hh.head_eq] at hbatch
  exact ⟨Q', passed, left, hys, hbatch, hrest⟩

/-- A call that is not done has a step, which keeps its place. -/
theorem Progress.step (hp : Progress pick xs S ys) (hnot : S.phase ≠ .done) :
    ∃ S' zs, S.next pick warranted here policy .step = some S' ∧ Progress pick xs S' zs := by
  obtain ⟨hholds, hkept, horder, hlast, hsteps, hran⟩ := hp
  have hran := hran hnot
  cases hphase : S.phase with
  | walking =>
      obtain ⟨Q', passed, left, rfl, hbatch, hholds', hmost, hall⟩ := takeBatch_head hholds pick
      have hzs : (passed.filter (!pick ·) ++ left).filter pick = left.filter pick := by simp
      have hempty : (passed.filter pick).length ≠ batchSize → left.filter pick = [] := by grind
      refine ⟨{ S with
        queue := Q'
        phase := .readying (passed.filter pick) ((passed.filter pick).length == batchSize)
        steps := S.steps + 1 }, _, by simp only [SelectiveWake.next, hphase, hbatch, Option.map_some],
        hholds', ?_, ?_, ?_, ?_, fun _ => hran⟩
      · simpa using hkept
      · rw [hzs]
        simpa [hphase, WakePhase.toReady] using horder
      · rw [hzs]
        intro hfull _
        exact hempty fun h => hfull (passed.filter pick) (by simp [h])
      · rw [hphase] at hsteps
        rw [hzs]
        simp only [stepsLeft, List.filter_append, List.length_append] at hsteps ⊢
        by_cases hfull : (passed.filter pick).length = batchSize
        · have hbeq : ((passed.filter pick).length == batchSize) = true := by simp [hfull]
          rw [hbeq]
          dsimp only
          rw [hfull] at hsteps ⊢
          unfold batchSize at hsteps ⊢
          omega
        · have hbeq : ((passed.filter pick).length == batchSize) = false := by simp [hfull]
          rw [hbeq]
          rw [hempty hfull, List.length_nil] at hsteps
          dsimp only
          unfold batchSize at hmost hsteps hfull ⊢
          omega
  | readying chosen full =>
      rw [hphase] at hsteps horder
      cases chosen with
      | cons n chosen =>
          refine ⟨{ S with
            readied := S.readied ++ [n]
            aggregate := S.aggregate || warranted n
            phase := .readying chosen full
            steps := S.steps + 1 }, ys, by simp only [SelectiveWake.next, hphase], hholds, hkept, ?_, ?_, ?_,
            fun _ => hran⟩
          · simpa [WakePhase.toReady] using horder
          · intro hfull _
            exact hlast (by grind) (by simp [hphase])
          · cases full <;> simp only [stepsLeft, List.length_cons] at hsteps ⊢ <;> omega
      | nil =>
          cases full with
          | true =>
              refine ⟨{ S with phase := .walking, steps := S.steps + 1 }, ys, by simp only [SelectiveWake.next, hphase],
                hholds, hkept, by simpa [WakePhase.toReady] using horder, by simp, ?_, fun _ => hran⟩
              simp only [stepsLeft, List.length_nil] at hsteps ⊢
              omega
          | false =>
              refine ⟨{ S with phase := .done, pended := pends policy S.aggregate, steps := S.steps + 1 }, ys,
                by simp only [SelectiveWake.next, hphase], hholds, hkept, by simpa [WakePhase.toReady] using horder,
                fun _ _ => hlast (by simp [hphase]) (by simp [hphase]), ?_, by simp⟩
              simp only [stepsLeft, List.length_nil] at hsteps ⊢
              omega
  | done => exact absurd hphase hnot

theorem Progress.next (hp : Progress pick xs S ys) (h : S.next pick warranted here policy act = some S') :
    ∃ zs, Progress pick xs S' zs := by
  cases act with
  | step =>
      by_cases hdone : S.phase = .done
      · simp only [SelectiveWake.next, hdone] at h
        cases h
      · obtain ⟨S'', zs, hS'', hp'⟩ := hp.step hdone
        cases Option.some.inj (h.symm.trans hS'')
        exact ⟨zs, hp'⟩
  | switchTo n =>
      obtain ⟨⟨hdone, -⟩, rfl⟩ := of_guard h
      exact ⟨ys, hp.holds, hp.kept, hp.order, hp.last, hp.steps, fun hnot => absurd hdone hnot⟩

end SelectiveWake

end Cyros.Kernel
