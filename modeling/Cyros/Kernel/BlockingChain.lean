import Cyros.Lib.Run
import Cyros.Lib.Trail
import Cyros.Kernel.Scheduler

/-!
# The blocking chain of a thread

`blocking_chain_of` follows the holders of the mutexes that threads are blocked on, from a queried thread, and when it
meets a thread again it walks the cycle once more to confirm it.  It takes no lock: each word is loaded at a time of its
own, and the system moves on in between.  So the code is a function of the graph at each of its loads.

* `chain_on_still_graph`: on a graph that does not change, it lists the holders up to eight, and reports a deadlock just
  where a cycle of blocked threads is reached within eight threads.
* `cycle_stands`: a cycle that it reports stands at the end of the call, in every run in which no thread of it is woken
  and no mutex that one of them waits for is unlocked while it is confirmed.
* `phantom_deadlock`: otherwise it reports a cycle whose edges were there at the loads and never at one time.
-/

namespace Cyros.Kernel

open Cyros.Lib Relation

/-- The words that the walk loads. -/
structure WaitGraph (T M : Type) where
  state : T → ThreadState
  blockedOn : T → Option M
  owner : M → Option T

variable {T M : Type} [DecidableEq T]

namespace WaitGraph

/-! ### The walk -/

/-- `next_holder`, whose two loads find the graph as it is at `k` and at `k + 1`. -/
def nextHolder (G : ℕ → WaitGraph T M) (k : ℕ) (t : T) : Option T :=
  match (G k).blockedOn t with
  | none => none
  | some m => match (G (k + 1)).owner m with
    | none => none
    | some holder => if holder = t then none else some holder

/-- `confirm_cycle` from load `k` on; `first` is where the cycle closes. -/
def confirmCycle (G : ℕ → WaitGraph T M) (first : T) : ℕ → List T → Bool
  | _, [] => true
  | k, node :: rest =>
      decide ((G k).state node = .blocked) && nextHolder G (k + 1) node == some (rest.headD first) &&
        confirmCycle G first (k + 3) rest

/-- `blocking_chain`, with the cycle that was to be confirmed and the load at which that began as ghosts. -/
structure BlockingChain (T : Type) where
  holders : List T
  deadlocked : Bool
  cycle : List T
  since : ℕ

/-- `max_links` -/
def maxLinks : ℕ := 8

/-- The loop, with so many links left, from load `k` on. -/
def follow (G : ℕ → WaitGraph T M) : ℕ → ℕ → T → List T → BlockingChain T
  | 0, k, _, visited => ⟨visited.tail, false, [], k⟩
  | links + 1, k, current, visited => match nextHolder G k current with
    | none => ⟨visited.tail, false, [], k⟩
    | some holder =>
        if holder ∈ visited then
          let cycle := visited.dropWhile (· ≠ holder)
          ⟨visited.tail, confirmCycle G holder (k + 2) cycle, cycle, k + 2⟩
        else follow G links (k + 2) holder (visited ++ [holder])

/-- `blocking_chain_of` a thread that has a control block. -/
def blockingChainOf (G : ℕ → WaitGraph T M) (start : T) : BlockingChain T := follow G maxLinks 0 start [start]

/-! ### A still graph -/

/-- The edge of a thread on a graph that does not change. -/
def edge (G : WaitGraph T M) (t : T) : Option T := nextHolder (fun _ => G) 0 t

variable {G : WaitGraph T M} {t first current : T} {visited cycle : List T}

/-- The confirming pass finds the edges of a cycle again, so it asks for the states. -/
theorem confirmCycle_still {k : ℕ} (hc : cycle.IsChain (Follows G.edge))
    (hlast : ∀ z, cycle.getLast? = some z → G.edge z = some first) :
    confirmCycle (fun _ => G) first k cycle = true ↔ ∀ x ∈ cycle, G.state x = .blocked := by
  induction cycle generalizing k with
  | nil => simp [confirmCycle]
  | cons x cycle ih =>
      have hedge : nextHolder (fun _ => G) (k + 1) x = some (cycle.headD first) := by
        cases cycle with
        | nil => exact hlast x rfl
        | cons y cycle => exact (List.isChain_cons_cons.1 hc).1
      have hrest : ∀ z, cycle.getLast? = some z → G.edge z = some first := by
        intro z hz
        refine hlast z ?_
        cases cycle with
        | nil => cases hz
        | cons y cycle => exact hz
      rw [confirmCycle, hedge]
      simp [ih hc.tail hrest]

/-- How the loop ends, with its answer: at a thread without an edge, at the limit, or back on the trail. -/
inductive Ends (G : WaitGraph T M) (trail : List T) : Bool → Prop
  | free {z : T} (hz : trail.getLast? = some z) (hend : G.edge z = none) (hlen : trail.length ≤ maxLinks) :
      Ends G trail false
  | limit (hlen : trail.length = maxLinks + 1) : Ends G trail false
  | back {z first : T} {pre post : List T} {answer : Bool} (hz : trail.getLast? = some z) (hend : G.edge z = some first)
      (hsplit : trail = pre ++ first :: post) (hlen : trail.length ≤ maxLinks)
      (hanswer : answer = true ↔ ∀ x ∈ first :: post, G.state x = .blocked) : Ends G trail answer

theorem follow_still {links : ℕ} (k : ℕ) (hc : visited.IsChain (Follows G.edge)) (hnd : visited.Nodup)
    (hcur : visited.getLast? = some current) (hlen : visited.length + links = maxLinks + 1) :
    ∃ more, (visited ++ more).IsChain (Follows G.edge) ∧ (visited ++ more).Nodup ∧
      (follow (fun _ => G) links k current visited).holders = (visited ++ more).tail ∧
      Ends G (visited ++ more) (follow (fun _ => G) links k current visited).deadlocked := by
  induction links generalizing k current visited with
  | zero => exact ⟨[], by simpa, by simpa, by simp [follow], .limit (by simpa using hlen)⟩
  | succ links ih =>
      have hedge : nextHolder (fun _ => G) k current = G.edge current := rfl
      rw [follow, hedge]
      cases hnext : G.edge current with
      | none => exact ⟨[], by simpa, by simpa, by simp, .free (by simpa using hcur) hnext (by simp; omega)⟩
      | some holder =>
          dsimp only
          split
          · next hmem =>
            obtain ⟨pre, post, hsplit⟩ := List.append_of_mem hmem
            have hdrop : visited.dropWhile (· ≠ holder) = holder :: post := by
              rw [hsplit, List.dropWhile_append_of_pos (by grind)]
              simp
            refine ⟨[], by simpa, by simpa, by simp, .back (by simpa using hcur) hnext (by simpa using hsplit)
              (by simp; omega) ?_⟩
            rw [hdrop]
            refine confirmCycle_still ?_ ?_
            · rw [hsplit] at hc
              exact hc.right_of_append
            · intro z hz
              rw [hsplit, List.getLast?_append_of_ne_nil _ (List.cons_ne_nil _ _), hz] at hcur
              rwa [Option.some.inj hcur]
          · next hmem =>
            have hc' : (visited ++ [holder]).IsChain (Follows G.edge) := by
              refine List.isChain_append.2 ⟨hc, List.isChain_singleton holder, ?_⟩
              intro x hx y hy
              rw [hcur, Option.mem_some_iff] at hx
              rw [List.head?_cons, Option.mem_some_iff] at hy
              rw [← hx, ← hy]
              exact hnext
            have hnd' : (visited ++ [holder]).Nodup := by grind
            obtain ⟨more, hres⟩ := ih (k + 2) hc' hnd' List.getLast?_concat (by simp; omega)
            exact ⟨holder :: more, by simpa using hres⟩

section Answer

variable {more : List T} {answer : Bool} (he : Ends G (t :: more) answer)

include he

theorem Ends.length_le : more.length ≤ maxLinks := by
  cases he with
  | free hz hend hlen => exact (Nat.le_succ _).trans hlen
  | limit hlen => exact (Nat.succ.inj hlen).le
  | back hz hend hsplit hlen hanswer => exact (Nat.le_succ _).trans hlen

/-- Below the limit there is no new thread. -/
theorem Ends.closed (hlt : more.length < maxLinks) :
    ∀ z, (t :: more).getLast? = some z → ∀ b, Follows G.edge z b → b ∈ t :: more := by
  intro z hz b hb
  cases he with
  | free hz' hend hlen =>
      rw [Option.some.inj (hz.symm.trans hz')] at hb
      cases hend.symm.trans hb
  | limit hlen => exact absurd (Nat.succ.inj hlen) hlt.ne
  | back hz' hend hsplit hlen hanswer =>
      rw [Option.some.inj (hz.symm.trans hz')] at hb
      cases hend.symm.trans hb
      rw [hsplit]
      simp

theorem Ends.answer_iff (hc : (t :: more).IsChain (Follows G.edge)) (hnd : (t :: more).Nodup) :
    answer = true ↔ (∃ x, ReflTransGen (Follows G.edge) t x ∧ TransGen (Follows G.edge) x x ∧
      ∀ y, ReflTransGen (Follows G.edge) x y → G.state y = .blocked) ∧
      {x | ReflTransGen (Follows G.edge) t x}.encard ≤ 8 := by
  have hclosed := he.closed
  cases he with
  | free hz hend hlen =>
      simp only [Bool.false_eq_true, false_iff, not_and]
      rintro ⟨x, hx, hcyc, -⟩
      rw [reaches_iff hc (hclosed hlen)] at hx
      obtain ⟨pre, post, hsplit⟩ := List.append_of_mem hx
      rw [hsplit] at hc hnd hz
      refine absurd hcyc (not_cycle hc hnd ?_)
      intro z hz' b hb
      rw [Option.some.inj (hz'.symm.trans hz)] at hb
      cases hend.symm.trans hb
  | limit hlen =>
      -- nine threads are met, one more than the limit
      have hmet : ((t :: more).toFinset : Set T) ⊆ {x | ReflTransGen (Follows G.edge) t x} := by
        intro x hx
        exact reaches_of_isChain hc x (by simpa using hx)
      have hcard := Set.encard_le_encard hmet
      rw [Set.encard_coe_eq_coe_finsetCard, List.toFinset_card_of_nodup hnd, hlen] at hcard
      simp only [Bool.false_eq_true, false_iff, not_and, not_le]
      exact fun _ => lt_of_lt_of_le (by decide) hcard
  | back hz hend hsplit hlen hanswer =>
      next z first pre post =>
      have hcard := encard_reached hc (hclosed hlen) hnd
      have hfirst : first ∈ t :: more := by
        rw [hsplit]
        simp
      -- from the place where the trail comes back, every thread reaches every other
      have hcycle : ∀ x ∈ first :: post, ReflTransGen (Follows G.edge) x z ∧ ReflTransGen (Follows G.edge) first x := by
        intro x hx
        obtain ⟨as, bs, hpost⟩ := List.append_of_mem hx
        rw [hsplit] at hc hz
        have hcyc : (first :: post).IsChain (Follows G.edge) := hc.right_of_append
        refine ⟨?_, reaches_of_isChain hcyc x hx⟩
        rw [List.getLast?_append_of_ne_nil _ (List.cons_ne_nil _ _), hpost,
          List.getLast?_append_of_ne_nil _ (List.cons_ne_nil _ _)] at hz
        rw [hpost] at hcyc
        exact reaches_of_isChain hcyc.right_of_append z (List.mem_of_getLast? hz)
      have hback : ∀ w, (t :: more).getLast? = some w → ∀ b, Follows G.edge w b → b = first := by
        intro w hw b hb
        rw [Option.some.inj (hw.symm.trans hz)] at hb
        exact Option.some.inj (hb.symm.trans hend)
      rw [hcard, hanswer]
      refine ⟨fun hblocked => ⟨⟨first, (reaches_iff hc (hclosed hlen)).2 hfirst, ?_, ?_⟩, by exact_mod_cast hlen⟩, ?_⟩
      · exact TransGen.tail' (hcycle first List.mem_cons_self).1 hend
      · intro y hy
        rw [hsplit] at hc hback
        exact hblocked y (reaches_mem hc (fun w hw b hb => by rw [hback w hw b hb]; simp) List.mem_cons_self hy)
      · rintro ⟨⟨x, hx, hcyc, hblocked⟩, -⟩ y hy
        have hmem : x ∈ first :: post := by
          rw [reaches_iff hc (hclosed hlen), hsplit, List.mem_append] at hx
          refine hx.resolve_left fun hpre => ?_
          obtain ⟨as, bs, rfl⟩ := List.append_of_mem hpre
          rw [hsplit, List.append_assoc, List.cons_append] at hc hnd hback
          exact not_cycle hc hnd (fun w hw b hb => by rw [hback w hw b hb]; simp) hcyc
        exact hblocked y (((hcycle x hmem).1.tail hend).trans (hcycle y hy).2)

end Answer

/-- **The chain on a still graph**: the holders are the threads met by following the edges from the queried one, in
order and without repeats, up to eight or until there is no new one; and a deadlock is reported where the edges lead
to a cycle all of whose threads are blocked, and at most eight threads are reached. -/
theorem chain_on_still_graph (G : WaitGraph T M) (t : T) :
    let chain := blockingChainOf (fun _ => G) t
    (t :: chain.holders).IsChain (Follows G.edge) ∧ (t :: chain.holders).Nodup ∧ chain.holders.length ≤ maxLinks ∧
      (chain.holders.length < maxLinks → ∀ z, (t :: chain.holders).getLast? = some z → ∀ b, G.edge z = some b →
        b ∈ t :: chain.holders) ∧
      (chain.deadlocked = true ↔ (∃ x, ReflTransGen (Follows G.edge) t x ∧ TransGen (Follows G.edge) x x ∧
        ∀ y, ReflTransGen (Follows G.edge) x y → G.state y = .blocked) ∧
        {x | ReflTransGen (Follows G.edge) t x}.encard ≤ 8) := by
  obtain ⟨more, hc, hnd, hholders, hends⟩ := follow_still 0 (List.isChain_singleton t) (List.nodup_singleton t) rfl
    (show [t].length + maxLinks = maxLinks + 1 from rfl)
  change (blockingChainOf (fun _ => G) t).holders = more at hholders
  rw [List.singleton_append] at hc hnd hends
  dsimp only
  rw [hholders]
  exact ⟨hc, hnd, hends.length_le, hends.closed, hends.answer_iff hc hnd⟩

/-! ### A graph that moves -/

/-- Each thread is blocked on a mutex owned by the next one, and the last by the first. -/
def Stands (G : WaitGraph T M) (first : T) : List T → Prop
  | [] => True
  | node :: rest => (G.state node = .blocked ∧ (G.blockedOn node).bind G.owner = some (rest.headD first)) ∧
      Stands G first rest

instance (G : WaitGraph T M) (first : T) : (nodes : List T) → Decidable (Stands G first nodes)
  | [] => isTrue trivial
  | _ :: rest =>
      have : Decidable (Stands G first rest) := instDecidableStands G first rest
      inferInstanceAs (Decidable (_ ∧ _))

/-- The cycle that a report is about begins where it closes, and was confirmed. -/
theorem confirmed_of_deadlocked {G : ℕ → WaitGraph T M} {links k : ℕ}
    (h : (follow G links k current visited).deadlocked = true) :
    ∃ first rest, (follow G links k current visited).cycle = first :: rest ∧
      confirmCycle G first (follow G links k current visited).since (first :: rest) = true := by
  induction links generalizing k current visited with
  | zero => cases h
  | succ links ih =>
      rw [follow] at h ⊢
      cases hnext : nextHolder G k current with
      | none =>
          rw [hnext] at h
          cases h
      | some holder =>
          rw [hnext] at h
          dsimp only at h ⊢
          split at h
          · next hmem =>
            rw [if_pos hmem]
            obtain ⟨post, hdrop⟩ := dropWhile_ne_of_mem hmem
            rw [hdrop] at h ⊢
            exact ⟨holder, post, rfl, h⟩
          · next hmem =>
            rw [if_neg hmem]
            exact ih h

end WaitGraph

/-- Where a thread is in `lock`. -/
inductive LockPlace (M : Type)
  | out
  | armed (m : M)
  | published (m : M)
  /-- The poll found an owner. -/
  | refused (m : M)
  /-- Not parked, or back from it: to disarm and clear the edge. -/
  | leaving (m : M)
  /-- To go round, without the mutex. -/
  | again (m : M)
  deriving DecidableEq

/-- The threads and their mutexes; `waiters` are the nodes on the queue of a mutex, `prepared` the wish to block. -/
structure Locks (T M : Type) where
  graph : WaitGraph T M
  place : T → LockPlace M
  waiters : M → List T
  prepared : T → Bool

namespace Locks

open WaitGraph

inductive Act (T M : Type)
  | take (t : T) (m : M)
  | arm (t : T) (m : M)
  | publish (t : T)
  | poll (t : T)
  | park (t : T)
  | leave (t : T)
  /-- The owner of `m` releases it to `chosen`. -/
  | unlock (t : T) (m : M) (chosen : Option T)
  | wake (t : T)
  | dispatch (t : T)
  | preempt (t : T)
  deriving DecidableEq

variable [DecidableEq M]

def setState (S : Locks T M) (t : T) (x : ThreadState) : Locks T M :=
  { S with graph := { S.graph with state := Function.update S.graph.state t x } }

def setBlockedOn (S : Locks T M) (t : T) (m : Option M) : Locks T M :=
  { S with graph := { S.graph with blockedOn := Function.update S.graph.blockedOn t m } }

def setOwner (S : Locks T M) (m : M) (t : Option T) : Locks T M :=
  { S with graph := { S.graph with owner := Function.update S.graph.owner m t } }

def setPlace (S : Locks T M) (t : T) (p : LockPlace M) : Locks T M := { S with place := Function.update S.place t p }

def setWaiters (S : Locks T M) (m : M) (ts : List T) : Locks T M :=
  { S with waiters := Function.update S.waiters m ts }

def setPrepared (S : Locks T M) (t : T) (b : Bool) : Locks T M :=
  { S with prepared := Function.update S.prepared t b }

/-- The steps of `lock`, `unlock` and `hand_over`, and of the wakes and switches around them.  Any thread may be woken
at any time, as `thread::resume` does. -/
def next (S : Locks T M) : Act T M → Option (Locks T M)
  | .take t m =>
      if S.graph.state t = .running ∧ S.place t = .out ∧ S.graph.owner m = none then some (S.setOwner m (some t)) else none
  | .arm t m =>
      if S.graph.state t = .running ∧ (S.place t = .out ∨ S.place t = .again m) ∧ S.graph.owner m ≠ some t then
        some (((S.setWaiters m (S.waiters m ++ [t])).setPrepared t true).setPlace t (.armed m))
      else none
  | .publish t => match S.place t with
    | .armed m => if S.graph.state t = .running then some ((S.setBlockedOn t (some m)).setPlace t (.published m)) else none
    | _ => none
  | .poll t => match S.place t with
    | .published m =>
        if S.graph.state t = .running then
          if S.graph.owner m = none then some ((S.setOwner m (some t)).setPlace t (.leaving m))
          else some (S.setPlace t (.refused m))
        else none
    | _ => none
  | .park t => match S.place t with
    | .refused m =>
        if S.graph.state t = .running then
          if S.prepared t then some (((S.setState t .blocked).setPrepared t false).setPlace t (.leaving m))
          else some (S.setPlace t (.leaving m))
        else none
    | _ => none
  | .leave t => match S.place t with
    | .leaving m =>
        if S.graph.state t = .running then
          some (((S.setWaiters m ((S.waiters m).erase t)).setBlockedOn t none).setPlace t
            (if S.graph.owner m = some t then .out else .again m))
        else none
    | _ => none
  | .unlock t m chosen =>
      if S.graph.state t = .running ∧ S.place t = .out ∧ S.graph.owner m = some t ∧
          (chosen = none ∧ S.waiters m = [] ∨ ∃ c ∈ S.waiters m, chosen = some c) then
        some ((S.setOwner m chosen).setWaiters m ((S.waiters m).filter fun c => some c ≠ chosen))
      else none
  | .wake t => some (if S.graph.state t = .blocked then (S.setPrepared t false).setState t .ready else S.setPrepared t false)
  | .dispatch t => if S.graph.state t = .ready then some (S.setState t .running) else none
  | .preempt t => if S.graph.state t = .running then some (S.setState t .ready) else none

/-- No thread of the cycle is woken, and no mutex that one of them is blocked on is released. -/
def Quiet (cycle : List T) (S : Locks T M) : Act T M → Prop
  | .wake t => t ∉ cycle
  | .unlock _ m _ => ∀ n ∈ cycle, S.graph.blockedOn n ≠ some m
  | _ => True

variable {S S' : Locks T M} {act : Act T M} {cycle : List T} {n t u : T} {m : M}

omit [DecidableEq M] in
@[grind =] theorem setState_state {x : ThreadState} :
    (S.setState t x).graph.state u = if u = t then x else S.graph.state u := Function.update_apply ..

omit [DecidableEq M] in
@[grind =] theorem setBlockedOn_blockedOn {o : Option M} :
    (S.setBlockedOn t o).graph.blockedOn u = if u = t then o else S.graph.blockedOn u := Function.update_apply ..

omit [DecidableEq T] in
@[grind =] theorem setOwner_owner {k : M} {o : Option T} :
    (S.setOwner m o).graph.owner k = if k = m then o else S.graph.owner k := Function.update_apply ..

/-- What the confirming pass has found of a thread stays. -/
structure Stays (n : T) (S S' : Locks T M) : Prop where
  state : S'.graph.state n = .blocked
  blockedOn : S'.graph.blockedOn n = S.graph.blockedOn n
  edge : ∀ m h, S.graph.blockedOn n = some m → S.graph.owner m = some h → S'.graph.owner m = some h

theorem stays_next (hn : n ∈ cycle) (hblocked : S.graph.state n = .blocked) (hquiet : Quiet cycle S act)
    (h : S.next act = some S') : Stays n S S' := by
  unfold Locks.next at h
  cases act <;> constructor <;> grind [Quiet, setState, setBlockedOn, setOwner, setPlace, setWaiters, setPrepared]

omit [DecidableEq T] [DecidableEq M] in
theorem Stays.trans {S'' : Locks T M} (h : Stays n S S') (h' : Stays n S' S'') : Stays n S S'' :=
  ⟨h'.state, h'.blockedOn.trans h.blockedOn, fun m u hm hu => h'.edge m u (h.blockedOn.trans hm) (h.edge m u hm hu)⟩

theorem stays_run {acts : List (Act T M)} (hn : n ∈ cycle) (hblocked : S.graph.state n = .blocked)
    (hquiet : Meets next (Quiet cycle) S acts) (h : run next S acts = some S') : Stays n S S' := by
  have hrefl : Stays n S S := ⟨hblocked, rfl, fun _ _ _ hu => hu⟩
  exact run_invariant_of_meets (fun _ _ _ hs hq hstep => hs.trans (stays_next hn hs.state hq hstep)) hrefl hquiet h

/-- The states of the system at the loads of a call, with what happens in between; from load `since` on, nothing
happens to the cycle. -/
def Seen (cycle : List T) (since : ℕ) (S : ℕ → Locks T M) : Prop :=
  ∀ i, ∃ acts, run next (S i) acts = some (S (i + 1)) ∧ (since ≤ i → Meets next (Quiet cycle) (S i) acts)

section Confirmed

variable {S : ℕ → Locks T M} {since i j : ℕ}

theorem Seen.stays (hS : Seen cycle since S) (hn : n ∈ cycle) (hsince : since ≤ i) (hij : i ≤ j)
    (hblocked : (S i).graph.state n = .blocked) : Stays n (S i) (S j) := by
  induction hij with
  | refl => exact ⟨hblocked, rfl, fun _ _ _ hu => hu⟩
  | step hij ih =>
      obtain ⟨acts, hrun, hquiet⟩ := hS _
      exact ih.trans (stays_run hn ih.state (hquiet (hsince.trans hij)) hrun)

/-- A pass that confirms leaves a cycle that stands at its end. -/
theorem Seen.stands {first : T} {nodes : List T} (hS : Seen cycle since S) (hsub : ∀ n ∈ nodes, n ∈ cycle)
    (hsince : since ≤ i) (hend : i + 3 * nodes.length ≤ j)
    (h : confirmCycle (fun i => (S i).graph) first i nodes = true) : Stands (S j).graph first nodes := by
  induction nodes generalizing i with
  | nil => trivial
  | cons n nodes ih =>
      have hn := hsub n List.mem_cons_self
      simp only [confirmCycle, Bool.and_eq_true, decide_eq_true_eq, beq_iff_eq] at h
      obtain ⟨⟨hblocked, hholder⟩, hrest⟩ := h
      rw [List.length_cons] at hend
      refine ⟨?_, ih (fun m hm => hsub m (List.mem_cons_of_mem n hm)) (by omega) (by omega) hrest⟩
      -- the thread was blocked at the first load, its edge is read at the next two
      have hfirst := hS.stays hn hsince (Nat.le_succ i) hblocked
      have hsecond := hS.stays hn (Nat.le_succ_of_le hsince) (Nat.le_succ (i + 1)) hfirst.state
      have hthird := hS.stays hn (by omega) (show i + 2 ≤ j by omega) hsecond.state
      unfold nextHolder at hholder
      split at hholder
      · cases hholder
      · next m hm =>
        split at hholder
        · cases hholder
        · next u hu =>
          split at hholder
          · cases hholder
          · obtain rfl := Option.some.inj hholder
            have hm' := hsecond.blockedOn.trans hm
            refine ⟨hthird.state, ?_⟩
            rw [hthird.blockedOn.trans hm']
            exact hthird.edge m _ hm' hu

/-- **A cycle that is reported stands**: in every run in which, from the start of the confirming pass on, no thread of
the cycle is woken and no mutex that one of them is blocked on is released, there is a time at which each of them is
blocked on a mutex owned by the next. -/
theorem cycle_stands {t : T} (hS : Seen (blockingChainOf (fun i => (S i).graph) t).cycle
      (blockingChainOf (fun i => (S i).graph) t).since S)
    (hdead : (blockingChainOf (fun i => (S i).graph) t).deadlocked = true) :
    ∃ j first rest, (blockingChainOf (fun i => (S i).graph) t).cycle = first :: rest ∧
      Stands (S j).graph first (first :: rest) := by
  obtain ⟨first, rest, hcycle, hconfirmed⟩ := confirmed_of_deadlocked hdead
  refine ⟨_, first, rest, hcycle, hS.stands ?_ le_rfl le_rfl hconfirmed⟩
  intro n hn
  exact (congrArg (n ∈ ·) hcycle).mpr hn

end Confirmed

/-- Each of two threads is blocked on the mutex of the other. -/
def embrace : Locks (Fin 2) (Fin 2) where
  graph := ⟨fun _ => .blocked, some, fun m => some (m + 1)⟩
  place := .leaving
  waiters := fun m => [m]
  prepared := fun _ => false

theorem embrace_stands : (blockingChainOf (fun _ => embrace.graph) 0).deadlocked = true ∧
    ∃ first rest, (blockingChainOf (fun _ => embrace.graph) 0).cycle = first :: rest ∧
      Stands embrace.graph first (first :: rest) := by
  have hdead : (blockingChainOf (fun _ => embrace.graph) 0).deadlocked = true := by decide +kernel
  have hseen : Seen (blockingChainOf (fun _ => embrace.graph) 0).cycle
      (blockingChainOf (fun _ => embrace.graph) 0).since (fun _ => embrace) := fun _ => ⟨[], rfl, fun _ => trivial⟩
  obtain ⟨-, hstands⟩ := cycle_stands (S := fun _ => embrace) hseen hdead
  exact ⟨hdead, hstands⟩

/-- Two threads that run, and two mutexes that nobody holds. -/
def idlePair : Locks (Fin 2) (Fin 2) where
  graph := ⟨fun _ => .running, fun _ => none, fun _ => none⟩
  place := fun _ => .out
  waiters := fun _ => []
  prepared := fun _ => false

/-- The steps of a thread that finds the mutex owned and parks. -/
def contends (t m : Fin 2) : List (Act (Fin 2) (Fin 2)) := [.arm t m, .publish t, .poll t, .park t]

/-- `t` hands the mutex to `u`, which runs again. -/
def handsOver (t m u : Fin 2) : List (Act (Fin 2) (Fin 2)) := [.unlock t m (some u), .wake u, .dispatch u, .leave u]

/-- Thread 0 waits for thread 1, which then waits for thread 0, and both once more. -/
def takesTurns : List (List (Act (Fin 2) (Fin 2))) :=
  [.take 1 0 :: contends 0 0, handsOver 1 0 0 ++ .take 0 1 :: contends 1 1,
    handsOver 0 1 1 ++ .unlock 0 0 none :: .take 1 0 :: contends 0 0,
    handsOver 1 0 0 ++ .unlock 1 1 none :: .take 0 1 :: contends 1 1]

/-- The system after so many of the turns. -/
def afterTurns (k : ℕ) : Locks (Fin 2) (Fin 2) := (run next idlePair (takesTurns.take k).flatten).getD idlePair

/-- Each load finds an edge: the first two in the first turn, the next two in the second, and those of the confirming
pass in the third and in the fourth.  But the two threads never wait for each other at one time. -/
theorem phantom_deadlock :
    (blockingChainOf (fun i => (afterTurns (if i < 2 then 1 else if i < 4 then 2 else if i < 7 then 3 else 4)).graph)
      0).deadlocked = true ∧
    ∀ k ≤ takesTurns.flatten.length, (run next idlePair (takesTurns.flatten.take k)).any
      (fun S => decide ¬Stands S.graph 0 [0, 1]) = true := by
  decide +kernel

end Locks

end Cyros.Kernel
