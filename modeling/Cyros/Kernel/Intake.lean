import Mathlib.Data.Finset.Basic
import Mathlib.Data.Finset.Lattice.Lemmas
import Mathlib.Data.List.Infix
import Cyros.Lib.Run

/-!
# The cross-core intake

`post_intake`, `push_intake` and `drain_intake`, one atomic access at a time.  Any number of contexts of
other cores post: a poster sets a request bit, and if no bit of that thread was set before it stores the
sentinel (the self-pointer), exchanges the head, stores the link to what the head was, and sends the IPI if
that was nothing.  The owner detaches the whole chain by an exchange, reverses it, waiting at a node that
still shows the sentinel, and then walks it: it reads the link, clears it, takes the bits and services
them.

The state records, besides what the code holds, the history its properties are about: the head exchanges
since the chain was last detached (`stack`, latest first), what the drain in progress took and has
serviced, the requests no service has been started for, and whether an IPI was sent since the intake last
became non-empty.

`intake_protocol` is the protocol's invariant: the pointers run through the stack, with a poster at every
half-published node; every request is on its way; a drain services what it took in the order of the
exchanges; and a non-empty intake has been rung for.  `drain_completes` says that a drain ends.
-/

namespace Cyros.Kernel

open Cyros.Lib

/-- Where a call of `post_intake` stands. -/
inductive PostPlace (N : Type) where
  | idle
  /-- Past the `fetch_or` that found no bit set. -/
  | claimed (t : N)
  /-- Past the store of the sentinel. -/
  | marked (t : N)
  /-- Past the exchange, which found `prev`. -/
  | exchanged (t : N) (prev : Option N)
  /-- Past the store of the link; it sends the IPI if the head was null. -/
  | linked (first : Bool)
  deriving DecidableEq, Repr

/-- Where `drain_intake` stands. -/
inductive DrainPlace (N R : Type) where
  | idle
  | reversing (node fifo : Option N)
  /-- It has read the link of `node`, which is published. -/
  | relinking (node : N) (next fifo : Option N)
  | walking (fifo : Option N)
  | loaded (t : N) (next : Option N)
  | cleared (t : N) (next : Option N)
  /-- It has taken the request bits of `t`, and services them next. -/
  | taken (t : N) (next : Option N) (bits : Finset R)

/-- One core's intake, with its posters, for the threads `N`, the request kinds `R` and the posting
contexts `P`. -/
structure Intake (N R P : Type) where
  head : Option N
  /-- `intake_next`. -/
  next : N → Option N
  /-- `pending_requests`, one bit for each kind. -/
  pending : N → Finset R
  posters : P → PostPlace N
  drain : DrainPlace N R
  /-- The head exchanges since the chain was detached, latest first. -/
  stack : List N
  /-- What the latest drain took, in the order of the exchanges. -/
  took : List N
  /-- What it has serviced. -/
  served : List N
  /-- The requests made for which no service that has the bit has been started. -/
  owed : N → Finset R
  /-- An IPI was sent since the intake last became non-empty. -/
  rung : Bool

inductive IntakeAct (N R P : Type) where
  | fetchOr (p : P) (t : N) (r : R)
  | mark (p : P)
  | exchange (p : P)
  | link (p : P)
  | ring (p : P)
  | detach
  | drainStep

namespace Intake

variable {N R P : Type} [DecidableEq N] [DecidableEq R] [DecidableEq P]

/-- The steps of a drain past its exchange.  It waits where the link still is the sentinel. -/
def drainStep (s : Intake N R P) : Option (Intake N R P) :=
  match s.drain with
  | .idle => none
  | .reversing none fifo => some { s with drain := .walking fifo }
  | .reversing (some n) fifo =>
      if s.next n = some n then none else some { s with drain := .relinking n (s.next n) fifo }
  | .relinking n nx fifo => some { s with
      next := Function.update s.next n fifo
      drain := .reversing nx (some n) }
  | .walking none => some { s with drain := .idle }
  | .walking (some t) => some { s with drain := .loaded t (s.next t) }
  | .loaded t nx => some { s with next := Function.update s.next t none, drain := .cleared t nx }
  | .cleared t nx => some { s with
      pending := Function.update s.pending t ∅
      drain := .taken t nx (s.pending t) }
  | .taken t nx bits => some { s with
      served := s.served ++ [t]
      owed := Function.update s.owed t (s.owed t \ bits)
      drain := .walking nx }

def step (s : Intake N R P) : IntakeAct N R P → Option (Intake N R P)
  | .fetchOr p t r =>
      if s.posters p = .idle then
        some { s with
          posters := Function.update s.posters p (if s.pending t = ∅ then .claimed t else .idle)
          pending := Function.update s.pending t (insert r (s.pending t))
          owed := Function.update s.owed t (insert r (s.owed t)) }
      else none
  | .mark p => match s.posters p with
    | .claimed t => some { s with
        posters := Function.update s.posters p (.marked t)
        next := Function.update s.next t (some t) }
    | _ => none
  | .exchange p => match s.posters p with
    | .marked t => some { s with
        posters := Function.update s.posters p (.exchanged t s.head)
        head := some t
        stack := t :: s.stack
        rung := s.head.isSome && s.rung }
    | _ => none
  | .link p => match s.posters p with
    | .exchanged t prev => some { s with
        posters := Function.update s.posters p (.linked prev.isNone)
        next := Function.update s.next t prev }
    | _ => none
  | .ring p => match s.posters p with
    | .linked first => some { s with
        posters := Function.update s.posters p .idle
        rung := s.rung || first }
    | _ => none
  | .detach => match s.drain with
    | .idle => match s.head with
      | none => some s
      | some n => some { s with
          head := none
          drain := .reversing (some n) none
          stack := []
          took := s.stack.reverse
          served := [] }
    | _ => none
  | .drainStep => s.drainStep

/-- Nothing posted yet. -/
def empty : Intake N R P where
  head := none
  next := fun _ => none
  pending := fun _ => ∅
  posters := fun _ => .idle
  drain := .idle
  stack := []
  took := []
  served := []
  owed := fun _ => ∅
  rung := false

/-! ### Chains with half-published nodes -/

/-- The link of `x` is stored, and leads to `succ`. -/
def Stored (s : Intake N R P) (x : N) (succ : Option N) : Prop :=
  s.next x = succ ∧ ∀ p prev, s.posters p ≠ .exchanged x prev

/-- The link of `x` is the sentinel, and a poster has yet to store it; it will lead to `succ`. -/
def HalfPublished (s : Intake N R P) (x : N) (succ : Option N) : Prop :=
  s.next x = some x ∧ ∃ p, s.posters p = .exchanged x succ

def LinkOk (s : Intake N R P) (x : N) (succ : Option N) : Prop := s.Stored x succ ∨ s.HalfPublished x succ

/-- `ok` holds of each element of the list and its successor. -/
def Through (ok : N → Option N → Prop) : List N → Prop
  | [] => True
  | x :: l => ok x l.head? ∧ Through ok l

omit [DecidableEq N] in
theorem Through.mono {ok ok' : N → Option N → Prop} {l : List N} (h : Through ok l)
    (himp : ∀ x ∈ l, ∀ succ, ok x succ → ok' x succ) : Through ok' l := by
  induction l with
  | nil => trivial
  | cons x l ih =>
      exact ⟨himp x List.mem_cons_self _ h.1, ih h.2 fun y hy => himp y (List.mem_cons_of_mem x hy)⟩

/-- What the drain knows at each of its places, the nodes `left` it has taken and whose bits it has not, and
how many steps of its own it still takes at most. -/
inductive DrainOk (s : Intake N R P) : List N → ℕ → Prop
  | idle (hplace : s.drain = .idle) (htook : s.took = s.served) : DrainOk s [] 0
  | reversing (todo rev : List N) (hplace : s.drain = .reversing todo.head? rev.head?)
      (hserved : s.served = []) (htook : s.took = todo.reverse ++ rev)
      (htodo : Through s.LinkOk todo) (hrev : Through s.Stored rev) :
      DrainOk s (todo ++ rev) (6 * todo.length + 4 * rev.length + 2)
  | relinking (n : N) (todo rev : List N) (hplace : s.drain = .relinking n todo.head? rev.head?)
      (hserved : s.served = []) (htook : s.took = (n :: todo).reverse ++ rev)
      (hn : s.Stored n todo.head?) (htodo : Through s.LinkOk todo) (hrev : Through s.Stored rev) :
      DrainOk s (n :: todo ++ rev) (6 * todo.length + 4 * rev.length + 7)
  | walking (rest : List N) (hplace : s.drain = .walking rest.head?)
      (htook : s.took = s.served ++ rest) (hrest : Through s.Stored rest) :
      DrainOk s rest (4 * rest.length + 1)
  | loaded (t : N) (rest : List N) (hplace : s.drain = .loaded t rest.head?)
      (htook : s.took = s.served ++ t :: rest) (ht : s.Stored t rest.head?)
      (hrest : Through s.Stored rest) : DrainOk s (t :: rest) (4 * rest.length + 4)
  | cleared (t : N) (rest : List N) (hplace : s.drain = .cleared t rest.head?)
      (htook : s.took = s.served ++ t :: rest) (ht : s.Stored t none)
      (hrest : Through s.Stored rest) : DrainOk s (t :: rest) (4 * rest.length + 3)
  | taken (t : N) (rest : List N) (bits : Finset R) (hplace : s.drain = .taken t rest.head? bits)
      (htook : s.took = s.served ++ t :: rest) (hrest : Through s.Stored rest) :
      DrainOk s rest (4 * rest.length + 2)

variable {s s' : Intake N R P}

/-- The links of the nodes of `l` are still good. -/
def Spared (s s' : Intake N R P) (l : List N) : Prop :=
  ∀ x ∈ l, ∀ succ, (s.LinkOk x succ → s'.LinkOk x succ) ∧ (s.Stored x succ → s'.Stored x succ)

omit [DecidableEq N] [DecidableEq R] [DecidableEq P] in
theorem Spared.through {l : List N} (h : Spared s s' l) (hl : Through s.LinkOk l) : Through s'.LinkOk l :=
  hl.mono fun x hx succ => (h x hx succ).1

omit [DecidableEq N] [DecidableEq R] [DecidableEq P] in
theorem DrainOk.spared {left : List N} {m : ℕ} (h : DrainOk s left m) (hs : Spared s s' left)
    (hdrain : s'.drain = s.drain) (htook : s'.took = s.took) (hserved : s'.served = s.served) :
    DrainOk s' left m := by
  have hstored : ∀ l : List N, (∀ x ∈ l, x ∈ left) → Through s.Stored l → Through s'.Stored l :=
    fun l hmem hl => hl.mono fun x hx succ => (hs x (hmem x hx) succ).2
  have hlink : ∀ l : List N, (∀ x ∈ l, x ∈ left) → Through s.LinkOk l → Through s'.LinkOk l :=
    fun l hmem hl => hl.mono fun x hx succ => (hs x (hmem x hx) succ).1
  cases h with
  | idle hplace h => exact .idle (hdrain.trans hplace) (by rw [htook, hserved, h])
  | reversing todo rev hplace hs' h htodo hrev =>
      exact .reversing todo rev (hdrain.trans hplace) (hserved.trans hs') (htook.trans h)
        (hlink todo (by simp +contextual) htodo) (hstored rev (by simp +contextual) hrev)
  | relinking n todo rev hplace hs' h hn htodo hrev =>
      exact .relinking n todo rev (hdrain.trans hplace) (hserved.trans hs') (htook.trans h)
        ((hs n (by simp) _).2 hn) (hlink todo (by simp +contextual) htodo)
        (hstored rev (by simp +contextual) hrev)
  | walking rest hplace h hrest =>
      exact .walking left (hdrain.trans hplace) (by rw [htook, hserved, h]) (hstored left (by simp) hrest)
  | loaded t rest hplace h ht hrest =>
      exact .loaded t rest (hdrain.trans hplace) (by rw [htook, hserved, h]) ((hs t (by simp) _).2 ht)
        (hstored rest (by simp +contextual) hrest)
  | cleared t rest hplace h ht hrest =>
      exact .cleared t rest (hdrain.trans hplace) (by rw [htook, hserved, h]) ((hs t (by simp) _).2 ht)
        (hstored rest (by simp +contextual) hrest)
  | taken t rest bits hplace h hrest =>
      exact .taken t left bits (hdrain.trans hplace) (by rw [htook, hserved, h])
        (hstored left (by simp) hrest)

omit [DecidableEq N] [DecidableEq R] [DecidableEq P] in
theorem spared_of_same {l : List N} (hnext : ∀ x ∈ l, s'.next x = s.next x)
    (hposters : ∀ x ∈ l, ∀ p succ, s'.posters p = .exchanged x succ ↔ s.posters p = .exchanged x succ) :
    Spared s s' l := by
  intro x hx succ
  unfold LinkOk Stored HalfPublished
  simp only [hnext x hx, ne_eq, hposters x hx]
  exact ⟨id, id⟩

omit [DecidableEq N] [DecidableEq R] in
/-- A poster moves that neither was nor gets past the exchange of a node of `l`. -/
theorem spared_of_poster {p : P} {v : PostPlace N} {l : List N}
    (hposters : s'.posters = Function.update s.posters p v) (hnext : ∀ x ∈ l, s'.next x = s.next x)
    (hold : ∀ x ∈ l, ∀ succ, s.posters p ≠ .exchanged x succ)
    (hnew : ∀ x ∈ l, ∀ succ, v ≠ .exchanged x succ) : Spared s s' l := by
  refine spared_of_same hnext fun x hx q succ => ?_
  rw [hposters]
  by_cases hq : q = p
  · subst hq
    simp [hold x hx succ, hnew x hx succ]
  · rw [Function.update_of_ne hq]

/-! ### Claims -/

/-- The node a poster has claimed and not yet pushed. -/
def pushes : PostPlace N → Option N
  | .claimed t | .marked t => some t
  | _ => none

/-- The node a poster is at, up to the store of its link. -/
def busy : PostPlace N → Option N
  | .exchanged t _ => some t
  | x => pushes x

/-- A thread has a bit set exactly while a poster pushes it or it is among the nodes `all`, on the chain or
in the drain; it is in one of these places only, once. -/
structure Claims (pending : N → Finset R) (posters : P → PostPlace N) (all : List N) : Prop where
  nodup : all.Nodup
  pending : ∀ t, pending t ≠ ∅ ↔ (∃ p, pushes (posters p) = some t) ∨ t ∈ all
  pushing : ∀ p t, pushes (posters p) = some t → t ∉ all
  busy : ∀ p t, busy (posters p) = some t → pushes (posters p) = none → t ∈ all
  alone : ∀ p q t, Intake.busy (posters p) = some t → Intake.busy (posters q) = some t → p = q

variable {pending : N → Finset R} {posters : P → PostPlace N} {all : List N} {p : P}

omit [DecidableEq N] in
theorem busy_of_pushes {x : PostPlace N} {t : N} (h : pushes x = some t) : busy x = some t := by
  cases x <;> first | exact h | cases h

omit [DecidableEq N] [DecidableEq R] [DecidableEq P] in
/-- A node that a poster is at has a bit set. -/
theorem Claims.pending_of_busy (hc : Claims pending posters all) {t : N}
    (h : Intake.busy (posters p) = some t) : pending t ≠ ∅ := by
  rw [hc.pending]
  cases hp : pushes (posters p) with
  | none => exact Or.inr (hc.busy p t h hp)
  | some x =>
      rw [busy_of_pushes hp] at h
      exact Or.inl ⟨p, hp.trans h⟩

omit [DecidableEq N] in
theorem exists_pushes_iff (p : P) {t : N} : (∃ q, pushes (posters q) = some t) ↔
    pushes (posters p) = some t ∨ ∃ q, q ≠ p ∧ pushes (posters q) = some t := by
  have h := Function.exists_update_iff (a := p) (b := posters p) posters fun _ x => pushes x = some t
  rwa [Function.update_eq_self] at h

omit [DecidableEq N] [DecidableEq R] in
/-- A poster moves to `v`: what that place has to satisfy, and what the nodes the others are at. -/
theorem Claims.update {pending' : N → Finset R} {all' : List N} {v : PostPlace N}
    (hc : Claims pending posters all) (hnodup : all'.Nodup)
    (hpending : ∀ t, pending' t ≠ ∅ ↔
      (pushes v = some t ∨ ∃ q, q ≠ p ∧ pushes (posters q) = some t) ∨ t ∈ all')
    (hpushing : ∀ t, pushes v = some t → t ∉ all')
    (hbusy : ∀ t, Intake.busy v = some t → pushes v = none → t ∈ all')
    (hothers : ∀ q, q ≠ p → ∀ t, Intake.busy (posters q) = some t →
      Intake.busy v ≠ some t ∧ (t ∈ all' ↔ t ∈ all)) :
    Claims pending' (Function.update posters p v) all' := by
  refine ⟨hnodup, fun t => ?_, ?_, ?_, ?_⟩
  · rw [hpending, Function.exists_update_iff posters fun _ x => pushes x = some t]
  · refine (Function.forall_update_iff posters fun _ x => ∀ t, pushes x = some t → t ∉ all').2
      ⟨hpushing, fun q hqp t hq => ?_⟩
    rw [(hothers q hqp t (busy_of_pushes hq)).2]
    exact hc.pushing q t hq
  · refine (Function.forall_update_iff posters fun _ x =>
      ∀ t, Intake.busy x = some t → pushes x = none → t ∈ all').2 ⟨hbusy, fun q hqp t hq hnone => ?_⟩
    exact (hothers q hqp t hq).2.2 (hc.busy q t hq hnone)
  · intro q q' t hq hq'
    by_cases hqp : q = p <;> by_cases hqp' : q' = p
    · rw [hqp, hqp']
    · rw [hqp, Function.update_self] at hq
      rw [Function.update_of_ne hqp'] at hq'
      exact absurd hq (hothers q' hqp' t hq').1
    · rw [hqp', Function.update_self] at hq'
      rw [Function.update_of_ne hqp] at hq
      exact absurd hq' (hothers q hqp t hq).1
    · rw [Function.update_of_ne hqp] at hq
      rw [Function.update_of_ne hqp'] at hq'
      exact hc.alone q q' t hq hq'

omit [DecidableEq N] [DecidableEq R] in
/-- A poster moves on with the node it is at, or is done with it. -/
theorem Claims.move (hc : Claims pending posters all) {v : PostPlace N}
    (hpushes : pushes v = pushes (posters p))
    (hbusy : Intake.busy v = Intake.busy (posters p) ∨ Intake.busy v = none) :
    Claims pending (Function.update posters p v) all := by
  have hat : ∀ t, Intake.busy v = some t → Intake.busy (posters p) = some t := fun t ht =>
    hbusy.elim (fun h => h ▸ ht) fun h => by simp [h] at ht
  refine hc.update hc.nodup (fun t => ?_) (hpushes ▸ hc.pushing p) (fun t ht hnone => ?_)
    fun q hqp t hq => ⟨fun ht => hqp (hc.alone q p t hq (hat t ht)), Iff.rfl⟩
  · rw [hpushes, ← exists_pushes_iff, hc.pending]
  · exact hc.busy p t (hat t ht) (hpushes ▸ hnone)

theorem Claims.fetchOr (hc : Claims pending posters all) {t : N} {r : R} (hp : posters p = .idle) :
    Claims (Function.update pending t (insert r (pending t)))
      (Function.update posters p (if pending t = ∅ then .claimed t else .idle)) all := by
  by_cases hempty : pending t = ∅
  · -- nobody was at `t`, and the poster was at nothing
    have hout : t ∉ all := fun ht => (hc.pending t).2 (Or.inr ht) hempty
    rw [if_pos hempty]
    refine hc.update hc.nodup (fun x => ?_) (fun x hx => ?_) (by simp [pushes])
      fun q _ x hq => ⟨fun hx => ?_, Iff.rfl⟩
    · by_cases hx : x = t
      · simp [hx, pushes]
      · rw [Function.update_of_ne hx, hc.pending, exists_pushes_iff p]
        simp [hp, pushes, Ne.symm hx]
    · exact Option.some.inj hx ▸ hout
    · obtain rfl : t = x := Option.some.inj hx
      exact hc.pending_of_busy hq hempty
  · rw [if_neg hempty, ← hp, Function.update_eq_self]
    refine ⟨hc.nodup, fun x => ?_, hc.pushing, hc.busy, hc.alone⟩
    rw [← hc.pending]
    by_cases hx : x = t
    · subst hx
      simp [hempty]
    · rw [Function.update_of_ne hx]

omit [DecidableEq N] [DecidableEq R] in
/-- The exchange puts the node on the chain. -/
theorem Claims.exchange (hc : Claims pending posters all) {t : N} {prev : Option N}
    (hp : posters p = .marked t) :
    Claims pending (Function.update posters p (.exchanged t prev)) (t :: all) := by
  have hpush : pushes (posters p) = some t := by rw [hp]; rfl
  refine hc.update (List.nodup_cons.mpr ⟨hc.pushing p t hpush, hc.nodup⟩) (fun x => ?_) (by simp [pushes])
    (fun x hx _ => ?_) fun q hqp x hq => ?_
  · have hnone : pushes (.exchanged t prev) = none := rfl
    rw [hc.pending, exists_pushes_iff p, hpush, hnone, List.mem_cons]
    simp only [reduceCtorEq, false_or, Option.some.injEq, eq_comm (a := t)]
    rw [or_assoc, or_left_comm]
  · exact List.mem_cons.mpr (Or.inl (Option.some.inj hx).symm)
  · -- nobody else is at the node
    have hne : t ≠ x := by
      rintro rfl
      exact hqp (hc.alone q p t hq (busy_of_pushes hpush))
    simp [Intake.busy, hne, Ne.symm hne]

omit [DecidableEq R] [DecidableEq P] in
/-- The drain takes the bits of a node that no poster is at. -/
theorem Claims.take {t : N} {before after : List N} (hc : Claims pending posters (before ++ t :: after))
    (ht : ∀ p, Intake.busy (posters p) ≠ some t) :
    Claims (Function.update pending t ∅) posters (before ++ after) := by
  have hnd := List.nodup_cons.mp (List.nodup_middle.mp hc.nodup)
  have hmem : ∀ x, x ≠ t → (x ∈ before ++ t :: after ↔ x ∈ before ++ after) := by
    intro x hx
    simp only [List.mem_append, List.mem_cons]
    tauto
  refine ⟨hnd.2, fun x => ?_, fun q x hq hx => ?_, fun q x hq hnone => ?_, hc.alone⟩
  · by_cases hx : x = t
    · subst hx
      simp only [Function.update_self, ne_eq, not_true_eq_false, false_iff, not_or, not_exists]
      exact ⟨fun q hq => ht q (busy_of_pushes hq), hnd.1⟩
    · rw [Function.update_of_ne hx, hc.pending, hmem x hx]
  · refine hc.pushing q x hq ((hmem x ?_).2 hx)
    rintro rfl
    exact hnd.1 hx
  · refine (hmem x ?_).1 (hc.busy q x hq hnone)
    rintro rfl
    exact ht q hq

omit [DecidableEq N] [DecidableEq R] [DecidableEq P] in
theorem Claims.perm {all' : List N} (hc : Claims pending posters all) (h : all.Perm all') :
    Claims pending posters all' := by
  refine ⟨h.nodup_iff.mp hc.nodup, ?_, ?_, ?_, hc.alone⟩
  · simp only [← h.mem_iff]
    exact hc.pending
  · simp only [← h.mem_iff]
    exact hc.pushing
  · simp only [← h.mem_iff]
    exact hc.busy

/-! ### The invariant -/

/-- The bits of `t` that the drain has taken and is about to service. -/
def inHand (s : Intake N R P) (t : N) : Finset R :=
  match s.drain with
  | .taken x _ bits => if x = t then bits else ∅
  | _ => ∅

/-- A poster past its exchange is about to send the IPI. -/
def Ringing (s : Intake N R P) (p : P) : Prop :=
  (∃ t, s.posters p = .exchanged t none) ∨ s.posters p = .linked true

structure InvAt (s : Intake N R P) (left : List N) (m : ℕ) : Prop where
  head : s.head = s.stack.head?
  chain : Through s.LinkOk s.stack
  drain : DrainOk s left m
  claims : Claims s.pending s.posters (s.stack ++ left)
  marked : ∀ p t, s.posters p = .marked t → s.next t = some t
  owed : ∀ t, s.owed t ⊆ s.pending t ∪ s.inHand t
  rings : s.head ≠ none → s.rung = true ∨ ∃ p, s.Ringing p

variable {left : List N} {m : ℕ}

/-! ### The posters' steps -/

omit [DecidableEq N] [DecidableEq R] in
/-- A poster that was not to send the IPI moves on. -/
theorem rings_of_ne {v : PostPlace N} (h : s.rung = true ∨ ∃ q, s.Ringing q) (hp : ¬ s.Ringing p)
    (hposters : s'.posters = Function.update s.posters p v) (hrung : s'.rung = s.rung) :
    s'.rung = true ∨ ∃ q, s'.Ringing q := by
  rw [hrung]
  refine h.imp_right ?_
  rintro ⟨q, hq⟩
  refine ⟨q, ?_⟩
  have hqp : q ≠ p := by
    rintro rfl
    exact hp hq
  unfold Ringing
  rw [hposters, Function.update_of_ne hqp]
  exact hq

/-- A poster moves to `v` and leaves the chain and the drain as they are. -/
theorem InvAt.poster (hi : InvAt s left m) {v : PostPlace N}
    (hposters : s'.posters = Function.update s.posters p v) (hchain : s'.head = s.head ∧ s'.stack = s.stack)
    (hdrain : s'.drain = s.drain ∧ s'.took = s.took ∧ s'.served = s.served)
    (hspared : Spared s s' (s.stack ++ left)) (hclaims : Claims s'.pending s'.posters (s.stack ++ left))
    (hmarked : ∀ t, v = .marked t → s'.next t = some t)
    (hnext : ∀ q t, q ≠ p → s.posters q = .marked t → s'.next t = s.next t)
    (howed : ∀ t, s'.owed t ⊆ s'.pending t ∪ s.inHand t)
    (hrings : s.head ≠ none → s'.rung = true ∨ ∃ q, s'.Ringing q) : InvAt s' left m := by
  obtain ⟨hhead, hstack⟩ := hchain
  obtain ⟨hplace, htook, hserved⟩ := hdrain
  refine ⟨by rw [hhead, hstack, hi.head], ?_, ?_, hstack ▸ hclaims, fun q t hq => ?_, fun t => ?_,
    hhead ▸ hrings⟩
  · rw [hstack]
    exact Spared.through (fun x hx => hspared x (List.mem_append_left left hx)) hi.chain
  · exact hi.drain.spared (fun x hx => hspared x (List.mem_append_right s.stack hx)) hplace htook hserved
  · by_cases hqp : q = p
    · rw [hposters, hqp, Function.update_self] at hq
      exact hmarked t hq
    · rw [hposters, Function.update_of_ne hqp] at hq
      rw [hnext q t hqp hq, hi.marked q t hq]
  · have hhand : s'.inHand t = s.inHand t := by rw [inHand, hplace, inHand]
    exact hhand ▸ howed t

theorem InvAt.fetchOr (hi : InvAt s left m) {t : N} {r : R} (h : s.step (.fetchOr p t r) = some s') :
    InvAt s' left m := by
  obtain ⟨hp, rfl⟩ := of_guard h
  refine hi.poster rfl ⟨rfl, rfl⟩ ⟨rfl, rfl, rfl⟩ (spared_of_poster rfl (fun _ _ => rfl) (by simp [hp]) ?_)
    (hi.claims.fetchOr hp) (fun x => ?_) (fun _ _ _ _ => rfl) (fun x => ?_) fun hne => ?_
  · intro x _ succ
    split <;> simp
  · split <;> simp
  · by_cases hx : x = t
    · subst hx
      simp only [Function.update_self, Finset.insert_union]
      exact Finset.insert_subset_insert r (hi.owed x)
    · simp only [Function.update_of_ne hx]
      exact hi.owed x
  · exact rings_of_ne (hi.rings hne) (by simp [Ringing, hp]) rfl rfl

omit [DecidableEq P] in
/-- A poster's sentinel is at a node where no other poster is. -/
theorem InvAt.ne_of_marked (hi : InvAt s left m) {t x : N} {q : P}
    (hp : busy (s.posters p) = some t) (hqp : q ≠ p) (hq : s.posters q = .marked x) : x ≠ t := by
  rintro rfl
  exact hqp (hi.claims.alone q p x (by rw [hq]; rfl) hp)

theorem InvAt.mark (hi : InvAt s left m) (h : s.step (.mark p) = some s') : InvAt s' left m := by
  simp only [Intake.step] at h
  split at h <;> cases h
  next t hp =>
  have hout : t ∉ s.stack ++ left := hi.claims.pushing p t (by rw [hp]; rfl)
  refine hi.poster rfl ⟨rfl, rfl⟩ ⟨rfl, rfl, rfl⟩ (spared_of_poster rfl (fun x hx => ?_) (by simp [hp]) (by simp))
    (hi.claims.move (by rw [hp]; rfl) (Or.inl (by rw [hp]; rfl))) ?_ (fun q x hqp hq => ?_) hi.owed fun hne => ?_
  · exact Function.update_of_ne (ne_of_mem_of_not_mem hx hout) _ _
  · rintro _ ⟨⟩
    exact Function.update_self ..
  · exact Function.update_of_ne (hi.ne_of_marked (by rw [hp]; rfl) hqp hq) _ _
  · exact rings_of_ne (hi.rings hne) (by simp [Ringing, hp]) rfl rfl

theorem InvAt.exchange (hi : InvAt s left m) (h : s.step (.exchange p) = some s') : InvAt s' left m := by
  simp only [Intake.step] at h
  split at h <;> cases h
  next t hp =>
  have hout : t ∉ s.stack ∧ t ∉ left := by
    simpa [not_or] using hi.claims.pushing p t (by rw [hp]; rfl)
  have hnew : ∀ l : List N, t ∉ l → ∀ x ∈ l, ∀ succ, PostPlace.exchanged t s.head ≠ .exchanged x succ := by
    rintro l hl x hx succ ⟨⟩
    exact hl hx
  refine ⟨rfl, ⟨Or.inr ⟨hi.marked p t hp, p, by simp [hi.head]⟩, ?_⟩, ?_, hi.claims.exchange hp,
    fun q x hq => ?_, hi.owed, fun _ => ?_⟩
  · refine Spared.through (s := s) (spared_of_poster rfl (fun _ _ => rfl) ?_ (hnew _ hout.1)) hi.chain
    simp [hp]
  · refine hi.drain.spared (spared_of_poster rfl (fun _ _ => rfl) ?_ (hnew _ hout.2)) rfl rfl rfl
    simp [hp]
  · have hqp : q ≠ p := by
      rintro rfl
      simp at hq
    simp only [Function.update_of_ne hqp] at hq
    exact hi.marked q x hq
  · cases hh : s.head with
    | none => exact Or.inr ⟨p, Or.inl ⟨t, by simp⟩⟩
    | some n => exact rings_of_ne (hi.rings (by simp [hh])) (by simp [Ringing, hp]) rfl rfl

theorem InvAt.link (hi : InvAt s left m) (h : s.step (.link p) = some s') : InvAt s' left m := by
  simp only [Intake.step] at h
  split at h <;> cases h
  next t prev hp =>
  have hsole : ∀ q succ, s.posters q = .exchanged t succ → q = p := fun q succ hq =>
    hi.claims.alone q p t (by rw [hq]; rfl) (by rw [hp]; rfl)
  refine hi.poster rfl ⟨rfl, rfl⟩ ⟨rfl, rfl, rfl⟩ (fun x hx succ => ?_)
    (hi.claims.move (by rw [hp]; rfl) (Or.inr rfl)) (by simp) (fun q x hqp hq => ?_) hi.owed fun hne => ?_
  · by_cases hxt : x = t
    · -- the poster stores the link it has had in hand
      subst hxt
      refine ⟨?_, fun hstored => absurd hp (hstored.2 p prev)⟩
      rintro (⟨-, hquiet⟩ | ⟨-, q, hq⟩)
      · exact absurd hp (hquiet p prev)
      · obtain rfl := hsole q succ hq
        rw [hp] at hq
        cases hq
        refine Or.inl ⟨Function.update_self .., fun q' prev' hq' => ?_⟩
        by_cases hqp : q' = q
        · simp [hqp] at hq'
        · simp only [Function.update_of_ne hqp] at hq'
          exact hqp (hsole q' prev' hq')
    · refine spared_of_poster (l := [x]) rfl ?_ ?_ (by simp) x (by simp) succ
      · simp [hxt]
      · simp [hp, Ne.symm hxt]
  · exact Function.update_of_ne (hi.ne_of_marked (by rw [hp]; rfl) hqp hq) _ _
  · refine (hi.rings hne).imp_right ?_
    rintro ⟨q, hq⟩
    by_cases hqp : q = p
    · subst hqp
      obtain rfl : prev = none := by simpa [Ringing, hp] using hq
      exact ⟨q, Or.inr (by simp)⟩
    · refine ⟨q, ?_⟩
      unfold Ringing
      simp only [Function.update_of_ne hqp]
      exact hq

theorem InvAt.ring (hi : InvAt s left m) (h : s.step (.ring p) = some s') : InvAt s' left m := by
  simp only [Intake.step] at h
  split at h <;> cases h
  next first hp =>
  refine hi.poster rfl ⟨rfl, rfl⟩ ⟨rfl, rfl, rfl⟩ (spared_of_poster rfl (fun _ _ => rfl) (by simp [hp]) (by simp))
    (hi.claims.move (by rw [hp]; rfl) (Or.inr rfl)) (by simp) (fun _ _ _ _ => rfl) hi.owed fun hne => ?_
  cases first with
  | true => exact Or.inl (by simp)
  | false => exact rings_of_ne (hi.rings hne) (by simp [Ringing, hp]) rfl (by simp)

/-! ### The drain's steps -/

omit [DecidableEq P] in
theorem InvAt.detach (hi : InvAt s left m) {n : N} (hdrain : s.drain = .idle) (hhead : s.head = some n) :
    InvAt { s with
      head := none
      drain := .reversing (some n) none
      stack := []
      took := s.stack.reverse
      served := [] } (s.stack ++ []) (6 * s.stack.length + 4 * 0 + 2) := by
  have hleft : left = [] := by
    cases hi.drain <;> simp_all
  subst hleft
  have howed := hi.owed
  simp only [inHand, hdrain] at howed
  refine ⟨rfl, trivial, ?_, hi.claims, hi.marked, howed, fun hne => absurd rfl hne⟩
  refine DrainOk.reversing s.stack [] ?_ rfl (by simp) hi.chain trivial
  rw [← hi.head, hhead]
  rfl

omit [DecidableEq R] [DecidableEq P] in
/-- A store to the link of one node, whose poster is done, leaves the links of the others. -/
theorem spared_update {n : N} {v : Option N} {d : DrainPlace N R} {l : List N} (hl : n ∉ l) :
    Spared s { s with next := Function.update s.next n v, drain := d } l :=
  spared_of_same (fun _ hx => Function.update_of_ne (ne_of_mem_of_not_mem hx hl) _ _)
    fun _ _ _ _ => Iff.rfl

omit [DecidableEq R] [DecidableEq P] in
theorem stored_update {n : N} {v succ : Option N} {d : DrainPlace N R} (h : s.Stored n succ) :
    ({ s with next := Function.update s.next n v, drain := d } : Intake N R P).Stored n v :=
  ⟨Function.update_self .., h.2⟩

omit [DecidableEq P] in
/-- The sentinels of the posters are not at nodes on the chain or in the drain. -/
theorem InvAt.marked_update (hi : InvAt s left m) {n : N} (hn : n ∈ s.stack ++ left) (v : Option N) (q : P)
    (x : N) (hq : s.posters q = .marked x) : Function.update s.next n v x = some x := by
  have hx : x ≠ n := by
    rintro rfl
    exact hi.claims.pushing q x (by rw [hq]; rfl) hn
  rw [Function.update_of_ne hx]
  exact hi.marked q x hq

omit [DecidableEq P] in
/-- **A step of the drain.** -/
theorem InvAt.drainStep (hi : InvAt s left m) (h : s.drainStep = some s') :
    ∃ left' m', InvAt s' left' m' ∧ m' < m := by
  have howed := hi.owed
  have hnd := hi.claims.nodup
  have hdrain := hi.drain
  unfold Intake.drainStep at h
  unfold inHand at howed
  cases hdrain with
  | idle hplace htook => simp [hplace] at h
  | reversing todo rev hplace hserved htook htodo hrev =>
      rw [hplace] at h howed
      cases todo with
      | nil =>
          cases h
          refine ⟨_, _, ⟨hi.head, hi.chain, .walking rev rfl (by rw [hserved]; exact htook) hrev, hi.claims,
            hi.marked, howed, hi.rings⟩, ?_⟩
          simp only [List.length_nil]
          omega
      | cons n todo =>
          simp only [List.head?_cons] at h
          split at h
          · cases h
          · next hsentinel =>
            cases h
            -- the link is no sentinel, so it is stored
            obtain ⟨hn, htodo⟩ := htodo
            have hstored : s.Stored n todo.head? := hn.resolve_right fun hhalf => hsentinel hhalf.1
            rw [hstored.1]
            refine ⟨_, _, ⟨hi.head, hi.chain, .relinking n todo rev rfl hserved htook hstored htodo hrev,
              hi.claims, hi.marked, howed, hi.rings⟩, ?_⟩
            simp only [List.length_cons]
            omega
  | relinking n todo rev hplace hserved htook hn htodo hrev =>
      rw [hplace] at h howed
      cases h
      have hperm : (s.stack ++ (n :: todo ++ rev)).Perm (s.stack ++ (todo ++ n :: rev)) :=
        (List.perm_middle.symm).append_left s.stack
      have hout : n ∉ s.stack ∧ n ∉ todo ∧ n ∉ rev := by
        have hcons := List.nodup_cons.mp (List.nodup_middle.mp hnd)
        simpa [not_or] using hcons.1
      refine ⟨todo ++ n :: rev, _, ⟨hi.head, (spared_update hout.1).through hi.chain, ?_,
        hi.claims.perm hperm, hi.marked_update (by simp) _, howed, hi.rings⟩,
        show 6 * todo.length + 4 * (rev.length + 1) + 2 < _ by omega⟩
      refine .reversing todo (n :: rev) rfl hserved (by rw [htook]; simp)
        ((spared_update hout.2.1).through htodo) ⟨stored_update hn, ?_⟩
      exact hrev.mono fun x hx succ => (spared_update hout.2.2 x hx succ).2
  | walking rest hplace htook hrest =>
      rw [hplace] at h howed
      cases left with
      | nil =>
          cases h
          exact ⟨[], 0, ⟨hi.head, hi.chain, .idle rfl (by simpa using htook), hi.claims, hi.marked, howed,
            hi.rings⟩, by omega⟩
      | cons t rest =>
          cases h
          obtain ⟨ht, hrest⟩ := hrest
          refine ⟨t :: rest, _, ⟨hi.head, hi.chain, .loaded t rest ?_ htook ht hrest, hi.claims, hi.marked,
            howed, hi.rings⟩, ?_⟩
          · rw [← ht.1]
          · simp only [List.length_cons]
            omega
  | loaded t rest hplace htook ht hrest =>
      rw [hplace] at h howed
      cases h
      have hout : t ∉ s.stack ∧ t ∉ rest := by
        have hcons := List.nodup_cons.mp (List.nodup_middle.mp hnd)
        simpa [not_or] using hcons.1
      refine ⟨t :: rest, _, ⟨hi.head, (spared_update hout.1).through hi.chain, ?_, hi.claims,
        hi.marked_update (by simp) _, howed, hi.rings⟩, Nat.lt_succ_self _⟩
      exact .cleared t rest rfl htook (stored_update ht)
        (hrest.mono fun x hx succ => (spared_update hout.2 x hx succ).2)
  | cleared t rest hplace htook ht hrest =>
      rw [hplace] at h howed
      cases h
      -- no poster is at `t`: it is not being pushed, and its link is stored
      have hquiet : ∀ q, Intake.busy (s.posters q) ≠ some t := by
        intro q hq
        cases hpush : pushes (s.posters q) with
        | some x =>
            rw [busy_of_pushes hpush] at hq
            cases hq
            exact hi.claims.pushing q t hpush (by simp)
        | none =>
            cases hpq : s.posters q with
            | exchanged x prev =>
                rw [hpq] at hq
                cases hq
                exact ht.2 q prev hpq
            | _ => simp [hpq, Intake.busy, pushes] at hq hpush
      refine ⟨rest, _, ⟨hi.head, hi.chain, .taken t rest _ rfl htook hrest, hi.claims.take hquiet, hi.marked,
        fun x => ?_, hi.rings⟩, Nat.lt_succ_self _⟩
      by_cases hx : x = t
      · subst hx
        simpa [inHand] using howed x
      · simpa [inHand, hx, Ne.symm hx] using howed x
  | taken t rest bits hplace htook hrest =>
      rw [hplace] at h howed
      cases h
      refine ⟨left, _, ⟨hi.head, hi.chain, .walking left rfl (by rw [htook]; simp) hrest, hi.claims, hi.marked,
        fun x => ?_, hi.rings⟩, Nat.lt_succ_self _⟩
      by_cases hx : x = t
      · subst hx
        have hsub := howed x
        simp only [if_pos] at hsub
        simp only [Function.update_self, inHand, Finset.union_empty]
        intro r hr
        rw [Finset.mem_sdiff] at hr
        exact (Finset.mem_union.mp (hsub hr.1)).resolve_right hr.2
      · simpa [inHand, hx, Ne.symm hx] using howed x

/-! ### The protocol -/

theorem InvAt.step {act : IntakeAct N R P} (hi : InvAt s left m) (h : s.step act = some s') :
    ∃ left' m', InvAt s' left' m' := by
  cases act with
  | fetchOr p t r => exact ⟨left, m, hi.fetchOr h⟩
  | mark p => exact ⟨left, m, hi.mark h⟩
  | exchange p => exact ⟨left, m, hi.exchange h⟩
  | link p => exact ⟨left, m, hi.link h⟩
  | ring p => exact ⟨left, m, hi.ring h⟩
  | detach =>
      simp only [Intake.step] at h
      split at h
      · next hdrain =>
        split at h
        · cases h
          exact ⟨left, m, hi⟩
        · next n hhead =>
          cases h
          exact ⟨_, _, hi.detach hdrain hhead⟩
      · cases h
  | drainStep =>
      obtain ⟨left', m', hi', -⟩ := hi.drainStep h
      exact ⟨left', m', hi'⟩

omit [DecidableEq P] in
theorem invAt_empty : InvAt (empty : Intake N R P) [] 0 := by
  refine ⟨rfl, trivial, .idle rfl rfl, ⟨List.nodup_nil, fun t => ?_, ?_, ?_, ?_⟩, ?_, ?_,
    fun hne => absurd rfl hne⟩
  · simp [empty, pushes]
  · simp [empty, pushes]
  · simp [empty, busy, pushes]
  · simp [empty, busy, pushes]
  · simp [empty]
  · simp [empty]

/-- The thread is being pushed, or on the chain, or in the drain and not yet serviced. -/
def OnItsWay (s : Intake N R P) (t : N) : Prop :=
  (∃ p, busy (s.posters p) = some t) ∨ t ∈ s.stack ∨ t ∈ s.took.drop s.served.length

omit [DecidableEq N] [DecidableEq R] [DecidableEq P] in
/-- What is left to the drain is what it has not serviced. -/
theorem DrainOk.mem_drop (h : DrainOk s left m) {t : N} (ht : t ∈ left) :
    t ∈ s.took.drop s.served.length := by
  cases h with
  | idle => simp at ht
  | reversing todo rev _ hserved htook =>
      rw [hserved, htook]
      simpa using ht
  | relinking n todo rev _ hserved htook =>
      rw [hserved, htook]
      simp only [List.length_nil, List.drop_zero, List.mem_append, List.mem_reverse]
      exact List.mem_append.mp ht
  | walking _ _ htook =>
      rw [htook, List.drop_left]
      exact ht
  | loaded x rest _ htook =>
      rw [htook, List.drop_left]
      exact ht
  | cleared x rest _ htook =>
      rw [htook, List.drop_left]
      exact ht
  | taken x _ _ _ htook =>
      rw [htook, List.drop_left]
      exact List.mem_cons_of_mem x ht

omit [DecidableEq N] [DecidableEq R] [DecidableEq P] in
theorem DrainOk.served_prefix (h : DrainOk s left m) :
    s.served <+: s.took ∧ (s.drain = .idle → s.served = s.took) := by
  cases h with
  | idle _ htook => exact ⟨htook ▸ List.prefix_rfl, fun _ => htook.symm⟩
  | reversing _ _ hplace hserved | relinking _ _ _ hplace hserved =>
      rw [hserved, hplace]
      exact ⟨List.nil_prefix, nofun⟩
  | walking _ hplace htook | loaded _ _ hplace htook | cleared _ _ hplace htook
  | taken _ _ _ hplace htook =>
      rw [htook, hplace]
      exact ⟨List.prefix_append _ _, nofun⟩

omit [DecidableEq P] in
/-- The drain waits only at a node whose link a poster has yet to store. -/
theorem InvAt.waits (hi : InvAt s left m) {n : N} {fifo : Option N}
    (hplace : s.drain = .reversing (some n) fifo) (hnext : s.next n = some n) :
    ∃ p prev, s.posters p = .exchanged n prev := by
  have hnd := hi.claims.nodup
  cases hi.drain with
  | reversing todo rev h _ _ htodo =>
      rw [hplace] at h
      cases todo with
      | nil => simp at h
      | cons x todo =>
          simp only [List.head?_cons, DrainPlace.reversing.injEq, Option.some.injEq] at h
          obtain ⟨rfl, -⟩ := h
          rcases htodo.1 with hstored | ⟨-, p, hp⟩
          · -- a stored link leads to another node
            have hmem : n ∈ todo := List.mem_of_head? (hstored.1.symm.trans hnext)
            simp only [List.cons_append] at hnd
            have hout := (List.nodup_cons.mp (List.nodup_middle.mp hnd)).1
            simp [hmem] at hout
          · exact ⟨p, _, hp⟩
  | idle h | relinking _ _ _ h | walking _ h | loaded _ _ h | cleared _ _ h | taken _ _ _ h =>
      rw [hplace] at h
      cases h

omit [DecidableEq P] in
theorem drainStep_keeps (h : s.drainStep = some s') :
    s'.posters = s.posters ∧ s'.head = s.head ∧ s'.took = s.took := by
  unfold Intake.drainStep at h
  split at h
  · cases h
  · cases h
    exact ⟨rfl, rfl, rfl⟩
  · split at h <;> cases h
    exact ⟨rfl, rfl, rfl⟩
  all_goals
    cases h
    exact ⟨rfl, rfl, rfl⟩

omit [DecidableEq P] in
/-- A drain that waits for nobody goes on. -/
theorem InvAt.drainStep_enabled (hi : InvAt s left m)
    (hposters : ∀ p n prev, s.posters p ≠ .exchanged n prev) (hplace : s.drain ≠ .idle) :
    ∃ s', s.drainStep = some s' := by
  unfold Intake.drainStep
  split
  · next h => exact absurd h hplace
  · exact ⟨_, rfl⟩
  · next n fifo h =>
    split
    · next hnext =>
      obtain ⟨p, prev, hp⟩ := hi.waits h hnext
      exact absurd hp (hposters p n prev)
    · exact ⟨_, rfl⟩
  all_goals exact ⟨_, rfl⟩

/-- **A drain ends** once the posters have stored their links, and by then it has serviced all it took. -/
theorem InvAt.drain_completes (hi : InvAt s left m)
    (hposters : ∀ p n prev, s.posters p ≠ .exchanged n prev) :
    ∃ k s', run Intake.step s (List.replicate k .drainStep) = some s' ∧ s'.drain = .idle ∧
      s'.served = s.took := by
  -- every step leaves fewer to take
  induction m using Nat.strong_induction_on generalizing s left with
  | _ m ih =>
      by_cases hplace : s.drain = .idle
      · exact ⟨0, s, rfl, hplace, hi.drain.served_prefix.2 hplace⟩
      · obtain ⟨s₁, h₁⟩ := hi.drainStep_enabled hposters hplace
        obtain ⟨hkeep, -, htook⟩ := drainStep_keeps h₁
        obtain ⟨left', m', hi', hlt⟩ := hi.drainStep h₁
        obtain ⟨k, s', hrun, hidle, hserved⟩ := ih m' hlt hi' (by rw [hkeep]; exact hposters)
        refine ⟨k + 1, s', ?_, hidle, hserved.trans htook⟩
        rw [List.replicate_succ, run_cons]
        show s.drainStep.bind _ = some s'
        rw [h₁]
        exact hrun

/-- What holds of the intake in every state. -/
structure Orderly (s : Intake N R P) : Prop where
  /-- From the head, the links run through the nodes pushed since the chain was detached, the latest first,
  except that at some of them a poster has yet to store the link. -/
  head : s.head = s.stack.head?
  chain : Through s.LinkOk s.stack
  once : s.stack.Nodup
  /-- A request is on its way, or its bit is in the hand of the drain that services it next. -/
  followed : ∀ t, ∀ r ∈ s.owed t, s.OnItsWay t ∨ r ∈ s.inHand t
  /-- A drain services what it took, in the order of the exchanges, and all of it. -/
  order : s.served <+: s.took
  complete : s.drain = .idle → s.served = s.took
  waits : ∀ n fifo, s.drain = .reversing (some n) fifo → s.next n = some n →
    ∃ p prev, s.posters p = .exchanged n prev
  ends : (∀ p n prev, s.posters p ≠ .exchanged n prev) →
    ∃ k s', run step s (List.replicate k .drainStep) = some s' ∧ s'.drain = .idle ∧ s'.served = s.took
  /-- An IPI was sent since the intake became non-empty, or a poster past its exchange is about to. -/
  rings : s.head ≠ none → s.rung = true ∨ ∃ p, s.Ringing p

theorem InvAt.orderly (hi : InvAt s left m) : s.Orderly where
  head := hi.head
  chain := hi.chain
  once := hi.claims.nodup.of_append_left
  followed := by
    intro t r hr
    rcases Finset.mem_union.mp (hi.owed t hr) with hp | hp
    · left
      have hne : s.pending t ≠ ∅ := Finset.ne_empty_of_mem hp
      rcases (hi.claims.pending t).1 hne with ⟨p, hpush⟩ | hmem
      · exact Or.inl ⟨p, busy_of_pushes hpush⟩
      · rcases List.mem_append.mp hmem with hmem | hmem
        · exact Or.inr (Or.inl hmem)
        · exact Or.inr (Or.inr (hi.drain.mem_drop hmem))
    · exact Or.inr hp
  order := hi.drain.served_prefix.1
  complete := hi.drain.served_prefix.2
  waits := fun _ _ hplace hnext => hi.waits hplace hnext
  ends := hi.drain_completes
  rings := hi.rings

/-- **The intake protocol.**  Whatever the posters and the owner's drains do, in whatever order. -/
theorem intake_protocol (acts : List (IntakeAct N R P)) (s : Intake N R P)
    (h : run step empty acts = some s) : s.Orderly := by
  have hinv : ∃ left m, InvAt s left m :=
    run_invariant (I := fun s : Intake N R P => ∃ left m, InvAt s left m)
      (fun _ _ _ ⟨_, _, hi⟩ hstep => hi.step hstep) ⟨[], 0, invAt_empty⟩ h
  obtain ⟨left, m, hi⟩ := hinv
  exact hi.orderly

/-- Two posters push threads 0 and 1; the drain detaches the chain while the link of 1 is not stored, and
waits for it. -/
def pushTwo : List (IntakeAct (Fin 2) Unit (Fin 2)) :=
  [.fetchOr 0 0 (), .mark 0, .exchange 0, .link 0, .fetchOr 1 1 (), .mark 1, .exchange 1, .detach]

/-- The half-published node is the first the drain meets, and it is what it waits for. -/
theorem intake_protocol_waits :
    ∃ s, run step (empty : Intake (Fin 2) Unit (Fin 2)) pushTwo = some s ∧ s.took = [0, 1] ∧
      s.Orderly ∧ ∃ p prev, s.posters p = .exchanged 1 prev := by
  have hrun : (run step (empty : Intake (Fin 2) Unit (Fin 2)) pushTwo).map
      (fun s => (s.took, s.drain, s.next 1)) = some ([0, 1], .reversing (some 1) none, some 1) := rfl
  obtain ⟨s, hs, hfields⟩ := Option.map_eq_some_iff.mp hrun
  simp only [Prod.mk.injEq] at hfields
  obtain ⟨htook, hdrain, hnext⟩ := hfields
  have hord := intake_protocol pushTwo s hs
  exact ⟨s, hs, htook, hord, hord.waits 1 none hdrain hnext⟩

end Intake

end Cyros.Kernel
