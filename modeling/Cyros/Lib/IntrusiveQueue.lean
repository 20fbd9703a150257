import Mathlib.Data.List.Nodup
import Mathlib.Logic.Function.Basic

/-!
# Intrusive singly linked queues

A queue of nodes whose links live in the nodes.  Links are a function `next : α → Option α`: `none` is
the null pointer, and a node that points to itself is on no queue.  One link field serves several
queues, as long as no node is on two of them.

`Seg next h xs m` says that following the links from `h` visits exactly `xs` and arrives at `m`.
`Rep next q xs` says that the queue `q` holds `xs`: from its head to the null pointer, with the tail
the last of them and no node twice.  Each operation has one lemma for the queue it works on
(`Rep.pushBack`, `Rep.pushFront`, `Rep.popFront`, `Rep.remove`) and one for the links it leaves alone
(`pushBack_next`, ...), from which `Rep.congr` gives every other queue on the same field.
-/

namespace Cyros.Lib.IntrusiveQueue

variable {α : Type*}

/-- The two ends of a queue. -/
structure Queue (α : Type*) where
  head : Option α
  tail : Option α
  deriving DecidableEq, Repr

/-- The empty queue. -/
def Queue.nil : Queue α := ⟨none, none⟩

/-- A node's links and the queue after an operation. -/
structure Linked (α : Type*) where
  next : α → Option α
  queue : Queue α

/-! ### Operations -/

section Operations

variable [DecidableEq α]

def pushBack (next : α → Option α) (q : Queue α) (x : α) : Linked α :=
  match q.tail with
  | some t => ⟨Function.update (Function.update next x none) t (some x), ⟨q.head, some x⟩⟩
  | none => ⟨Function.update next x none, ⟨some x, some x⟩⟩

def pushFront (next : α → Option α) (q : Queue α) (x : α) : Linked α :=
  ⟨Function.update next x q.head, ⟨some x, q.tail.or (some x)⟩⟩

/-- The front node, and what is left with its self-pointer restored. -/
def popFront (next : α → Option α) (q : Queue α) : Option (α × Linked α) :=
  q.head.map fun x =>
    (x, ⟨Function.update next x (some x), ⟨next x, if (next x).isNone then none else q.tail⟩⟩)

/-- The search loop of a removal: the predecessor under which `x` was met, within `fuel` nodes. -/
def locate (next : α → Option α) (x : α) : ℕ → Option α → Option α → Option (Option α)
  | 0, _, _ => none
  | _ + 1, _, none => none
  | fuel + 1, previous, some c =>
      if c = x then some previous else locate next x fuel (some c) (next c)

/-- Unlink `x`, found under `previous`. -/
def unlink (next : α → Option α) (q : Queue α) (x : α) (previous : Option α) : Linked α :=
  let tail := if q.tail = some x then previous else q.tail
  match previous with
  | none => ⟨Function.update next x (some x), ⟨next x, tail⟩⟩
  | some p => ⟨Function.update (Function.update next p (next x)) x (some x), ⟨q.head, tail⟩⟩

/-- Removal by search; `none` when `x` is not met. -/
def remove (fuel : ℕ) (next : α → Option α) (q : Queue α) (x : α) : Option (Linked α) :=
  (locate next x fuel none q.head).map (unlink next q x)

end Operations

/-- The nodes met from `h` on, at most `fuel` of them. -/
def walk (next : α → Option α) : ℕ → Option α → List α
  | 0, _ => []
  | _ + 1, none => []
  | fuel + 1, some x => x :: walk next fuel (next x)

/-! ### Segments -/

/-- Following the links from `h` visits `xs` and arrives at `m`. -/
def Seg (next : α → Option α) : Option α → List α → Option α → Prop
  | h, [], m => h = m
  | h, x :: xs, m => h = some x ∧ Seg next (next x) xs m

@[simp] theorem seg_nil {next : α → Option α} {h m : Option α} : Seg next h [] m ↔ h = m := Iff.rfl

@[simp] theorem seg_cons {next : α → Option α} {h m : Option α} {x : α} {xs : List α} :
    Seg next h (x :: xs) m ↔ h = some x ∧ Seg next (next x) xs m := Iff.rfl

theorem seg_append {next : α → Option α} {h m : Option α} {xs ys : List α} :
    Seg next h (xs ++ ys) m ↔ ∃ k, Seg next h xs k ∧ Seg next k ys m := by
  induction xs generalizing h with
  | nil => simp
  | cons x xs ih => simp [ih, and_assoc]

theorem seg_snoc {next : α → Option α} {h m : Option α} {xs : List α} {t : α} :
    Seg next h (xs ++ [t]) m ↔ Seg next h xs (some t) ∧ next t = m := by
  rw [seg_append]
  constructor
  · rintro ⟨k, hxs, rfl, hm⟩
    exact ⟨hxs, hm⟩
  · rintro ⟨hxs, hm⟩
    exact ⟨some t, hxs, rfl, hm⟩

/-- A segment depends on the links of its own nodes only. -/
theorem Seg.congr {next next' : α → Option α} {h m : Option α} {xs : List α}
    (hs : Seg next h xs m) (heq : ∀ y ∈ xs, next' y = next y) : Seg next' h xs m := by
  induction xs generalizing h with
  | nil => exact hs
  | cons x xs ih =>
      refine ⟨hs.1, ?_⟩
      rw [heq x List.mem_cons_self]
      exact ih hs.2 fun y hy => heq y (List.mem_cons_of_mem x hy)

theorem Seg.walk_eq {next : α → Option α} {h : Option α} {xs : List α} (hs : Seg next h xs none)
    {fuel : ℕ} (hfuel : xs.length ≤ fuel) : walk next fuel h = xs := by
  induction xs generalizing h fuel with
  | nil =>
      rw [seg_nil] at hs
      subst hs
      cases fuel <;> rfl
  | cons x xs ih =>
      obtain ⟨rfl, hs⟩ := hs
      obtain ⟨n, rfl⟩ : ∃ n, fuel = n + 1 := ⟨fuel - 1, by simp at hfuel; omega⟩
      simp only [walk, ih hs (by simpa using hfuel)]

/-! ### Queues -/

/-- The queue `q` holds `xs`. -/
structure Rep (next : α → Option α) (q : Queue α) (xs : List α) : Prop where
  seg : Seg next q.head xs none
  tail : q.tail = xs.getLast?
  nodup : xs.Nodup

theorem Rep.nil (next : α → Option α) : Rep next Queue.nil [] :=
  ⟨rfl, rfl, List.nodup_nil⟩

theorem Rep.congr {next next' : α → Option α} {q : Queue α} {xs : List α} (hr : Rep next q xs)
    (heq : ∀ y ∈ xs, next' y = next y) : Rep next' q xs :=
  ⟨hr.seg.congr heq, hr.tail, hr.nodup⟩

theorem Seg.head_eq {next : α → Option α} {h : Option α} {xs : List α} (hs : Seg next h xs none) : h = xs.head? := by
  cases xs with
  | nil => exact hs
  | cons x xs => exact hs.1

theorem Rep.head_eq {next : α → Option α} {q : Queue α} {xs : List α} (hr : Rep next q xs) :
    q.head = xs.head? := hr.seg.head_eq

theorem Rep.head_eq_none_iff {next : α → Option α} {q : Queue α} {xs : List α}
    (hr : Rep next q xs) : q.head = none ↔ xs = [] := by
  rw [hr.head_eq, List.head?_eq_none_iff]

/-- A node on a queue does not point to itself. -/
theorem Rep.next_ne_self {next : α → Option α} {q : Queue α} {xs : List α} (hr : Rep next q xs)
    {x : α} (hx : x ∈ xs) : next x ≠ some x := by
  obtain ⟨ys, zs, rfl⟩ := List.append_of_mem hx
  obtain ⟨k, -, -, hzs⟩ := seg_append.1 hr.seg
  intro hself
  rw [hself] at hzs
  cases zs with
  | nil => cases hzs
  | cons z zs =>
      obtain ⟨hz, -⟩ := hzs
      have hnd := (List.nodup_append.1 hr.nodup).2.1
      simp only [Option.some.injEq] at hz
      simp [hz] at hnd

/-- A segment determines the links of its nodes. -/
theorem Seg.next_eq {next next' : α → Option α} {h h' m : Option α} {xs : List α}
    (hs : Seg next h xs m) (hs' : Seg next' h' xs m) : ∀ x ∈ xs, next' x = next x := by
  induction xs generalizing h h' with
  | nil => exact fun x hx => absurd hx List.not_mem_nil
  | cons y ys ih =>
      intro x hx
      rcases List.mem_cons.1 hx with rfl | hx
      · cases ys with
        | nil => exact hs'.2.trans hs.2.symm
        | cons z zs => exact hs'.2.1.trans hs.2.1.symm
      · exact ih hs.2 hs'.2 x hx

/-- The nodes of a queue determine its ends. -/
theorem Rep.queue_eq {next next' : α → Option α} {q q' : Queue α} {xs : List α}
    (hr : Rep next q xs) (hr' : Rep next' q' xs) : q' = q := by
  cases q with
  | mk head tail =>
      cases q' with
      | mk head' tail' =>
          rw [Queue.mk.injEq]
          exact ⟨hr'.head_eq.trans hr.head_eq.symm, hr'.tail.trans hr.tail.symm⟩

/-! ### What the operations do -/

section Specs

variable [DecidableEq α]

/-- The link of a node that is not on a segment is free to change. -/
theorem Seg.update {next : α → Option α} {h m : Option α} {xs : List α} (hs : Seg next h xs m) {x : α}
    (hx : x ∉ xs) (l : Option α) : Seg (Function.update next x l) h xs m :=
  hs.congr fun _ hy => Function.update_of_ne (ne_of_mem_of_not_mem hy hx) _ _

/-- A node linked in after `b`. -/
theorem Seg.insertAfter {next : α → Option α} {h m : Option α} {xs ys : List α} {b x : α}
    (hs : Seg next h (xs ++ b :: ys) m) (hnd : (xs ++ b :: ys).Nodup) (hx : x ∉ xs ++ b :: ys) :
    Seg (Function.update (Function.update next x (next b)) b (some x)) h (xs ++ b :: x :: ys) m := by
  obtain ⟨k, hxs, rfl, hys⟩ := seg_append.1 hs
  refine seg_append.2 ⟨some b, (hxs.update (by grind) _).update (by grind) _, rfl, by simp, ?_⟩
  rw [Function.update_of_ne (by grind), Function.update_self]
  exact (hys.update (by grind) _).update (by grind) _

/-- A node taken out from after `b`, its link set to `l`. -/
theorem Seg.removeAfter {next : α → Option α} {h m : Option α} {xs ys : List α} {b x : α}
    (hs : Seg next h (xs ++ b :: x :: ys) m) (hnd : (xs ++ b :: x :: ys).Nodup) (l : Option α) :
    Seg (Function.update (Function.update next b (next x)) x l) h (xs ++ b :: ys) m := by
  obtain ⟨k, hxs, rfl, hb, hys⟩ := seg_append.1 hs
  refine seg_append.2 ⟨some b, (hxs.update (by grind) _).update (by grind) _, rfl, ?_⟩
  rw [Function.update_of_ne (by grind), Function.update_self]
  exact (hys.update (by grind) _).update (by grind) _

theorem Rep.pushBack {next : α → Option α} {q : Queue α} {xs : List α} (hr : Rep next q xs)
    {x : α} (hx : x ∉ xs) :
    Rep (pushBack next q x).next (pushBack next q x).queue (xs ++ [x]) := by
  have hnd : (xs ++ [x]).Nodup := by
    refine List.nodup_append.2 ⟨hr.nodup, List.nodup_singleton x, fun y hy z hz => ?_⟩
    rw [List.mem_singleton.1 hz]
    exact ne_of_mem_of_not_mem hy hx
  obtain rfl | ⟨ys, t, rfl⟩ := xs.eq_nil_or_concat'
  · have ht : q.tail = none := hr.tail
    simp only [IntrusiveQueue.pushBack, ht]
    exact ⟨⟨rfl, by simp⟩, rfl, hnd⟩
  · have ht : q.tail = some t := by rw [hr.tail, List.getLast?_concat]
    obtain ⟨hys, -⟩ := seg_snoc.1 hr.seg
    have htys : t ∉ ys := fun h => by
      have := (List.nodup_append.1 hr.nodup).2.2 t h t (by simp)
      exact this rfl
    simp only [List.mem_append, List.mem_singleton, not_or] at hx
    simp only [IntrusiveQueue.pushBack, ht]
    refine ⟨seg_snoc.2 ⟨seg_snoc.2 ⟨hys.congr fun y hy => ?_, by simp⟩, ?_⟩, ?_, hnd⟩
    · rw [Function.update_of_ne (ne_of_mem_of_not_mem hy htys),
        Function.update_of_ne (ne_of_mem_of_not_mem hy hx.1)]
    · rw [Function.update_of_ne hx.2, Function.update_self]
    · rw [List.getLast?_concat]

theorem pushBack_next {next : α → Option α} {q : Queue α} {xs : List α} (hr : Rep next q xs)
    {x y : α} (hyx : y ≠ x) (hy : y ∉ xs) : (pushBack next q x).next y = next y := by
  unfold pushBack
  cases ht : q.tail with
  | none => exact Function.update_of_ne hyx _ _
  | some t =>
      have hmem : t ∈ xs := List.mem_of_getLast? (hr.tail ▸ ht)
      simp only [Function.update_of_ne (ne_of_mem_of_not_mem hmem hy).symm,
        Function.update_of_ne hyx]

theorem Rep.pushFront {next : α → Option α} {q : Queue α} {xs : List α} (hr : Rep next q xs)
    {x : α} (hx : x ∉ xs) :
    Rep (pushFront next q x).next (pushFront next q x).queue (x :: xs) := by
  refine ⟨⟨rfl, ?_⟩, ?_, List.nodup_cons.2 ⟨hx, hr.nodup⟩⟩
  · simp only [IntrusiveQueue.pushFront, Function.update_self]
    exact hr.seg.congr fun y hy => Function.update_of_ne (ne_of_mem_of_not_mem hy hx) _ _
  · simp only [IntrusiveQueue.pushFront, hr.tail]
    cases xs <;> simp [List.getLast?_cons]

theorem pushFront_next {next : α → Option α} {q : Queue α} {x y : α} (hyx : y ≠ x) :
    (pushFront next q x).next y = next y :=
  Function.update_of_ne hyx _ _

theorem popFront_eq_none_iff {next : α → Option α} {q : Queue α} :
    popFront next q = none ↔ q.head = none := by
  simp [popFront]

/-- What a pop takes is the first node; the rest is left, and the node points to itself. -/
theorem Rep.popFront {next : α → Option α} {q : Queue α} {xs : List α} (hr : Rep next q xs)
    {x : α} {l : Linked α} (h : popFront next q = some (x, l)) :
    ∃ ys, xs = x :: ys ∧ Rep l.next l.queue ys ∧ l.next = Function.update next x (some x) := by
  simp only [IntrusiveQueue.popFront, Option.map_eq_some_iff, Prod.mk.injEq] at h
  obtain ⟨_, hhead, rfl, rfl⟩ := h
  cases xs with
  | nil => simp [hr.head_eq] at hhead
  | cons z ys =>
      obtain rfl : z = _ := by simpa [hr.head_eq] using hhead
      have hnd := List.nodup_cons.1 hr.nodup
      refine ⟨ys, rfl, ⟨?_, ?_, hnd.2⟩, rfl⟩
      · exact hr.seg.2.congr fun y hy => Function.update_of_ne (ne_of_mem_of_not_mem hy hnd.1) _ _
      · have hnext := hr.seg.2
        cases ys with
        | nil => simp [show next z = none from hnext]
        | cons w ws => simp [hnext.1, hr.tail, List.getLast?_cons]

/-- The search meets a node of the queue under its predecessor. -/
theorem locate_eq {next : α → Option α} {x : α} {ys : List α} {h previous : Option α} {fuel : ℕ}
    (hs : Seg next h ys (some x)) (hx : x ∉ ys) (hfuel : ys.length < fuel) :
    locate next x fuel previous h = some (ys.getLast?.or previous) := by
  induction ys generalizing h previous fuel with
  | nil =>
      obtain ⟨n, rfl⟩ : ∃ n, fuel = n + 1 := ⟨fuel - 1, by simp at hfuel; omega⟩
      rw [seg_nil] at hs
      simp [locate, hs]
  | cons y ys ih =>
      obtain ⟨n, rfl⟩ : ∃ n, fuel = n + 1 := ⟨fuel - 1, by omega⟩
      obtain ⟨rfl, hs⟩ := hs
      simp only [List.mem_cons, not_or] at hx
      simp only [locate, Ne.symm hx.1, if_false, ih hs hx.2 (by simpa using hfuel),
        List.getLast?_cons]
      cases ys.getLast? <;> rfl

/-- A removal of a node of the queue succeeds and takes out that node and no other. -/
theorem Rep.remove {next : α → Option α} {q : Queue α} {ys zs : List α} {x : α}
    (hr : Rep next q (ys ++ x :: zs)) {fuel : ℕ} (hfuel : (ys ++ x :: zs).length ≤ fuel) :
    ∃ l, remove fuel next q x = some l ∧ Rep l.next l.queue (ys ++ zs) ∧ l.next x = some x ∧
      ∀ y, y ≠ x → y ∉ ys → l.next y = next y := by
  obtain ⟨hnys, hnd, hdisj⟩ := List.nodup_append.1 hr.nodup
  obtain ⟨hxzs, hnzs⟩ := List.nodup_cons.1 hnd
  have hxys : x ∉ ys := fun h => hdisj x h x List.mem_cons_self rfl
  obtain ⟨k, hseg, rfl, hzs⟩ := seg_append.1 hr.seg
  have hloc : locate next x fuel none q.head = some (ys.getLast?.or none) :=
    locate_eq hseg hxys (by simp at hfuel; omega)
  have hnew : (ys ++ zs).Nodup :=
    List.nodup_append.2 ⟨hnys, hnzs, fun a ha b hb => hdisj a ha b (List.mem_cons_of_mem x hb)⟩
  have htail : (if q.tail = some x then ys.getLast? else q.tail) = (ys ++ zs).getLast? := by
    rw [hr.tail]
    obtain rfl | ⟨ws, z, rfl⟩ := zs.eq_nil_or_concat'
    · simp
    · have hzx : z ≠ x := ne_of_mem_of_not_mem (by simp) hxzs
      simp [List.getLast?_append, List.getLast?_cons, hzx]
  refine ⟨_, by rw [IntrusiveQueue.remove, hloc, Option.map_some], ?_⟩
  obtain rfl | ⟨ps, p, rfl⟩ := ys.eq_nil_or_concat'
  · simp only [unlink, List.getLast?_nil, Option.none_or]
    refine ⟨⟨?_, htail, hnew⟩, Function.update_self .., fun y hy _ => Function.update_of_ne hy _ _⟩
    exact hzs.congr fun y hy => Function.update_of_ne (ne_of_mem_of_not_mem hy hxzs) _ _
  · simp only [unlink, List.getLast?_concat, Option.some_or]
    simp only [List.mem_append, List.mem_singleton, not_or] at hxys
    have hpps : p ∉ ps := fun h => (List.nodup_append.1 hnys).2.2 p h p (by simp) rfl
    have hpzs : p ∉ zs := fun h => hdisj p (by simp) p (List.mem_cons_of_mem x h) rfl
    obtain ⟨hps, -⟩ := seg_snoc.1 hseg
    refine ⟨⟨seg_append.2 ⟨next x, seg_snoc.2 ⟨hps.congr fun y hy => ?_, ?_⟩,
      hzs.congr fun y hy => ?_⟩, by simpa using htail, hnew⟩, Function.update_self .., ?_⟩
    · rw [Function.update_of_ne (ne_of_mem_of_not_mem hy hxys.1),
        Function.update_of_ne (ne_of_mem_of_not_mem hy hpps)]
    · rw [Function.update_of_ne (Ne.symm hxys.2), Function.update_self]
    · rw [Function.update_of_ne (ne_of_mem_of_not_mem hy hxzs),
        Function.update_of_ne (ne_of_mem_of_not_mem hy hpzs)]
    · intro y hyx hy
      simp only [List.mem_append, List.mem_singleton, not_or] at hy
      rw [Function.update_of_ne hyx, Function.update_of_ne hy.2]

end Specs

end Cyros.Lib.IntrusiveQueue
