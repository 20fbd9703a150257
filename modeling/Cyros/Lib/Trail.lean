import Mathlib.Data.List.Chain
import Mathlib.Data.List.Nodup
import Mathlib.Data.Set.Card
import Mathlib.Logic.Relation

/-!
# Trails of a partial function

`Follows f a b` says that `b` is the successor of `a`.  A trail is a list along it without repeats, and a trail that
cannot be extended ends with an element that has no successor, or one that is on the trail already: then the trail is
all that its first element reaches (`reaches_iff`), and what stands before the repeated element is on no cycle
(`not_cycle`).
-/

namespace Cyros.Lib

variable {α : Type*}

def Follows (f : α → Option α) (a b : α) : Prop := f a = some b

variable {f : α → Option α} {a b t : α} {l pre post : List α}

open Relation

theorem dropWhile_ne_of_mem [DecidableEq α] (ha : a ∈ l) : ∃ post, l.dropWhile (· ≠ a) = a :: post := by
  induction l with
  | nil => cases ha
  | cons x l ih =>
      by_cases hx : x = a
      · exact ⟨l, by simp [hx]⟩
      · rw [List.dropWhile_cons_of_pos (by simpa using hx)]
        exact ih ((List.mem_cons.1 ha).resolve_left (Ne.symm hx))

/-- What is later on a list along `f` is reached. -/
theorem reaches_of_isChain (hc : (a :: l).IsChain (Follows f)) : ∀ b ∈ a :: l, ReflTransGen (Follows f) a b := by
  induction l generalizing a with
  | nil =>
      intro b hb
      rw [List.mem_singleton.1 hb]
  | cons c l ih =>
      obtain ⟨hac, hc⟩ := List.isChain_cons_cons.1 hc
      intro b hb
      rcases List.mem_cons.1 hb with rfl | hb
      · exact .refl
      · exact .head hac (ih hc b hb)

/-- A successor comes next on the list, or is that of its last element. -/
theorem follows_mem_tail (hc : l.IsChain (Follows f)) (ha : a ∈ l) (hab : Follows f a b) :
    b ∈ l.tail ∨ l.getLast? = some a := by
  induction l with
  | nil => cases ha
  | cons x l ih =>
      cases l with
      | nil => exact .inr (by rw [List.mem_singleton.1 ha]; rfl)
      | cons y l =>
          obtain ⟨hxy, hc⟩ := List.isChain_cons_cons.1 hc
          rcases List.mem_cons.1 ha with rfl | ha
          · exact .inl (by rw [Option.some.inj (hab.symm.trans hxy)]; exact List.mem_cons_self)
          · rcases ih hc ha with hb | hlast
            · exact .inl (List.mem_cons_of_mem _ hb)
            · exact .inr hlast

/-- Where the successor of the last element is among `post`, nothing leads out of `post`. -/
theorem reaches_mem (hc : (pre ++ post).IsChain (Follows f))
    (hend : ∀ z, (pre ++ post).getLast? = some z → ∀ b, Follows f z b → b ∈ post) (ha : a ∈ post)
    (hab : ReflTransGen (Follows f) a b) : b ∈ post := by
  have hpost : post.IsChain (Follows f) := hc.right_of_append
  have hlast : (pre ++ post).getLast? = post.getLast? := by
    rw [List.getLast?_append_of_ne_nil _ (List.ne_nil_of_mem ha)]
  induction hab with
  | refl => exact ha
  | tail _ hcd ih =>
      rcases follows_mem_tail hpost ih hcd with hd | hz
      · exact List.mem_of_mem_tail hd
      · exact hend _ (hlast.trans hz) _ hcd

/-- An element before the one that the trail comes back to is on no cycle. -/
theorem not_cycle (hc : (pre ++ a :: post).IsChain (Follows f)) (hnd : (pre ++ a :: post).Nodup)
    (hback : ∀ z, (pre ++ a :: post).getLast? = some z → ∀ b, Follows f z b → b ∈ post) :
    ¬TransGen (Follows f) a a := by
  intro hcyc
  have hnot : a ∉ post := by grind
  have hfirst : ∀ b, Follows f a b → b ∈ post := by
    intro b hab
    rcases follows_mem_tail hc.right_of_append List.mem_cons_self hab with hb | hz
    · exact hb
    · refine hback a ?_ b hab
      rw [List.getLast?_append_of_ne_nil _ (List.cons_ne_nil a post)]
      exact hz
  rw [List.append_cons] at hc hback
  obtain ⟨c, hac, hca⟩ := TransGen.head'_iff.1 hcyc
  exact hnot (reaches_mem hc hback (hfirst c hac) hca)

section Complete

variable (hc : (t :: l).IsChain (Follows f))
  (hend : ∀ z, (t :: l).getLast? = some z → ∀ b, Follows f z b → b ∈ t :: l)

include hc hend

/-- A trail that cannot be extended is what its first element reaches. -/
theorem reaches_iff : ReflTransGen (Follows f) t b ↔ b ∈ t :: l := by
  constructor
  · intro hb
    have hc' : ([] ++ t :: l).IsChain (Follows f) := hc
    exact reaches_mem hc' hend List.mem_cons_self hb
  · exact reaches_of_isChain hc b

theorem encard_reached (hnd : (t :: l).Nodup) : {b | ReflTransGen (Follows f) t b}.encard = (t :: l).length := by
  classical
  have hset : {b | ReflTransGen (Follows f) t b} = ((t :: l).toFinset : Set α) := by
    ext b
    rw [Set.mem_ofPred_eq, reaches_iff hc hend, Finset.mem_coe, List.mem_toFinset]
  rw [hset, Set.encard_coe_eq_coe_finsetCard, List.toFinset_card_of_nodup hnd]

end Complete

end Cyros.Lib
