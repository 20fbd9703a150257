import Mathlib.Data.List.Basic
import Mathlib.Logic.Relation
import Mathlib.Order.MinMax

/-!
# Least values along a relation

* A loop that keeps the least value seen so far: `foldl_min_le`, `foldl_min_le_of_mem`, `foldl_min_cases`.
* `Chain r k a b`: the walks of `k` steps from `a` to `b`.  Where all walks into `b` are short, no cycle leads
  to `b`.
-/

namespace Cyros.Lib

section Least

variable {α β : Type*} [LinearOrder β] (f : α → β)

theorem foldl_min_le (l : List α) (b : β) : l.foldl (fun best x => min best (f x)) b ≤ b := by
  induction l generalizing b with
  | nil => exact le_refl b
  | cons x l ih => exact (ih (min b (f x))).trans (min_le_left _ _)

theorem foldl_min_le_of_mem {l : List α} (b : β) {x : α} (hx : x ∈ l) :
    l.foldl (fun best x => min best (f x)) b ≤ f x := by
  induction l generalizing b with
  | nil => cases hx
  | cons y l ih =>
      rcases List.mem_cons.1 hx with rfl | hx
      · exact (foldl_min_le f l _).trans (min_le_right _ _)
      · exact ih _ hx

/-- The least value is the first one or that of an element. -/
theorem foldl_min_cases (l : List α) (b : β) :
    l.foldl (fun best x => min best (f x)) b = b ∨
      ∃ x ∈ l, l.foldl (fun best x => min best (f x)) b = f x := by
  induction l generalizing b with
  | nil => exact Or.inl rfl
  | cons y l ih =>
      rcases ih (min b (f y)) with h | ⟨x, hx, h⟩
      · rcases min_choice b (f y) with hb | hy
        · exact Or.inl (h.trans hb)
        · exact Or.inr ⟨y, List.mem_cons_self, h.trans hy⟩
      · exact Or.inr ⟨x, List.mem_cons_of_mem y hx, h⟩

variable {f} in
theorem exists_ne_of_foldl_min_ne {g : α → β} {l : List α} {b : β}
    (h : l.foldl (fun best x => min best (f x)) b ≠ l.foldl (fun best x => min best (g x)) b) : ∃ x ∈ l, f x ≠ g x := by
  by_contra hsame
  push Not at hsame
  exact h (List.foldl_ext _ _ _ fun best x hx => by rw [hsame x hx])

end Least

/-- A walk of `k` steps. -/
def Chain {α : Type*} (r : α → α → Prop) : ℕ → α → α → Prop
  | 0, a, b => a = b
  | k + 1, a, b => ∃ c, Chain r k a c ∧ r c b

/-- The first step of a walk. -/
theorem Chain.head {α : Type*} {r : α → α → Prop} {k : ℕ} {a b : α} (h : Chain r (k + 1) a b) :
    ∃ c, r a c ∧ Chain r k c b := by
  induction k generalizing b with
  | zero =>
      obtain ⟨c, rfl, hcb⟩ := h
      exact ⟨b, hcb, rfl⟩
  | succ k ih =>
      obtain ⟨c, hac, hcb⟩ := h
      obtain ⟨d, had, hdc⟩ := ih hac
      exact ⟨d, had, c, hdc, hcb⟩

end Cyros.Lib
