import Mathlib.Data.List.Basic
import Mathlib.Logic.Function.Basic

/-!
# A row of values round a circle of cells

`Around` is the row a circular buffer holds.  A value goes in behind the last one (`Around.push`) and comes out at
the head (`Around.pop`), whichever of them lie past the end.
-/

namespace Cyros.Lib

variable {α : Type}

/-- The cell `i` places on from `head`. -/
def cellAt (size head i : ℕ) : ℕ := if head + i < size then head + i else head + i - size

theorem cellAt_cellAt_one {size head : ℕ} (i : ℕ) (h : head < size) (hi : i < size) :
    cellAt size (cellAt size head 1) i = cellAt size head (i + 1) := by
  unfold cellAt
  split_ifs <;> omega

/-- From `head` on stand the values `xs`. -/
structure Around (size : ℕ) (cells : ℕ → α) (head : ℕ) (xs : List α) : Prop where
  lt : head < size
  le : xs.length ≤ size
  cell : ∀ i x, xs[i]? = some x → cells (cellAt size head i) = x

variable {size head : ℕ} {cells : ℕ → α} {xs : List α} {x : α}

theorem Around.push (h : Around size cells head xs) (hroom : xs.length < size) (x : α) :
    Around size (Function.update cells (cellAt size head xs.length) x) head (xs ++ [x]) := by
  refine ⟨h.lt, by rwa [List.length_append], fun i y hy => ?_⟩
  by_cases hi : i = xs.length
  · subst hi
    rw [Function.update_self]
    simpa using hy
  · have hlt : i < xs.length := by
      have := (List.getElem?_eq_some_iff.1 hy).1
      simp only [List.length_append, List.length_singleton] at this
      omega
    have hne : cellAt size head i ≠ cellAt size head xs.length := by
      have := h.lt
      unfold cellAt
      split_ifs <;> omega
    rw [List.getElem?_append_left hlt] at hy
    rw [Function.update_of_ne hne]
    exact h.cell i y hy

theorem Around.pop (h : Around size cells head (x :: xs)) :
    cells head = x ∧ Around size cells (cellAt size head 1) xs := by
  have hlt := h.lt
  have hle := h.le
  rw [List.length_cons] at hle
  refine ⟨?_, ?_, by omega, fun i y hy => ?_⟩
  · simpa [cellAt, hlt] using h.cell 0 x rfl
  · unfold cellAt
    split_ifs <;> omega
  · have hi := (List.getElem?_eq_some_iff.1 hy).1
    rw [cellAt_cellAt_one i hlt (by omega)]
    exact h.cell (i + 1) y (by simpa using hy)

end Cyros.Lib
