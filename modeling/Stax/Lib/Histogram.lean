/-
# Stax.Lib.Histogram — adding to the cells of a row.

A row of cells is a list by position.  Adding a share to one cell changes that cell alone, so adding
the shares of different positions adds to each cell its own share.
-/
import Mathlib.Algebra.BigOperators.Group.List.Basic
import Mathlib.Data.List.Range

namespace Stax.Lib.Histogram

variable {M : Type*} [AddCommMonoid M] {n : ℕ}

/-- A share is added to one cell. -/
theorem modify_row (cell : ℕ → M) (b : ℕ) (share : M) :
    ((List.range n).map cell).modify b (· + share) =
      (List.range n).map fun i => cell i + if i = b then share else 0 := by
  apply List.ext_getElem?
  intro i
  rw [List.getElem?_modify, List.getElem?_map, List.getElem?_map]
  by_cases hi : i < n
  · rw [List.getElem?_range hi]
    by_cases hb : b = i
    · simp [hb]
    · simp [hb, Ne.symm hb]
  · rw [List.getElem?_eq_none (by rw [List.length_range]; omega)]
    rfl

/-- Shares are added to the cells of different positions. -/
theorem foldl_modify_row (share : ℕ → M) {bs : List ℕ} (hbs : bs.Nodup) (cell : ℕ → M) :
    bs.foldl (fun row b => row.modify b (· + share b)) ((List.range n).map cell) =
      (List.range n).map fun i => cell i + if i ∈ bs then share i else 0 := by
  induction bs generalizing cell with
  | nil => simp
  | cons b bs ih =>
      obtain ⟨hb, hbs⟩ := List.nodup_cons.mp hbs
      rw [List.foldl_cons, modify_row, ih hbs]
      apply List.map_congr_left
      intro i _
      rw [add_assoc]
      congr 1
      by_cases hi : i = b
      · subst hi
        simp [hb]
      · simp [hi]

/-- The cells of a row of sums add up to the sum of the rows. -/
theorem sum_rows {α : Type*} (as : List α) (cell : α → ℕ → M) :
    ((List.range n).map fun i => (as.map fun a => cell a i).sum).sum =
      (as.map fun a => ((List.range n).map (cell a)).sum).sum := by
  induction as with
  | nil => simp
  | cons a as ih => simp [List.sum_map_add, ih]

end Stax.Lib.Histogram
