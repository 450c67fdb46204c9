/-
# Stax.Lib.Framing — records of a file that is still being written.

A file is a sequence of records, each of some size.  A reader that sees a prefix of it can take the
records that are in it whole and must leave the rest.  Taking what is whole, and later taking what
is whole of the rest, takes what is whole of the later prefix: nothing is taken twice and nothing
is lost.
-/
import Mathlib

namespace Stax.Lib

namespace Framing

variable {ρ : Type*} (size : ρ → ℕ)

/-- How many bytes records take. -/
def span (rs : List ρ) : ℕ := (rs.map size).sum

/-- The records that are whole in the first `n` bytes. -/
def complete : List ρ → ℕ → List ρ
  | [], _ => []
  | r :: rs, n => if size r ≤ n then r :: complete rs (n - size r) else []

/-- The records that are not. -/
def pending (rs : List ρ) (n : ℕ) : List ρ := rs.drop (complete size rs n).length

variable {size} {rs : List ρ} {n m : ℕ}

theorem span_cons (r : ρ) (rs : List ρ) : span size (r :: rs) = size r + span size rs := rfl

theorem span_append (rs ss : List ρ) : span size (rs ++ ss) = span size rs + span size ss := by
  unfold span
  rw [List.map_append, List.sum_append]

theorem complete_append_pending : complete size rs n ++ pending size rs n = rs := by
  unfold pending
  induction rs generalizing n with
  | nil => rfl
  | cons r rs ih =>
      rw [complete]
      split
      · rw [List.length_cons, List.drop_succ_cons, List.cons_append, ih]
      · rfl

/-- All records are whole in all bytes. -/
theorem complete_eq_self (h : span size rs ≤ n) : complete size rs n = rs := by
  induction rs generalizing n with
  | nil => rfl
  | cons r rs ih =>
      rw [span_cons] at h
      rw [complete, if_pos (by omega), ih (by omega)]

/-- No record is whole in no bytes. -/
theorem complete_zero (hsize : ∀ r, 0 < size r) : complete size rs 0 = [] := by
  cases rs with
  | nil => rfl
  | cons r rs =>
      have hpos := hsize r
      rw [complete, if_neg (by omega)]

/-- What is whole later is what was whole before, and what is whole of the rest. -/
theorem complete_of_le (h : n ≤ m) :
    complete size rs m = complete size rs n ++
      complete size (pending size rs n) (m - span size (complete size rs n)) := by
  unfold pending
  induction rs generalizing n m with
  | nil => rfl
  | cons r rs ih =>
      rw [complete.eq_def _ _ n]
      dsimp only
      split
      · rename_i hle
        rw [complete, if_pos (by omega), ih (by omega : n - size r ≤ m - size r), span_cons,
          List.length_cons, List.drop_succ_cons, List.cons_append, Nat.sub_sub]
      · rfl

end Framing

end Stax.Lib
