/-
# Stax.Lib.Predecessor — lists sorted by a key, and the last entry at or below a key.

A list is sorted by a key, entries with equal keys in the order they had, and may then be cut to the
first entry of each key.  A sorted list is searched for the entry with the greatest key that is not
above a given one: the entry before the partition point.  Where entries are ranges laid one after
the other, the range that contains a point is the predecessor of the point, so searching and
scanning find the same.
-/
import Mathlib
import Stax.Lib.Windows

namespace Stax.Lib

namespace Predecessor

variable {α : Type*}

/-! ## Sorting -/

/-- The stable sort by a key. -/
def sortByKey (key : α → ℕ) (l : List α) : List α := l.insertionSort fun a b => key a ≤ key b

variable (key : α → ℕ)

theorem perm_sortByKey (l : List α) : (sortByKey key l).Perm l := List.perm_insertionSort _ l

theorem mem_sortByKey {l : List α} {a : α} : a ∈ sortByKey key l ↔ a ∈ l :=
  (perm_sortByKey key l).mem_iff

theorem pairwise_sortByKey (l : List α) : (sortByKey key l).Pairwise fun a b => key a ≤ key b := by
  have htotal : Std.Total fun a b => key a ≤ key b := ⟨fun a b => Nat.le_total (key a) (key b)⟩
  have htrans : IsTrans α fun a b => key a ≤ key b := ⟨fun a b c => Nat.le_trans⟩
  exact List.pairwise_insertionSort _ l

variable {key}

/-- What is sorted stays as it is. -/
theorem sortByKey_eq_self {l : List α} (h : l.Pairwise fun a b => key a ≤ key b) :
    sortByKey key l = l :=
  List.Pairwise.insertionSort_eq h

/-- Without neighbours of equal keys a sorted list rises strictly. -/
theorem pairwise_lt_of_isChain_ne {l : List α} (h : l.Pairwise fun a b => key a ≤ key b)
    (hne : l.IsChain fun a b => key a ≠ key b) : l.Pairwise fun a b => key a < key b := by
  have htrans : Trans (fun a b => key a < key b) (fun a b => key a < key b)
      fun a b => key a < key b := ⟨Nat.lt_trans⟩
  have hle := h.isChain
  rw [← List.isChain_iff_pairwise]
  rw [List.isChain_iff_forall_rel_of_append_cons_cons] at hne hle ⊢
  intro a b before after happend
  exact Nat.lt_of_le_of_ne (hle happend) (hne happend)

/-! ## The partition point -/

/-- How many entries there are before the first one that fails `p`. -/
def partitionPoint (p : α → Bool) (l : List α) : ℕ := (l.takeWhile p).length

/-- The entry before the partition point is the last one that passes. -/
theorem getElem?_partitionPoint (p : α → Bool) (l : List α) (h : partitionPoint p l ≠ 0) :
    l[partitionPoint p l - 1]? = (l.takeWhile p).getLast? := by
  have hlt : partitionPoint p l - 1 < (l.takeWhile p).length :=
    Nat.sub_lt (Nat.pos_of_ne_zero h) Nat.one_pos
  have hget : (l.takeWhile p)[partitionPoint p l - 1]? = l[partitionPoint p l - 1]? := by
    obtain ⟨rest, hrest⟩ := List.takeWhile_prefix (l := l) p
    have happend : (l.takeWhile p ++ rest)[partitionPoint p l - 1]? =
        (l.takeWhile p)[partitionPoint p l - 1]? := List.getElem?_append_left hlt
    rw [hrest] at happend
    exact happend.symm
  rw [← hget, List.getLast?_eq_getElem?]
  rfl

/-- Where the entry with key `x` is in a list whose keys rise, or else where it would have to be
put in. -/
def binarySearch (key : α → ℕ) (x : ℕ) (l : List α) : Except ℕ ℕ :=
  let i := partitionPoint (fun a => key a < x) l
  match l[i]? with
  | some a => if key a = x then .ok i else .error i
  | none => .error i

/-- The last entry with a key of at most `x`, in a list sorted by the keys. -/
def predecessor (key : α → ℕ) (x : ℕ) (l : List α) : Option α :=
  (l.takeWhile fun a => key a ≤ x).getLast?

/-- A search finds the predecessor before the partition point. -/
theorem predecessor_eq_ite (key : α → ℕ) (x : ℕ) (l : List α) :
    predecessor key x l =
      if partitionPoint (fun a => key a ≤ x) l = 0 then none
      else l[partitionPoint (fun a => key a ≤ x) l - 1]? := by
  split
  · rename_i hzero
    rw [predecessor, List.length_eq_zero_iff.mp hzero]
    rfl
  · rename_i hne
    exact (getElem?_partitionPoint _ l hne).symm

section Search

variable {l : List α}

theorem mem_takeWhile_iff (h : l.Pairwise fun a b => key a ≤ key b) (x : ℕ) {a : α} :
    a ∈ l.takeWhile (fun a => key a ≤ x) ↔ a ∈ l ∧ key a ≤ x := by
  have hlt : (fun a => decide (key a ≤ x)) = fun a => decide (key a < x + 1) := by
    funext a
    exact decide_eq_decide.mpr Nat.lt_succ_iff.symm
  rw [hlt, Windows.takeWhile_eq_filter h (x + 1), List.mem_filter, decide_eq_true_iff,
    Nat.lt_succ_iff]

/-- There is no predecessor when every key is above. -/
theorem predecessor_eq_none_iff (h : l.Pairwise fun a b => key a ≤ key b) {x : ℕ} :
    predecessor key x l = none ↔ ∀ a ∈ l, x < key a := by
  rw [predecessor, List.getLast?_eq_none_iff, List.eq_nil_iff_forall_not_mem]
  refine forall_congr' fun a => ?_
  rw [mem_takeWhile_iff h, not_and, not_le]

/-- The predecessor is an entry whose key is the greatest that is not above. -/
theorem predecessor_spec (h : l.Pairwise fun a b => key a ≤ key b) {x : ℕ} {a : α}
    (ha : predecessor key x l = some a) :
    a ∈ l ∧ key a ≤ x ∧ ∀ b ∈ l, key b ≤ x → key b ≤ key a := by
  obtain ⟨init, hinit⟩ := List.getLast?_eq_some_iff.mp ha
  have hmem : a ∈ l.takeWhile fun a => key a ≤ x := by
    rw [hinit]
    exact List.mem_append_right _ (List.mem_singleton_self a)
  obtain ⟨hal, hle⟩ := (mem_takeWhile_iff h x).mp hmem
  refine ⟨hal, hle, fun b hb hbx => ?_⟩
  have hbmem := (mem_takeWhile_iff h x).mpr ⟨hb, hbx⟩
  have hsorted := h.sublist (List.takeWhile_sublist fun a => decide (key a ≤ x))
  rw [hinit, List.mem_append, List.mem_singleton] at hbmem
  rw [hinit, List.pairwise_append] at hsorted
  rcases hbmem with hbmem | rfl
  · exact hsorted.2.2 b hbmem a (List.mem_singleton_self a)
  · exact Nat.le_refl _

/-- Among ranges laid one after the other, the first that contains a point is its predecessor, if
that reaches beyond the point. -/
theorem find?_eq_predecessor {stop : α → ℕ} (h : l.Pairwise fun a b => key a ≤ key b)
    (hlaid : l.Pairwise fun a b => stop a ≤ key b) (x : ℕ) :
    l.find? (fun a => decide (key a ≤ x) && decide (x < stop a)) =
      (predecessor key x l).filter fun a => decide (x < stop a) := by
  induction l with
  | nil => rfl
  | cons a l ih =>
      obtain ⟨hkeys, hl⟩ := List.pairwise_cons.mp h
      obtain ⟨hstops, hlaidl⟩ := List.pairwise_cons.mp hlaid
      have hrest := ih hl hlaidl
      rcases Nat.lt_or_ge x (key a) with hx | hx
      · -- every range starts above the point
        have hall : ∀ b ∈ a :: l, x < key b := by
          rw [List.forall_mem_cons]
          exact ⟨hx, fun b hb => hx.trans_le (hkeys b hb)⟩
        rw [(predecessor_eq_none_iff h).mpr hall, Option.filter_none, List.find?_eq_none]
        intro b hb
        have hlt := hall b hb
        simp only [Bool.and_eq_true, decide_eq_true_eq]
        omega
      · have hlast : predecessor key x (a :: l) = some ((predecessor key x l).getD a) := by
          rw [predecessor, List.takeWhile_cons_of_pos (by simpa using hx), predecessor,
            List.getLast?_cons]
        rcases Nat.lt_or_ge x (stop a) with hin | hout
        · -- the later ranges start at its end or after it
          have hnone : predecessor key x l = none :=
            (predecessor_eq_none_iff hl).mpr fun b hb => hin.trans_le (hstops b hb)
          rw [List.find?_cons_of_pos (by simp [hx, hin]), hlast, hnone, Option.getD_none,
            Option.filter_some, if_pos (decide_eq_true hin)]
        · rw [List.find?_cons_of_neg (by simp [hout]), hrest, hlast]
          cases predecessor key x l with
          | none =>
              rw [Option.getD_none, Option.filter_none, Option.filter_some,
                if_neg (by simp [hout])]
          | some b => rfl

end Search

end Predecessor

end Stax.Lib
