/-
# Stax.Lib.Exclusive — what at most one of many can hold.

Each of the members of a list may hold something.  What they hold, in the order of the list, changes
only with a member that begins or ceases to hold; where there is at most one thing to be held, it is
held by one member.
-/
import Mathlib

namespace Stax.Lib.Exclusive

variable {α β : Type*} {held : α → Option β} {members before after : List α} {i j : ℕ} {a b : α}
  {k : β}

/-- A member with those before and behind it. -/
theorem exists_split (h : members[i]? = some a) :
    ∃ before after, before.length = i ∧ members = before ++ a :: after ∧
      ∀ b, members.set i b = before ++ b :: after := by
  obtain ⟨hlt, hget⟩ := List.getElem?_eq_some_iff.mp h
  have hlength : (members.take i).length = i := List.length_take_of_le (Nat.le_of_lt hlt)
  refine ⟨members.take i, members.drop (i + 1), hlength, ?_, fun b => ?_⟩
  · rw [← hget, List.cons_getElem_drop_succ, List.take_append_drop]
  · rw [List.set_eq_take_append_cons_drop, if_pos hlt]

/-- Nothing changes hands with a member that holds what it held. -/
theorem held_set_same (h : members[i]? = some a) (hsame : held b = held a) :
    (members.set i b).filterMap held = members.filterMap held := by
  obtain ⟨before, after, -, hsplit, hset⟩ := exists_split h
  rw [hset b, hsplit, List.filterMap_append, List.filterMap_append, List.filterMap_cons,
    List.filterMap_cons, hsame]

/-- Where nothing was held, a member that begins to hold is the only one. -/
theorem held_set_take (h : members[i]? = some a) (hnone : members.filterMap held = [])
    (htakes : held b = some k) : (members.set i b).filterMap held = [k] := by
  obtain ⟨before, after, -, hsplit, hset⟩ := exists_split h
  rw [hsplit, List.filterMap_append, List.append_eq_nil_iff, List.filterMap_cons] at hnone
  obtain ⟨hbefore, hrest⟩ := hnone
  have hafter : after.filterMap held = [] := by
    cases hheld : held a with
    | none => rwa [hheld] at hrest
    | some k' => rw [hheld] at hrest; cases hrest
  rw [hset b, List.filterMap_append, hbefore, List.nil_append, List.filterMap_cons, htakes, hafter]

/-- A member among others of which at most one holds something: none of the others does. -/
theorem others_hold_nothing (hone : ((before ++ a :: after).filterMap held).length ≤ 1)
    (hholds : held a = some k) : before.filterMap held = [] ∧ after.filterMap held = [] := by
  rw [List.filterMap_append, List.filterMap_cons, hholds, List.length_append,
    List.length_cons] at hone
  exact ⟨List.eq_nil_of_length_eq_zero (by omega), List.eq_nil_of_length_eq_zero (by omega)⟩

/-- Where at most one thing was held, nothing is once it is given back. -/
theorem held_set_release (h : members[i]? = some a) (hholds : held a = some k)
    (hone : (members.filterMap held).length ≤ 1) (hgives : held b = none) :
    (members.set i b).filterMap held = [] := by
  obtain ⟨before, after, -, hsplit, hset⟩ := exists_split h
  rw [hsplit] at hone
  obtain ⟨hbefore, hafter⟩ := others_hold_nothing hone hholds
  rw [hset b, List.filterMap_append, List.filterMap_cons, hgives, hbefore, hafter]
  rfl

/-- At most one member holds anything. -/
theorem holder_unique {k' : β} (hone : (members.filterMap held).length ≤ 1)
    (h : members[i]? = some a) (hholds : held a = some k) (h' : members[j]? = some b)
    (hholds' : held b = some k') : i = j := by
  obtain ⟨before, after, hlength, hsplit, -⟩ := exists_split h
  rw [hsplit] at hone h'
  obtain ⟨hbefore, hafter⟩ := others_hold_nothing hone hholds
  rcases Nat.lt_trichotomy j i with hlt | heq | hlt
  · rw [List.getElem?_append_left (by omega)] at h'
    have hmem := List.mem_filterMap.mpr ⟨b, List.mem_of_getElem? h', hholds'⟩
    rw [hbefore] at hmem
    cases hmem
  · exact heq.symm
  · obtain ⟨n, rfl⟩ := Nat.exists_eq_add_of_lt hlt
    rw [List.getElem?_append_right (by omega), show i + n + 1 - before.length = n + 1 by omega,
      List.getElem?_cons_succ] at h'
    have hmem := List.mem_filterMap.mpr ⟨b, List.mem_of_getElem? h', hholds'⟩
    rw [hafter] at hmem
    cases hmem

end Stax.Lib.Exclusive
