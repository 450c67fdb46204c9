/-
# Stax.Lib.Capped — a list that takes no more than its cap.

A list that is offered one event after the other, and takes them until it is full, has the first
ones.  Sorted afterwards, the greatest first, it shows the greatest events exactly when no event that
came too late is greater than one that was taken.
-/
import Mathlib.Data.List.Forall2
import Mathlib.Data.List.Perm.Basic
import Mathlib.Data.List.Sort

namespace Stax.Lib.Capped

variable {α ε : Type*}

/-! ## Filling -/

theorem take_concat (n : ℕ) (events : List α) (a : α) :
    (events ++ [a]).take n = if events.length < n then events.take n ++ [a] else events.take n := by
  rw [List.take_append]
  split
  · rename_i hroom
    have hone : [a].take (n - events.length) = [a] := by
      apply List.take_of_length_le
      rw [List.length_singleton]
      omega
    rw [hone]
  · rename_i hfull
    have hnone : n - events.length = 0 := by omega
    rw [hnone, List.take_zero, List.append_nil]

/-- What is offered to the list is taken while there is room. -/
theorem forall₂_offer {shows : α → ε → Prop} {cap : ℕ} {events : List α} {entries : List ε}
    (h : List.Forall₂ shows (events.take cap) entries) {a : α} {e : ε} (hshows : shows a e) :
    List.Forall₂ shows ((events ++ [a]).take cap)
      (if entries.length < cap then entries ++ [e] else entries) := by
  have hlength : entries.length = min cap events.length := by
    rw [← h.length_eq, List.length_take]
  have hroom : entries.length < cap ↔ events.length < cap := by omega
  rw [take_concat]
  by_cases hfull : events.length < cap
  · rw [if_pos hfull, if_pos (hroom.mpr hfull)]
    exact List.rel_append h (List.Forall₂.cons hshows List.Forall₂.nil)
  · rw [if_neg hfull, if_neg (mt hroom.mp hfull)]
    exact h

/-! ## The greatest -/

/-- The entries show `n` of the events, the greatest first, and none that is left out is greater
than one that is shown. -/
def ShowsGreatest (time : α → ℕ) (shows : α → ε → Prop) (n : ℕ) (events : List α)
    (entries : List ε) : Prop :=
  ∃ kept left : List α, (kept ++ left).Perm events ∧ kept.length = n ∧
    List.Forall₂ shows kept entries ∧ kept.Pairwise (fun a b => time b ≤ time a) ∧
    ∀ a ∈ kept, ∀ b ∈ left, time b ≤ time a

variable {time : α → ℕ} {shows : α → ε → Prop} {shown : ε → ℕ}

theorem map_shown (htime : ∀ a e, shows a e → shown e = time a) {events : List α} {entries : List ε}
    (h : List.Forall₂ shows events entries) : entries.map shown = events.map time := by
  induction h with
  | nil => rfl
  | cons hshows _ ih => rw [List.map_cons, List.map_cons, htime _ _ hshows, ih]

theorem sorted_insertionSort (shown : ε → ℕ) (entries : List ε) :
    (entries.insertionSort fun a b => shown b ≤ shown a).Pairwise fun a b => shown b ≤ shown a := by
  have : Std.Total fun a b : ε => shown b ≤ shown a := ⟨fun a b => Nat.le_total _ _⟩
  have : IsTrans ε fun a b => shown b ≤ shown a := ⟨fun a b c hab hbc => Nat.le_trans hbc hab⟩
  exact List.pairwise_insertionSort _ entries

/-- A list filled up to a cap and then sorted shows the greatest events exactly when none that came
too late is greater than one that was taken. -/
theorem showsGreatest_iff (htime : ∀ a e, shows a e → shown e = time a) {cap : ℕ}
    {events : List α} {entries : List ε} (h : List.Forall₂ shows (events.take cap) entries) :
    ShowsGreatest time shows (min cap events.length) events
        (entries.insertionSort fun a b => shown b ≤ shown a) ↔
      ∀ a ∈ events.take cap, ∀ b ∈ events.drop cap, time b ≤ time a := by
  have hperm := List.perm_insertionSort (fun a b => shown b ≤ shown a) entries
  constructor
  · rintro ⟨kept, left, hall, -, hkept, -, hgreatest⟩ a ha b hb
    -- the entries have the times of what was taken, whichever events they are said to show
    have htaken : (kept.map time).Perm ((events.take cap).map time) := by
      rw [← map_shown htime hkept, ← map_shown htime h]
      exact hperm.map shown
    have hsplit : (kept.map time ++ left.map time).Perm
        (kept.map time ++ (events.drop cap).map time) := by
      rw [← List.map_append]
      refine (hall.map time).trans ?_
      conv_lhs => rw [← List.take_append_drop cap events, List.map_append]
      exact htaken.symm.append_right _
    have hleft := (List.perm_append_left_iff _).mp hsplit
    obtain ⟨a', ha', htime'⟩ := List.mem_map.mp (htaken.mem_iff.mpr (List.mem_map_of_mem ha))
    obtain ⟨b', hb', htime''⟩ := List.mem_map.mp (hleft.mem_iff.mpr (List.mem_map_of_mem hb))
    rw [← htime', ← htime'']
    exact hgreatest a' ha' b' hb'
  · intro hgreatest
    obtain ⟨kept, htaken, hkept⟩ : ∃ kept, (events.take cap).Perm kept ∧ List.Forall₂ shows kept
        (entries.insertionSort fun a b => shown b ≤ shown a) := by
      have hcomp : Relation.Comp (List.Forall₂ shows) List.Perm (events.take cap)
          (entries.insertionSort fun a b => shown b ≤ shown a) := ⟨entries, h, hperm.symm⟩
      rw [List.forall₂_comp_perm_eq_perm_comp_forall₂] at hcomp
      exact hcomp
    refine ⟨kept, events.drop cap, ?_, ?_, hkept, ?_, ?_⟩
    · refine (htaken.symm.append_right _).trans ?_
      rw [List.take_append_drop]
    · rw [← htaken.length_eq, List.length_take]
    · have hsorted : ((entries.insertionSort fun a b => shown b ≤ shown a).map shown).Pairwise
          fun x y => y ≤ x := List.pairwise_map.mpr (sorted_insertionSort shown entries)
      rw [map_shown htime hkept] at hsorted
      exact List.pairwise_map.mp hsorted
    · intro a ha
      exact hgreatest a (htaken.mem_iff.mpr ha)

end Stax.Lib.Capped
