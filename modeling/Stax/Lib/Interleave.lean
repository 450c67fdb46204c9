/-
# Stax.Lib.Interleave — order-preserving interleavings of labelled streams.

When every element carries the label of the stream it belongs to, a list interleaves the streams
exactly when its restriction to each label is that stream.  The rules peel an interleaving from the
front (the head belongs to one stream, the tail interleaves what is left) and compare it with the
streams laid end to end.
-/
import Mathlib

namespace Stax.Lib

variable {α β κ : Type*} [DecidableEq κ]

/-- `l` interleaves `streams k`, for `k` in `keys`, keeping the order within each stream. -/
structure Interleaves (label : α → κ) (keys : List κ) (streams : κ → List α) (l : List α) :
    Prop where
  labelled : ∀ x ∈ l, label x ∈ keys
  stream : ∀ k ∈ keys, l.filter (fun x => label x == k) = streams k

namespace Interleaves

variable {label : α → κ} {keys : List κ} {streams : κ → List α} {l : List α}

/-- The head of an interleaving is the head of its own stream; the tail interleaves the rest. -/
theorem cons_inv {x : α} (h : Interleaves label keys streams (x :: l)) :
    ∃ rest, streams (label x) = x :: rest ∧
      Interleaves label keys (Function.update streams (label x) rest) l := by
  have hx : label x ∈ keys := h.labelled x (by simp)
  have hhead := h.stream (label x) hx
  rw [List.filter_cons_of_pos (by simp)] at hhead
  refine ⟨l.filter fun y => label y == label x, hhead.symm, ?_, ?_⟩
  · intro y hy
    exact h.labelled y (List.mem_cons_of_mem x hy)
  · intro k hk
    by_cases hkx : k = label x
    · subst hkx
      rw [Function.update_self]
    · rw [Function.update_of_ne hkx, ← h.stream k hk, List.filter_cons_of_neg]
      simpa using fun hxk => hkx hxk.symm

theorem nil_streams (h : Interleaves label keys streams []) {k : κ} (hk : k ∈ keys) :
    streams k = [] := by
  rw [← h.stream k hk]
  rfl

end Interleaves

/-- Taking a prefix off one of the streams takes it off the streams laid end to end, up to order. -/
theorem flatMap_update_perm {keys : List κ} (hkeys : keys.Nodup) {k : κ} (hk : k ∈ keys)
    (f : κ → List β) {pre rest : List β} (hf : f k = pre ++ rest) :
    (keys.flatMap f).Perm (pre ++ keys.flatMap (Function.update f k rest)) := by
  induction keys with
  | nil => simp at hk
  | cons j keys ih =>
      obtain ⟨hj, hkeys⟩ := List.nodup_cons.mp hkeys
      by_cases hjk : j = k
      · have hrest : ∀ i ∈ keys, Function.update f k rest i = f i := by
          intro i hi
          have hik : i ≠ k := fun hik => hj (hjk ▸ hik ▸ hi)
          rw [Function.update_of_ne hik]
        rw [List.flatMap_cons, List.flatMap_cons, List.flatMap_congr hrest, hjk,
          Function.update_self, hf, List.append_assoc]
      · have hk' : k ∈ keys := (List.mem_cons.mp hk).resolve_left fun h => hjk h.symm
        -- the prefix comes out of the tail's streams and passes the first one
        have htail := (ih hkeys hk').append_left (f j)
        have hswap : (f j ++ (pre ++ keys.flatMap (Function.update f k rest))).Perm
            (pre ++ (f j ++ keys.flatMap (Function.update f k rest))) := by
          rw [← List.append_assoc, ← List.append_assoc]
          exact List.perm_append_comm.append_right _
        rw [List.flatMap_cons, List.flatMap_cons, Function.update_of_ne hjk]
        exact htail.trans hswap

/-- An interleaving is a reordering of the streams laid end to end. -/
theorem Interleaves.perm {label : α → κ} {keys : List κ} {streams : κ → List α} {l : List α}
    (h : Interleaves label keys streams l) (hkeys : keys.Nodup) :
    l.Perm (keys.flatMap streams) := by
  induction l generalizing streams with
  | nil =>
      rw [List.flatMap_eq_nil_iff.mpr fun k hk => h.nil_streams hk]
  | cons x l ih =>
      obtain ⟨rest, hrest, htail⟩ := h.cons_inv
      have hx : label x ∈ keys := h.labelled x (by simp)
      have hone : streams (label x) = [x] ++ rest := hrest
      have hsplit := flatMap_update_perm hkeys hx streams hone
      exact ((ih htail).cons x).trans hsplit.symm

/-- Selecting one member's part of a concatenation. -/
theorem filter_flatMap_eq {l : List α} (hl : l.Nodup) {f : α → List β}
    {p : β → Bool} {a : α} (hnil : a ∉ l → f a = []) (hself : ∀ x ∈ f a, p x = true)
    (hother : ∀ b ∈ l, b ≠ a → ∀ x ∈ f b, p x = false) : (l.flatMap f).filter p = f a := by
  induction l with
  | nil => exact (hnil List.not_mem_nil).symm
  | cons b l ih =>
      obtain ⟨hb, hl⟩ := List.nodup_cons.mp hl
      have hrest : ∀ c ∈ l, c ≠ a → ∀ x ∈ f c, p x = false := fun c hc =>
        hother c (List.mem_cons_of_mem b hc)
      rw [List.flatMap_cons, List.filter_append]
      by_cases hab : b = a
      · -- `l` has no duplicates, so the rest contributes nothing
        subst hab
        have hnone : (l.flatMap f).filter p = [] := by
          rw [List.filter_eq_nil_iff]
          intro x hx
          obtain ⟨c, hc, hxc⟩ := List.mem_flatMap.mp hx
          rw [hrest c hc (fun hcb => hb (hcb ▸ hc)) x hxc]
          exact Bool.false_ne_true
        rw [hnone, List.append_nil, List.filter_eq_self.mpr hself]
      · have hnone : (f b).filter p = [] := by
          rw [List.filter_eq_nil_iff]
          intro x hx
          rw [hother b (by simp) hab x hx]
          exact Bool.false_ne_true
        rw [hnone, List.nil_append]
        exact ih hl (fun ha => hnil (by simp [ha, Ne.symm hab])) hrest

end Stax.Lib
