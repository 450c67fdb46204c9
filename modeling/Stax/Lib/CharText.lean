/-
# Stax.Lib.CharText — text that is cut at bytes.

A text is a list of characters of one to four bytes.  It can be cut at a byte where a character
begins or the text ends, and at no other.  What stands between two such bytes is a slice of it.
-/
import Mathlib

namespace Stax.Lib.CharText

/-- The bytes of characters. -/
def byteLength (cs : List Char) : ℕ := (cs.map Char.utf8Size).sum

/-- A text can be cut at a byte. -/
def CutsAt (cs : List Char) (n : ℕ) : Prop :=
  ∃ before after, cs = before ++ after ∧ byteLength before = n

/-- The characters between two bytes at which the text can be cut. -/
def slice? : List Char → ℕ → ℕ → Option (List Char)
  | _, 0, 0 => some []
  | [], _, _ => none
  | c :: cs, start, stop =>
    if stop < c.utf8Size then none
    else if start = 0 then (slice? cs 0 (stop - c.utf8Size)).map (c :: ·)
    else if start < c.utf8Size then none
    else slice? cs (start - c.utf8Size) (stop - c.utf8Size)

variable {cs before after : List Char} {b : ℕ}

@[simp] theorem byteLength_nil : byteLength [] = 0 := rfl

@[simp] theorem byteLength_cons (c : Char) (cs : List Char) :
    byteLength (c :: cs) = c.utf8Size + byteLength cs := rfl

@[simp] theorem byteLength_append (cs ds : List Char) :
    byteLength (cs ++ ds) = byteLength cs + byteLength ds := by
  rw [byteLength, List.map_append, List.sum_append]
  rfl

theorem byteLength_pos (c : Char) (cs : List Char) : 0 < byteLength (c :: cs) := by
  have := c.utf8Size_pos
  rw [byteLength_cons]
  omega

theorem byteLength_eq_zero_iff : byteLength cs = 0 ↔ cs = [] := by
  cases cs with
  | nil => exact iff_of_true rfl rfl
  | cons c cs => exact iff_of_false (Nat.ne_of_gt (byteLength_pos c cs)) (List.cons_ne_nil c cs)

theorem cutsAt_zero (cs : List Char) : CutsAt cs 0 := ⟨[], cs, rfl, rfl⟩

theorem cutsAt_length (cs : List Char) : CutsAt cs (byteLength cs) :=
  ⟨cs, [], (List.append_nil cs).symm, rfl⟩

theorem slice?_cons (c : Char) (cs : List Char) {start stop : ℕ} (h : 0 < stop) :
    slice? (c :: cs) start stop =
      if stop < c.utf8Size then none
      else if start = 0 then (slice? cs 0 (stop - c.utf8Size)).map (c :: ·)
      else if start < c.utf8Size then none
      else slice? cs (start - c.utf8Size) (stop - c.utf8Size) := by
  rw [slice?]
  rintro - rfl
  cases h

/-- A slice from the start on. -/
theorem slice?_front (mid after : List Char) :
    slice? (mid ++ after) 0 (byteLength mid) = some mid := by
  induction mid with
  | nil => rw [byteLength_nil, slice?]
  | cons c mid ih =>
      rw [List.cons_append, slice?_cons c _ (byteLength_pos c mid), byteLength_cons,
        if_neg (by omega), if_pos rfl, Nat.add_sub_cancel_left, ih]
      rfl

/-- A slice is what stands between its ends. -/
theorem slice?_append (before mid after : List Char) :
    slice? (before ++ (mid ++ after)) (byteLength before) (byteLength before + byteLength mid) =
      some mid := by
  induction before with
  | nil =>
      rw [List.nil_append, byteLength_nil, Nat.zero_add]
      exact slice?_front mid after
  | cons c before ih =>
      have hpos := c.utf8Size_pos
      have hsum : c.utf8Size + byteLength before + byteLength mid - c.utf8Size =
          byteLength before + byteLength mid := by omega
      rw [List.cons_append, byteLength_cons, slice?_cons c _ (by omega), if_neg (by omega),
        if_neg (by omega), if_neg (by omega), Nat.add_sub_cancel_left, hsum]
      exact ih

/-- From one cut to a later one. -/
theorem CutsAt.later (hb : CutsAt cs b) (hcs : cs = before ++ after) (hle : byteLength before ≤ b) :
    ∃ mid rest, after = mid ++ rest ∧ byteLength before + byteLength mid = b := by
  obtain ⟨before', rest, hcs', hlength⟩ := hb
  rcases List.append_eq_append_iff.mp (hcs.symm.trans hcs') with ⟨mid, rfl, hafter⟩ | ⟨mid, rfl, rfl⟩
  · refine ⟨mid, rest, hafter, ?_⟩
    rw [← byteLength_append]
    exact hlength
  · rw [byteLength_append] at hle
    have hmid : mid = [] := byteLength_eq_zero_iff.mp (by omega)
    subst hmid
    refine ⟨[], after, rfl, ?_⟩
    rw [byteLength_append]
    simp only [byteLength_nil]
    omega

end Stax.Lib.CharText
