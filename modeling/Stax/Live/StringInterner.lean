/-
# Stax.Live.StringInterner — the string table of an update.

Names are sent as indices into a table of strings.  The interner gives a string the index it has, or
appends it; an index once given stays, and as long as the table has no more strings than there are
`u32` indices, the string at an index is the one it was given for.
-/
import Mathlib

namespace Stax.Live

/-- The strings by index, and the index of each string. -/
structure StringInterner where
  strings : List String := []
  index : String → Option UInt32 := fun _ => none

namespace StringInterner

/-- The index of a string, appended where it is new; `len() as u32` keeps the low 32 bits. -/
def intern (self : StringInterner) (s : String) : UInt32 × StringInterner :=
  match self.index s with
  | some i => (i, self)
  | none =>
    let i := UInt32.ofNat self.strings.length
    (i, { strings := self.strings ++ [s], index := Function.update self.index s (some i) })

/-- The index of a string that may be missing; a missing one leaves the table as it is. -/
def internOpt (self : StringInterner) (s : Option String) : Option UInt32 × StringInterner :=
  match s with
  | some s => (some (self.intern s).1, (self.intern s).2)
  | none => (none, self)

/-! ## The invariant -/

/-- The table holds no string twice, and the index of a string is its place, cut to 32 bits. -/
structure WF (interner : StringInterner) : Prop where
  nodup : interner.strings.Nodup
  index_iff : ∀ s i, interner.index s = some i ↔
    ∃ n, interner.strings[n]? = some s ∧ i = UInt32.ofNat n

theorem wf_new : ({} : StringInterner).WF where
  nodup := List.nodup_nil
  index_iff s i := by simp

/-- Every index given before is kept. -/
def Extends (self later : StringInterner) : Prop :=
  ∀ s i, self.index s = some i → later.index s = some i

theorem Extends.refl (self : StringInterner) : self.Extends self := fun _ _ h => h

theorem Extends.trans {a b c : StringInterner} (hab : a.Extends b) (hbc : b.Extends c) :
    a.Extends c :=
  fun s i h => hbc s i (hab s i h)

theorem WF.index_eq_none_iff {self : StringInterner} (h : self.WF) {s : String} :
    self.index s = none ↔ s ∉ self.strings := by
  rw [Option.eq_none_iff_forall_ne_some, List.mem_iff_getElem?]
  constructor
  · rintro hnone ⟨n, hn⟩
    exact hnone _ ((h.index_iff s _).mpr ⟨n, hn, rfl⟩)
  · intro hnot i hi
    obtain ⟨n, hn, -⟩ := (h.index_iff s i).mp hi
    exact hnot ⟨n, hn⟩

theorem index_intern (self : StringInterner) (s : String) :
    (self.intern s).2.index s = some (self.intern s).1 := by
  unfold intern
  cases hs : self.index s with
  | some i => exact hs
  | none => exact Function.update_self ..

theorem extends_intern (self : StringInterner) (s : String) :
    self.Extends (self.intern s).2 := by
  intro t i ht
  unfold intern
  cases hs : self.index s with
  | some j => exact ht
  | none =>
      have hne : t ≠ s := by
        rintro rfl
        rw [hs] at ht
        cases ht
      show Function.update self.index s _ t = some i
      rw [Function.update_of_ne hne]
      exact ht

/-- A new string is appended, and nothing else. -/
theorem strings_intern (self : StringInterner) (s : String) :
    (self.intern s).2.strings = if self.index s = none then self.strings ++ [s]
      else self.strings := by
  unfold intern
  cases self.index s with
  | some i => rfl
  | none => rfl

/-- Interning keeps the table without repetitions, and answers with the place of the string. -/
theorem WF.intern {self : StringInterner} (h : self.WF) (s : String) : (self.intern s).2.WF := by
  cases hs : self.index s with
  | some i =>
      have hsame : (self.intern s).2 = self := by
        unfold StringInterner.intern
        rw [hs]
      rw [hsame]
      exact h
  | none =>
      have hnew : s ∉ self.strings := h.index_eq_none_iff.mp hs
      have hadded : (self.intern s).2 =
          { strings := self.strings ++ [s],
            index := Function.update self.index s (some (UInt32.ofNat self.strings.length)) } := by
        unfold StringInterner.intern
        rw [hs]
      rw [hadded]
      refine ⟨?_, fun t i => ?_⟩
      · rw [← List.concat_eq_append]
        exact h.nodup.concat hnew
      · dsimp only
        rcases eq_or_ne t s with rfl | hne
        · rw [Function.update_self, Option.some.injEq]
          constructor
          · rintro rfl
            exact ⟨self.strings.length, List.getElem?_concat_length .., rfl⟩
          · rintro ⟨n, hn, rfl⟩
            rw [List.getElem?_append] at hn
            split at hn
            · exact absurd (List.mem_of_getElem? hn) hnew
            · rename_i hge
              have hlast : n - self.strings.length < 1 := (List.getElem?_eq_some_iff.mp hn).1
              have hlength : n = self.strings.length := by omega
              rw [hlength]
        · rw [Function.update_of_ne hne, h.index_iff]
          refine exists_congr fun n => and_congr_left fun _ => ?_
          rw [List.getElem?_append]
          split
          · exact Iff.rfl
          · rename_i hge
            rw [List.getElem?_eq_none (by omega)]
            have hother : ¬ [s][n - self.strings.length]? = some t := by
              intro hlast
              exact hne (List.mem_singleton.mp (List.mem_of_getElem? hlast))
            simp [hother]

/-- The table gains the interned string. -/
theorem WF.mem_strings_intern {self : StringInterner} (h : self.WF) {s t : String} :
    t ∈ (self.intern s).2.strings ↔ t ∈ self.strings ∨ t = s := by
  rw [strings_intern]
  split
  · rw [List.mem_append, List.mem_singleton]
  · rename_i hs
    have hmem : s ∈ self.strings := by
      by_contra hnot
      exact hs (h.index_eq_none_iff.mpr hnot)
    constructor
    · exact Or.inl
    · rintro (ht | rfl)
      · exact ht
      · exact hmem

/-! ## Optional strings -/

theorem extends_internOpt (self : StringInterner) (s : Option String) :
    self.Extends (self.internOpt s).2 := by
  cases s with
  | some s => exact extends_intern self s
  | none => exact Extends.refl self

theorem WF.internOpt {self : StringInterner} (h : self.WF) (s : Option String) :
    (self.internOpt s).2.WF := by
  cases s with
  | some s => exact h.intern s
  | none => exact h

theorem WF.mem_strings_internOpt {self : StringInterner} (h : self.WF) {s : Option String}
    {t : String} :
    t ∈ (self.internOpt s).2.strings ↔ t ∈ self.strings ∨ s = some t := by
  cases s with
  | some s =>
      rw [Option.some.injEq, eq_comm (a := s)]
      exact h.mem_strings_intern
  | none =>
      show t ∈ self.strings ↔ _
      simp

/-- What an optional string was given is what any later table has for it. -/
theorem internOpt_eq_bind (self : StringInterner) (s : Option String) {later : StringInterner}
    (h : (self.internOpt s).2.Extends later) : (self.internOpt s).1 = s.bind later.index := by
  cases s with
  | some s => exact (h s _ (index_intern self s)).symm
  | none => rfl

/-! ## Reading back -/

/-- The table has no more strings than there are indices. -/
def Fits (self : StringInterner) : Prop := self.strings.length ≤ 2 ^ 32

/-- The string at an index is the one the index was given for. -/
theorem WF.read {self : StringInterner} (h : self.WF) (hfits : self.Fits) {s : String} {i : UInt32}
    (hs : self.index s = some i) : self.strings[i.toNat]? = some s := by
  obtain ⟨n, hn, rfl⟩ := (h.index_iff s i).mp hs
  have hlt : n < self.strings.length := (List.getElem?_eq_some_iff.mp hn).1
  have hsmall : n < 2 ^ 32 := lt_of_lt_of_le hlt hfits
  rw [UInt32.toNat_ofNat_of_lt' hsmall]
  exact hn

end StringInterner

end Stax.Live
