/-
# Stax.Lib.Spans — half-open spans of time.

Spans may be pairwise disjoint, and `Laid lo spans` says that they are non-empty and follow one
another from `lo` on; either way no instant is in two of them.  A double count then bounds them:
spans inside `[a, b)` of which at most `N` contain any one instant are together at most
`N * (b - a)` long.
-/
import Mathlib

namespace Stax.Lib

/-- The half-open span `[start, stop)`. -/
structure Span (α : Type*) where
  start : α
  stop : α
  deriving DecidableEq, Repr

namespace Span

variable {α : Type*} [LinearOrder α]

/-- `t` lies in the span. -/
def Contains (s : Span α) (t : α) : Prop := s.start ≤ t ∧ t < s.stop

instance (s : Span α) (t : α) : Decidable (s.Contains t) :=
  inferInstanceAs (Decidable (_ ∧ _))

/-! ## Spans one after the other -/

/-- Non-empty spans, each starting at or after the end of the one before, the first at or after
`lo`. -/
def Laid : α → List (Span α) → Prop
  | _, [] => True
  | lo, s :: spans => lo ≤ s.start ∧ s.start < s.stop ∧ Laid s.stop spans

variable {lo : α} {spans : List (Span α)}

theorem Laid.bounds (h : Laid lo spans) {s : Span α} (hs : s ∈ spans) :
    lo ≤ s.start ∧ s.start < s.stop := by
  induction spans generalizing lo with
  | nil => simp at hs
  | cons r spans ih =>
      obtain ⟨hlo, hr, hrest⟩ := h
      rcases List.mem_cons.mp hs with rfl | hs
      · exact ⟨hlo, hr⟩
      · obtain ⟨hstart, hlt⟩ := ih hrest hs
        exact ⟨(hlo.trans hr.le).trans hstart, hlt⟩

theorem Laid.pairwise (h : Laid lo spans) : spans.Pairwise fun s t => s.stop ≤ t.start := by
  induction spans generalizing lo with
  | nil => exact List.Pairwise.nil
  | cons s spans ih =>
      refine List.pairwise_cons.mpr ⟨?_, ih h.2.2⟩
      intro t ht
      exact (h.2.2.bounds ht).1

/-! ## Disjoint spans -/

/-- No instant lies in both spans. -/
def Disjoint (s t : Span α) : Prop := ∀ x, ¬ (s.Contains x ∧ t.Contains x)

/-- Of pairwise disjoint spans at most one contains an instant. -/
theorem countP_le_one_of_disjoint (h : spans.Pairwise Disjoint) (t : α) :
    spans.countP (fun s => s.Contains t) ≤ 1 := by
  induction spans with
  | nil => exact Nat.zero_le 1
  | cons s spans ih =>
      obtain ⟨hs, hrest⟩ := List.pairwise_cons.mp h
      rw [List.countP_cons]
      by_cases hst : s.Contains t
      · have hnone : spans.countP (fun s => s.Contains t) = 0 := by
          rw [List.countP_eq_zero]
          intro r hr hrt
          exact hs r hr t ⟨hst, of_decide_eq_true hrt⟩
        rw [hnone]
        split <;> simp
      · rw [if_neg (by simpa using hst)]
        exact ih hrest

/-- No instant lies in two spans that follow one another. -/
theorem Laid.countP_le_one (h : Laid lo spans) (t : α) :
    spans.countP (fun s => s.Contains t) ≤ 1 := by
  refine countP_le_one_of_disjoint (h.pairwise.imp fun hle x hx => ?_) t
  exact absurd (hx.2.1.trans_lt hx.1.2) (not_lt.mpr hle)

/-! ## Double counting -/

/-- A span's length, counted instant by instant. -/
theorem length_eq_sum {s : Span ℕ} {a b : ℕ} (ha : a ≤ s.start) (hb : s.stop ≤ b) :
    s.stop - s.start = ∑ t ∈ Finset.Ico a b, if s.Contains t then 1 else 0 := by
  have hfilter : (Finset.Ico a b).filter (fun t => s.Contains t) =
      Finset.Ico s.start s.stop := by
    ext t
    rw [Finset.mem_filter, Finset.mem_Ico, Finset.mem_Ico]
    constructor
    · exact fun ht => ht.2
    · exact fun ht => ⟨⟨ha.trans ht.1, ht.2.trans_le hb⟩, ht⟩
  rw [← Finset.card_filter, hfilter, Nat.card_Ico]

theorem sum_length_eq {spans : List (Span ℕ)} {a b : ℕ}
    (h : ∀ s ∈ spans, a ≤ s.start ∧ s.stop ≤ b) :
    (spans.map fun s => s.stop - s.start).sum =
      ∑ t ∈ Finset.Ico a b, spans.countP (fun s => s.Contains t) := by
  induction spans with
  | nil => simp
  | cons s spans ih =>
      obtain ⟨ha, hb⟩ := h s (by simp)
      rw [List.map_cons, List.sum_cons, ih fun r hr => h r (List.mem_cons_of_mem s hr),
        length_eq_sum ha hb, ← Finset.sum_add_distrib]
      apply Finset.sum_congr rfl
      intro t _
      rw [List.countP_cons, Nat.add_comm]
      simp

/-- Spans inside `[a, b)` of which no instant lies in more than `N`. -/
theorem sum_length_le {spans : List (Span ℕ)} {a b N : ℕ}
    (h : ∀ s ∈ spans, a ≤ s.start ∧ s.stop ≤ b)
    (hN : ∀ t, spans.countP (fun s => s.Contains t) ≤ N) :
    (spans.map fun s => s.stop - s.start).sum ≤ N * (b - a) := by
  rw [sum_length_eq h]
  calc ∑ t ∈ Finset.Ico a b, spans.countP (fun s => s.Contains t)
      ≤ ∑ _t ∈ Finset.Ico a b, N := Finset.sum_le_sum fun t _ => hN t
    _ = N * (b - a) := by rw [Finset.sum_const, Nat.card_Ico, smul_eq_mul, Nat.mul_comm]

end Span

end Stax.Lib
