/-
# Stax.Lib.Saturating — numbers added with saturation.

`Sat m` holds the numbers up to `m`; a sum that would pass `m` stays at `m`.  Saturating addition is
commutative and associative with unit zero, so sums over lists may be regrouped and reordered, and
rounding a natural number down to `m` carries sums to sums.  A saturating sum is the exact one as
long as that is at most `m`.
-/
import Mathlib

namespace Stax.Lib

/-- The numbers up to `m`. -/
@[ext]
structure Sat (m : ℕ) where
  val : ℕ
  le : val ≤ m
  deriving DecidableEq, Repr

namespace Sat

variable {m : ℕ}

/-- `n`, or `m` where `n` is larger. -/
def ofNat (m n : ℕ) : Sat m := ⟨min n m, Nat.min_le_right n m⟩

instance : Zero (Sat m) := ⟨⟨0, Nat.zero_le m⟩⟩

/-- Saturating addition. -/
instance : Add (Sat m) := ⟨fun a b => ⟨min (a.val + b.val) m, Nat.min_le_right _ m⟩⟩

instance : Inhabited (Sat m) := ⟨0⟩

@[simp] theorem val_ofNat (n : ℕ) : (ofNat m n).val = min n m := rfl

@[simp] theorem val_zero : (0 : Sat m).val = 0 := rfl

theorem val_add (a b : Sat m) : (a + b).val = min (a.val + b.val) m := rfl

instance : AddCommMonoid (Sat m) where
  zero_add a := by
    ext
    rw [val_add, val_zero, Nat.zero_add, Nat.min_eq_left a.le]
  add_zero a := by
    ext
    rw [val_add, val_zero, Nat.add_zero, Nat.min_eq_left a.le]
  add_comm a b := by
    ext
    rw [val_add, val_add, Nat.add_comm]
  add_assoc a b c := by
    ext
    simp only [val_add]
    omega
  nsmul := nsmulRec

/-- Rounding to `Sat m` carries sums to saturating sums. -/
def ofNatHom (m : ℕ) : ℕ →+ Sat m where
  toFun := ofNat m
  map_zero' := by
    ext
    rw [val_ofNat, val_zero, Nat.zero_min]
  map_add' a b := by
    ext
    simp only [val_add, val_ofNat]
    omega

@[simp] theorem ofNatHom_apply (n : ℕ) : ofNatHom m n = ofNat m n := rfl

theorem ofNat_val (a : Sat m) : ofNat m a.val = a := by
  ext
  rw [val_ofNat, Nat.min_eq_left a.le]

theorem val_ofNat_eq {n : ℕ} (h : n ≤ m) : (ofNat m n).val = n := by
  rw [val_ofNat, Nat.min_eq_left h]

/-! ## Sums -/

theorem val_sum (l : List (Sat m)) : l.sum.val = min (l.map val).sum m := by
  induction l with
  | nil => simp
  | cons a l ih =>
      rw [List.sum_cons, List.map_cons, List.sum_cons, val_add, ih]
      omega

/-- A saturating sum is at most the exact one. -/
theorem val_sum_le (l : List (Sat m)) : l.sum.val ≤ (l.map val).sum := by
  rw [val_sum]
  exact Nat.min_le_left _ m

/-- A saturating sum is the exact one as long as that fits. -/
theorem val_sum_eq {l : List (Sat m)} (h : (l.map val).sum ≤ m) : l.sum.val = (l.map val).sum := by
  rw [val_sum, Nat.min_eq_left h]

/-- Leaving summands out never makes a saturating sum larger. -/
theorem val_sum_sublist_le {l l' : List (Sat m)} (h : l.Sublist l') : l.sum.val ≤ l'.sum.val := by
  have hle : (l.map val).sum ≤ (l'.map val).sum := (h.map val).sum_le_sum fun _ _ => Nat.zero_le _
  rw [val_sum, val_sum]
  omega

/-! ## Counting some things more than once -/

/-- Two sums agree, where one summand by summand is at most the other, only if all summands do. -/
theorem sum_mul_eq_iff {α : Type*} {l : List α} {w once many : α → ℕ}
    (hle : ∀ a ∈ l, once a ≤ many a) (hpos : ∀ a ∈ l, 0 < w a) :
    (l.map fun a => many a * w a).sum = (l.map fun a => once a * w a).sum ↔
      ∀ a ∈ l, many a = once a := by
  induction l with
  | nil => simp
  | cons a l ih =>
      rw [List.forall_mem_cons] at hle hpos
      rw [List.forall_mem_cons, ← ih hle.2 hpos.2, List.map_cons, List.map_cons, List.sum_cons,
        List.sum_cons]
      have hhead : once a * w a ≤ many a * w a := Nat.mul_le_mul_right (w a) hle.1
      have htail : (l.map fun a => once a * w a).sum ≤ (l.map fun a => many a * w a).sum :=
        List.sum_le_sum fun b hb => Nat.mul_le_mul_right (w b) (hle.2 b hb)
      constructor
      · intro heq
        have hone : many a * w a = once a * w a := by omega
        exact ⟨Nat.eq_of_mul_eq_mul_right hpos.1 hone, by omega⟩
      · rintro ⟨hone, hrest⟩
        rw [hone, hrest]

/-- Cut to `m`, counting some things more than once makes no difference exactly when nothing is
counted more than once or the count reaches `m` anyway. -/
theorem min_sum_mul_eq_iff {α : Type*} {l : List α} {w once many : α → ℕ}
    (hle : ∀ a ∈ l, once a ≤ many a) (hpos : ∀ a ∈ l, 0 < w a) (m : ℕ) :
    min (l.map fun a => many a * w a).sum m = min (l.map fun a => once a * w a).sum m ↔
      (∀ a ∈ l, many a = once a) ∨ m ≤ (l.map fun a => once a * w a).sum := by
  have hsum : (l.map fun a => once a * w a).sum ≤ (l.map fun a => many a * w a).sum :=
    List.sum_le_sum fun a ha => Nat.mul_le_mul_right (w a) (hle a ha)
  rw [← sum_mul_eq_iff hle hpos]
  omega

end Sat

end Stax.Lib
