/-
# Stax.Lib.Checked — operations that panic.

Sums that must fit in a width, differences that must not go below zero, and ranges of bytes that
must lie in the bytes and not be inverted.  Each gives an error where it would panic, and a sum or a
difference carries what it is, so that a loop over such values can be seen to end.
-/
import Stax.Lib.Bytes

namespace Stax.Lib

/-- A sum that must fit in `width` bits. -/
def addChecked (width a b : ℕ) : Except String { n : ℕ // n = a + b } :=
  if a + b < 2 ^ width then .ok ⟨a + b, rfl⟩ else .error "attempt to add with overflow"

/-- A difference that must not be negative. -/
def subChecked (a b : ℕ) : Except String { n : ℕ // n + b = a } :=
  if h : b ≤ a then .ok ⟨a - b, Nat.sub_add_cancel h⟩
  else .error "attempt to subtract with overflow"

/-- The bytes of a range. -/
def sliceChecked (bytes : List UInt8) (start stop : ℕ) : Except String (List UInt8) :=
  if stop < start then .error "slice index starts after its end"
  else if bytes.length < stop then .error "range end index out of range"
  else .ok (slice bytes start (stop - start))

theorem ok_bind {ε α β : Type} (a : α) (f : α → Except ε β) : (Except.ok a >>= f) = f a := rfl

section

variable {width a b : ℕ} {bytes : List UInt8} {start stop : ℕ}

theorem addChecked_of_lt (h : a + b < 2 ^ width) : addChecked width a b = .ok ⟨a + b, rfl⟩ :=
  if_pos h

theorem addChecked_of_le (h : 2 ^ width ≤ a + b) :
    addChecked width a b = .error "attempt to add with overflow" := if_neg (Nat.not_lt_of_le h)

theorem subChecked_of_le (h : b ≤ a) : subChecked a b = .ok ⟨a - b, Nat.sub_add_cancel h⟩ :=
  dif_pos h

theorem sliceChecked_of_le (h : start ≤ stop) (hin : stop ≤ bytes.length) :
    sliceChecked bytes start stop = .ok (slice bytes start (stop - start)) := by
  unfold sliceChecked
  rw [if_neg (by omega), if_neg (by omega)]

end

end Stax.Lib
