/-
# Stax.Lib.Bytes — numbers and text as bytes.

Numbers of a fixed width in little-endian order, and text in UTF-8 that is read leniently: a part
that is no encoding becomes one replacement character, and the part is the longest start of an
encoding, or one byte.  Both are read back as they were written.
-/
import Mathlib

namespace Stax.Lib

/-! ## Little-endian numbers -/

/-- A number as `width` bytes, the low ones first; what does not fit is cut off. -/
def leBytes : ℕ → ℕ → List UInt8
  | 0, _ => []
  | width + 1, n => UInt8.ofNat n :: leBytes width (n / 256)

/-- The number that bytes stand for. -/
def leNat : List UInt8 → ℕ
  | [] => 0
  | b :: bs => b.toNat + 256 * leNat bs

@[simp] theorem length_leBytes (width n : ℕ) : (leBytes width n).length = width := by
  induction width generalizing n with
  | zero => rfl
  | succ width ih => rw [leBytes, List.length_cons, ih]

theorem leNat_leBytes (width n : ℕ) : leNat (leBytes width n) = n % 256 ^ width := by
  induction width generalizing n with
  | zero => rw [leBytes, leNat, pow_zero, Nat.mod_one]
  | succ width ih =>
      have hbyte : (UInt8.ofNat n).toNat = n % 256 := UInt8.toNat_ofNat'
      rw [leBytes, leNat, ih, hbyte, pow_succ, mul_comm (256 ^ width), Nat.mod_mul]

theorem leNat_leBytes_of_lt {width n : ℕ} (h : n < 256 ^ width) : leNat (leBytes width n) = n := by
  rw [leNat_leBytes, Nat.mod_eq_of_lt h]

theorem leNat_lt (bytes : List UInt8) : leNat bytes < 256 ^ bytes.length := by
  induction bytes with
  | nil => exact Nat.one_pos
  | cons b bs ih =>
      have hbyte : b.toNat < 256 := b.toNat_lt
      rw [leNat, List.length_cons, pow_succ]
      omega

/-- `width` bytes from a place on. -/
def slice (bytes : List UInt8) (start width : ℕ) : List UInt8 := (bytes.drop start).take width

/-- The bytes of a part that stands somewhere. -/
theorem slice_eq {bytes before part after : List UInt8} {start width : ℕ}
    (h : bytes = before ++ (part ++ after)) (hstart : before.length = start)
    (hwidth : part.length = width) : slice bytes start width = part := by
  rw [slice, h, List.drop_left' hstart, List.take_left' hwidth]

/-! ## Lenient UTF-8 -/

/-- The character whose encoding the bytes start with. -/
def decodeFirst (bytes : List UInt8) : Option Char := bytes.toByteArray.utf8DecodeChar? 0

/-- Whether a byte continues an encoding. -/
def isContinuation (b : UInt8) : Bool := b &&& 0xc0 == 0x80

/-- Whether two bytes start the encoding of a character of three bytes or more. -/
def startsLong (b c : UInt8) : Bool :=
  (b == 0xe0 && 0xa0 ≤ c && c ≤ 0xbf) || (0xe1 ≤ b && b ≤ 0xec && 0x80 ≤ c && c ≤ 0xbf) ||
  (b == 0xed && 0x80 ≤ c && c ≤ 0x9f) || (0xee ≤ b && b ≤ 0xef && 0x80 ≤ c && c ≤ 0xbf) ||
  (b == 0xf0 && 0x90 ≤ c && c ≤ 0xbf) || (0xf1 ≤ b && b ≤ 0xf3 && 0x80 ≤ c && c ≤ 0xbf) ||
  (b == 0xf4 && 0x80 ≤ c && c ≤ 0x8f)

/-- How many bytes one replacement character stands for, where no encoding starts. -/
def replacedLength : List UInt8 → ℕ
  | b :: c :: d :: _ =>
    if startsLong b c then if 0xf0 ≤ b && isContinuation d then 3 else 2 else 1
  | [b, c] => if startsLong b c then 2 else 1
  | _ => 1

theorem replacedLength_pos (bytes : List UInt8) : 0 < replacedLength bytes := by
  unfold replacedLength
  repeat' split
  all_goals omega

/-- The characters of bytes that need not be an encoding. -/
def lossyChars : List UInt8 → List Char
  | [] => []
  | b :: bs =>
    match decodeFirst (b :: bs) with
    | some c => c :: lossyChars ((b :: bs).drop c.utf8Size)
    | none => Char.ofNat 0xfffd :: lossyChars ((b :: bs).drop (replacedLength (b :: bs)))
termination_by bytes => bytes.length
decreasing_by
  · have hpos := c.utf8Size_pos
    simp only [List.length_drop, List.length_cons]
    omega
  · have hpos := replacedLength_pos (b :: bs)
    simp only [List.length_drop, List.length_cons]
    omega

/-- Bytes read as text, with a replacement character for whatever is no UTF-8. -/
def fromUtf8Lossy (bytes : List UInt8) : String := String.ofList (lossyChars bytes)

/-- The encoding of a text. -/
def utf8Bytes (s : String) : List UInt8 := s.toList.flatMap String.utf8EncodeChar

theorem decodeFirst_utf8EncodeChar_append (c : Char) (rest : List UInt8) :
    decodeFirst (String.utf8EncodeChar c ++ rest) = some c := by
  unfold decodeFirst
  rw [List.toByteArray_append]
  exact ByteArray.utf8DecodeChar?_utf8EncodeChar_append

/-- Reading what was written as UTF-8 gives the characters back, and nothing is replaced. -/
theorem lossyChars_encode (cs : List Char) :
    lossyChars (cs.flatMap String.utf8EncodeChar) = cs := by
  induction cs with
  | nil => rw [List.flatMap_nil, lossyChars]
  | cons c cs ih =>
      have hfirst := decodeFirst_utf8EncodeChar_append c (cs.flatMap String.utf8EncodeChar)
      have hlength : (String.utf8EncodeChar c).length = c.utf8Size := String.length_utf8EncodeChar c
      have hdrop : (String.utf8EncodeChar c ++ cs.flatMap String.utf8EncodeChar).drop c.utf8Size =
          cs.flatMap String.utf8EncodeChar := List.drop_left' hlength
      rw [List.flatMap_cons]
      obtain ⟨b, bs, hcons⟩ : ∃ b bs,
          String.utf8EncodeChar c ++ cs.flatMap String.utf8EncodeChar = b :: bs := by
        apply List.exists_cons_of_ne_nil
        intro hnil
        have hpos := c.utf8Size_pos
        rw [List.append_eq_nil_iff, ← List.length_eq_zero_iff] at hnil
        omega
      rw [hcons] at hfirst hdrop ⊢
      rw [lossyChars, hfirst]
      dsimp only
      rw [hdrop, ih]

/-- Text is read back as it was. -/
theorem fromUtf8Lossy_utf8Bytes (s : String) : fromUtf8Lossy (utf8Bytes s) = s := by
  unfold fromUtf8Lossy utf8Bytes
  rw [lossyChars_encode, String.ofList_toList]

/-- A continuation byte alone, a cut encoding, and text after it. -/
example : lossyChars [0x80, 0xe2, 0x82, 0x61] =
    [Char.ofNat 0xfffd, Char.ofNat 0xfffd, Char.ofNat 0x61] := by
  decide +kernel

end Stax.Lib
