/-
# Stax.Binaries.CodeFetch — whose bytes a disassembly is made of.

The segments of an image on disk come out of a file that may say anything.  A fetch goes through them
in order; the first whose end overflows ends it with nothing, the first that holds the range decides.
All its sums are `checked_add`, but for one: the place of the range in the file.  Here that sum is
checked to fit as well, and the slice to lie in the file.  A fetch then gives the right bytes or
nothing, exactly if that one sum fits where the fetch comes to it.
-/
import Stax.Lib.Checked
import Stax.Binaries.Registry

namespace Stax.Binaries

open Stax.Live (Addr)
open Stax.Lib

/-! ## The checked fetch -/

/-- A fetch in the segment that holds the range. -/
def CodeImage.fetchInChecked (bytes : List UInt8) (start len : ℕ) (header : LoadHeader) :
    Except String (Option (List UInt8)) := do
  let inSegment ← subChecked start header.address.toNat
  match checkedAdd inSegment len with
  | none => return none
  | some segmentEnd =>
    if header.fileSize.toNat < segmentEnd then return none
    else
      -- `header.file_offset + in_segment` is the one sum the source does not check
      let fileOff ← addChecked 64 header.fileOffset.toNat inSegment
      match checkedAdd fileOff len with
      | none => return none
      | some fileEnd =>
        if bytes.length < fileEnd then return none
        else return some (← sliceChecked bytes fileOff (← addChecked 64 fileOff len))

/-- The search through the segments, where an addition or a slice that fails is told. -/
def CodeImage.fetchFromChecked (bytes : List UInt8) (start len stop : ℕ) :
    List LoadHeader → Except String (Option (List UInt8))
  | [] => .ok none
  | header :: rest =>
    match checkedAdd header.address.toNat header.memorySize.toNat with
    | none => .ok none
    | some headerEnd =>
      if header.address.toNat ≤ start ∧ stop ≤ headerEnd then
        fetchInChecked bytes start len header
      else fetchFromChecked bytes start len stop rest

/-- A fetch, where an addition or a slice that fails is told. -/
def CodeImage.fetchChecked (image : CodeImage) (startSvma : Addr) (len : UInt64) :
    Except String (Option (List UInt8)) :=
  match checkedAdd startSvma.toNat len.toNat with
  | none => .ok none
  | some stop => fetchFromChecked image.bytes startSvma.toNat len.toNat stop image.loadHeaders

/-! ## The right bytes -/

/-- A segment holds a range of addresses.  Its end is not wrapped. -/
def LoadHeader.Holds (start len : ℕ) (header : LoadHeader) : Prop :=
  header.address.toNat ≤ start ∧ start + len ≤ header.address.toNat + header.memorySize.toNat

instance (start len : ℕ) (header : LoadHeader) : Decidable (header.Holds start len) :=
  inferInstanceAs (Decidable (_ ∧ _))

/-- The end of a segment is an address. -/
def LoadHeader.EndFits (header : LoadHeader) : Prop :=
  header.address.toNat + header.memorySize.toNat < 2 ^ 64

instance (header : LoadHeader) : Decidable header.EndFits := inferInstanceAs (Decidable (_ < _))

/-- Where a range starts in the file, by a segment. -/
def LoadHeader.place (start : ℕ) (header : LoadHeader) : ℕ :=
  header.fileOffset.toNat + (start - header.address.toNat)

/-- A range lies in the part of a segment that the file has. -/
def LoadHeader.InFile (start len : ℕ) (header : LoadHeader) : Prop :=
  start - header.address.toNat + len ≤ header.fileSize.toNat

/-- The bytes of a range, by the first segment that holds it. -/
structure CodeImage.IsCode (image : CodeImage) (start len : ℕ) (code : List UInt8) : Prop where
  holder : ∃ header, image.loadHeaders.find? (fun h => h.Holds start len) = some header ∧
    header.InFile start len ∧ header.place start + len ≤ image.bytes.length ∧
    code = slice image.bytes (header.place start) len

/-- A fetch does not panic, and what it gives are the bytes of the range. -/
def CodeImage.RightOrNothing (image : CodeImage) (startSvma : Addr) (len : UInt64) : Prop :=
  ∃ result, image.fetchChecked startSvma len = .ok result ∧
    ∀ code, result = some code → image.IsCode startSvma.toNat len.toNat code

/-- The segment a fetch stops at. -/
def CodeImage.stopsAt (image : CodeImage) (start len : ℕ) : Option LoadHeader :=
  image.loadHeaders.find? fun h => ¬ h.EndFits ∨ h.Holds start len

/-- Where the segment a fetch stops at holds the range, and has it in the file by its own account,
the range starts at a place of 64 bits. -/
def CodeImage.PlaceFits (image : CodeImage) (start len : ℕ) : Prop :=
  ∀ header ∈ image.stopsAt start len, header.EndFits → header.InFile start len →
    header.place start < 2 ^ 64

/-! ## A fetch, by the segment it stops at -/

section

variable {bytes : List UInt8} {start len : ℕ} {header : LoadHeader}

theorem checkedAdd_of_lt {a b : ℕ} (h : a + b < 2 ^ 64) : checkedAdd a b = some (a + b) := if_pos h

theorem checkedAdd_of_le {a b : ℕ} (h : 2 ^ 64 ≤ a + b) : checkedAdd a b = none :=
  if_neg (Nat.not_lt_of_le h)

/-- The checked search ends at the first segment that holds the range or whose end is no address;
only in the first case is anything fetched. -/
theorem fetchFromChecked_eq (headers : List LoadHeader) :
    CodeImage.fetchFromChecked bytes start len (start + len) headers =
      match headers.find? fun h => ¬ h.EndFits ∨ h.Holds start len with
      | none => .ok none
      | some header =>
        if header.EndFits then CodeImage.fetchInChecked bytes start len header else .ok none := by
  induction headers with
  | nil => rfl
  | cons header rest ih =>
      rw [CodeImage.fetchFromChecked]
      by_cases hfits : header.EndFits
      · rw [checkedAdd_of_lt hfits]
        dsimp only
        by_cases hholds : header.Holds start len
        · rw [List.find?_cons_of_pos (by simp [hholds])]
          exact (if_pos hholds).trans (if_pos hfits).symm
        · rw [List.find?_cons_of_neg (by simp [hfits, hholds])]
          exact (if_neg hholds).trans ih
      · have hover : 2 ^ 64 ≤ header.address.toNat + header.memorySize.toNat := Nat.le_of_not_lt hfits
        rw [checkedAdd_of_le hover, List.find?_cons_of_pos (by simp [hfits])]
        exact (if_neg hfits).symm

/-- A fetch in a segment that holds the range. -/
theorem fetchInChecked_eq (hfits : header.EndFits) (hholds : header.Holds start len) :
    CodeImage.fetchInChecked bytes start len header =
      if header.fileSize.toNat < start - header.address.toNat + len then .ok none
      else if 2 ^ 64 ≤ header.place start then .error "attempt to add with overflow"
      else if 2 ^ 64 ≤ header.place start + len ∨ bytes.length < header.place start + len then
        .ok none
      else .ok (some (slice bytes (header.place start) len)) := by
  obtain ⟨hstart, hend⟩ := hholds
  have hlt : start + len < 2 ^ 64 := Nat.lt_of_le_of_lt hend hfits
  unfold CodeImage.fetchInChecked
  rw [subChecked_of_le hstart, ok_bind]
  dsimp only
  rw [checkedAdd_of_lt (show start - header.address.toNat + len < 2 ^ 64 by omega)]
  dsimp only
  split_ifs with hsize hover hend'
  · rfl
  · rw [addChecked_of_le hover]
    rfl
  all_goals
    have hplace : addChecked 64 header.fileOffset.toNat (start - header.address.toNat) =
        .ok ⟨header.place start, rfl⟩ := addChecked_of_lt (Nat.lt_of_not_le hover)
    rw [hplace, ok_bind]
    dsimp only
  · rcases hend' with hsum | hbehind
    · rw [checkedAdd_of_le hsum]
      rfl
    · by_cases hsum : header.place start + len < 2 ^ 64
      · rw [checkedAdd_of_lt hsum]
        exact if_pos hbehind
      · rw [checkedAdd_of_le (Nat.le_of_not_lt hsum)]
        rfl
  · obtain ⟨hsum, hinside⟩ := not_or.mp hend'
    have hslice : sliceChecked bytes (header.place start) (header.place start + len) =
        .ok (slice bytes (header.place start) len) := by
      rw [sliceChecked_of_le (Nat.le_add_right _ _) (Nat.le_of_not_lt hinside),
        Nat.add_sub_cancel_left]
    rw [checkedAdd_of_lt (Nat.lt_of_not_le hsum)]
    dsimp only
    rw [if_neg hinside, addChecked_of_lt (Nat.lt_of_not_le hsum), ok_bind]
    dsimp only
    rw [hslice, ok_bind]
    rfl

/-- The segment a fetch stops at holds the range, and no earlier one does, if its end fits. -/
theorem stopsAt_spec {image : CodeImage} (h : header ∈ image.stopsAt start len)
    (hfits : header.EndFits) :
    header.Holds start len ∧
      image.loadHeaders.find? (fun h => h.Holds start len) = some header := by
  obtain ⟨hstops, before, after, happend, hbefore⟩ := List.find?_eq_some_iff_append.mp h
  have hholds : header.Holds start len :=
    (of_decide_eq_true hstops).resolve_left (not_not_intro hfits)
  refine ⟨hholds, List.find?_eq_some_iff_append.mpr
    ⟨decide_eq_true hholds, before, after, happend, fun earlier hmem => ?_⟩⟩
  have hpassed := hbefore earlier hmem
  simp only [Bool.not_eq_true', decide_eq_false_iff_not, not_or] at hpassed ⊢
  exact hpassed.2

end

section

variable {image : CodeImage} {startSvma : Addr} {len : UInt64} {header : LoadHeader}

/-- The checked fetch by the segment that ends its search, as for the search itself. -/
theorem fetchChecked_eq (image : CodeImage) (startSvma : Addr) (len : UInt64) :
    image.fetchChecked startSvma len =
      match image.stopsAt startSvma.toNat len.toNat with
      | none => .ok none
      | some header =>
        if header.EndFits then
          CodeImage.fetchInChecked image.bytes startSvma.toNat len.toNat header
        else .ok none := by
  unfold CodeImage.fetchChecked
  by_cases hend : startSvma.toNat + len.toNat < 2 ^ 64
  · rw [checkedAdd_of_lt hend]
    exact fetchFromChecked_eq image.loadHeaders
  -- no segment whose end fits can hold a range whose end does not
  · rw [checkedAdd_of_le (Nat.le_of_not_lt hend)]
    cases hstops : image.stopsAt startSvma.toNat len.toNat with
    | none => rfl
    | some header =>
        refine (if_neg fun hfits => hend ?_).symm
        obtain ⟨-, hheld⟩ := (stopsAt_spec hstops hfits).1
        exact Nat.lt_of_le_of_lt hheld hfits

/-- Nothing is found where the fetch does not stop at a segment whose end fits. -/
theorem fetchChecked_of_not_fits
    (h : ∀ header ∈ image.stopsAt startSvma.toNat len.toNat, ¬ header.EndFits) :
    image.fetchChecked startSvma len = .ok none := by
  rw [fetchChecked_eq]
  cases hstops : image.stopsAt startSvma.toNat len.toNat with
  | none => rfl
  | some header => exact if_neg (h header hstops)

theorem fetchChecked_of_fits (hstops : header ∈ image.stopsAt startSvma.toNat len.toNat)
    (hfits : header.EndFits) :
    image.fetchChecked startSvma len =
      CodeImage.fetchInChecked image.bytes startSvma.toNat len.toNat header := by
  rw [fetchChecked_eq, Option.mem_def.mp hstops]
  exact if_pos hfits

/-! ## The right bytes, exactly if the place fits -/

/-- In the segment the fetch stops at, the bytes are right or the sum overflows. -/
theorem rightOrNothing_of_fits (hstops : header ∈ image.stopsAt startSvma.toNat len.toNat)
    (hfits : header.EndFits) :
    image.RightOrNothing startSvma len ↔
      (header.InFile startSvma.toNat len.toNat → header.place startSvma.toNat < 2 ^ 64) := by
  obtain ⟨hholds, hfirst⟩ := stopsAt_spec hstops hfits
  unfold CodeImage.RightOrNothing LoadHeader.InFile
  rw [fetchChecked_of_fits hstops hfits, fetchInChecked_eq hfits hholds]
  split_ifs with hsize hover hend
  · exact iff_of_true ⟨none, rfl, fun code hcode => by cases hcode⟩
      fun hin => absurd hin (Nat.not_le_of_lt hsize)
  · refine iff_of_false ?_ fun h => Nat.not_lt_of_le hover (h (Nat.le_of_not_lt hsize))
    rintro ⟨result, hresult, -⟩
    cases hresult
  · exact iff_of_true ⟨none, rfl, fun code hcode => by cases hcode⟩
      fun _ => Nat.lt_of_not_le hover
  · refine iff_of_true ⟨_, rfl, ?_⟩ fun _ => Nat.lt_of_not_le hover
    rintro code ⟨⟩
    exact ⟨header, hfirst, Nat.le_of_not_lt hsize, Nat.le_of_not_lt (not_or.mp hend).2, rfl⟩

/-- A fetch neither panics nor gives other bytes than those of the range, exactly if the place of the
range fits where the fetch comes to it. -/
theorem fetch_right_iff (image : CodeImage) (startSvma : Addr) (len : UInt64) :
    image.RightOrNothing startSvma len ↔ image.PlaceFits startSvma.toNat len.toNat := by
  by_cases h : ∃ header ∈ image.stopsAt startSvma.toNat len.toNat, header.EndFits
  · obtain ⟨header, hstops, hfits⟩ := h
    rw [rightOrNothing_of_fits hstops hfits]
    constructor
    · rintro hplace other hother -
      obtain rfl := Option.mem_unique hstops hother
      exact hplace
    · exact fun hplace => hplace header hstops hfits
  · have hnone : ∀ header ∈ image.stopsAt startSvma.toNat len.toNat, ¬ header.EndFits :=
      fun header hstops hfits => h ⟨header, hstops, hfits⟩
    refine iff_of_true ⟨none, fetchChecked_of_not_fits hnone, fun code hcode => by cases hcode⟩ ?_
    exact fun header hstops hfits => absurd hfits (hnone header hstops)

/-- One segment, said to lie at the last byte a file can have. -/
def farImage : CodeImage where
  bytes := [0xc3]
  loadHeaders := [{ address := 0x1000, memorySize := 0x1000, fileSize := 0x1000,
                    fileOffset := 0xffffffffffffffff }]

/-- The second byte of the segment is out of reach: with checked sums the fetch panics, with sums
that wrap it gives the first byte of the file. -/
theorem farImage_panics :
    farImage.fetchChecked 0x1001 1 = .error "attempt to add with overflow" ∧
      farImage.fetch 0x1001 1 = some [0xc3] ∧ ¬ farImage.RightOrNothing 0x1001 1 := by
  have hpanics : farImage.fetchChecked 0x1001 1 = .error "attempt to add with overflow" := by rfl
  refine ⟨hpanics, by rfl, ?_⟩
  rintro ⟨result, hresult, -⟩
  rw [hpanics] at hresult
  cases hresult

/-! ## Sums that wrap -/

/-- What the segment that holds the range gives, where sums wrap. -/
theorem fetchFrom_of_holds {bytes : List UInt8} {start len : ℕ} (hfits : header.EndFits)
    (hholds : header.Holds start len) {rest : List LoadHeader} {result : Option (List UInt8)}
    (h : CodeImage.fetchInChecked bytes start len header = .ok result) :
    CodeImage.fetchFrom bytes start len (start + len) (header :: rest) = result := by
  rw [fetchInChecked_eq hfits hholds] at h
  obtain ⟨hstart, hend⟩ := hholds
  have hlt : start + len < 2 ^ 64 := Nat.lt_of_le_of_lt hend hfits
  have hheld : header.address.toNat ≤ start ∧
      start + len ≤ header.address.toNat + header.memorySize.toNat := ⟨hstart, hend⟩
  rw [CodeImage.fetchFrom, checkedAdd_of_lt hfits, Option.bind_eq_bind, Option.bind_some,
    if_pos hheld]
  dsimp only
  rw [checkedAdd_of_lt (show start - header.address.toNat + len < 2 ^ 64 by omega),
    Option.bind_some]
  split_ifs at h with hsize hover hend'
  · cases h
    exact if_pos hsize
  all_goals
    have hplace : (header.fileOffset + UInt64.ofNat (start - header.address.toNat)).toNat =
        header.place start := by
      rw [UInt64.toNat_add, UInt64.toNat_ofNat_of_lt' (show _ < 2 ^ 64 by omega)]
      exact Nat.mod_eq_of_lt (Nat.lt_of_not_le hover)
    rw [if_neg hsize, hplace]
  · cases h
    by_cases hsum : header.place start + len < 2 ^ 64
    · rw [checkedAdd_of_lt hsum, Option.bind_some]
      exact if_pos (hend'.resolve_left (Nat.not_le_of_lt hsum))
    · rw [checkedAdd_of_le (Nat.le_of_not_lt hsum)]
      rfl
  · cases h
    obtain ⟨hsum, hinside⟩ := not_or.mp hend'
    rw [checkedAdd_of_lt (Nat.lt_of_not_le hsum), Option.bind_some]
    exact if_neg hinside

/-- Where the checked search does not fail the code's gives the same. -/
theorem fetchFrom_of_checked {bytes : List UInt8} {start len : ℕ} {headers : List LoadHeader}
    {result : Option (List UInt8)}
    (h : CodeImage.fetchFromChecked bytes start len (start + len) headers = .ok result) :
    CodeImage.fetchFrom bytes start len (start + len) headers = result := by
  induction headers with
  | nil =>
      cases h
      rfl
  | cons header rest ih =>
      rw [CodeImage.fetchFromChecked] at h
      by_cases hfits : header.EndFits
      · rw [checkedAdd_of_lt hfits] at h
        dsimp only at h
        by_cases hholds : header.Holds start len
        · exact fetchFrom_of_holds hfits hholds ((if_pos hholds).symm.trans h)
        · rw [CodeImage.fetchFrom, checkedAdd_of_lt hfits, Option.bind_eq_bind, Option.bind_some]
          exact (if_neg hholds).trans (ih ((if_neg hholds).symm.trans h))
      · have hover : 2 ^ 64 ≤ header.address.toNat + header.memorySize.toNat :=
          Nat.le_of_not_lt hfits
        rw [checkedAdd_of_le hover] at h
        cases h
        rw [CodeImage.fetchFrom, checkedAdd_of_le hover]
        rfl

/-- Where no sum overflows, the sums that wrap give the same. -/
theorem fetch_of_fetchChecked {result : Option (List UInt8)}
    (h : image.fetchChecked startSvma len = .ok result) :
    image.fetch startSvma len.toNat = result := by
  unfold CodeImage.fetchChecked at h
  unfold CodeImage.fetch
  by_cases hend : startSvma.toNat + len.toNat < 2 ^ 64
  · rw [checkedAdd_of_lt hend] at h ⊢
    exact fetchFrom_of_checked h
  · rw [checkedAdd_of_le (Nat.le_of_not_lt hend)] at h ⊢
    cases h
    rfl

end

end Stax.Binaries
