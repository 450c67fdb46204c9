/-
# Stax.Kperf.JitdumpReject — a jitdump file that was turned down.

A tick that finds no magic number moves past all that is there, and that is all it remembers.  So a
later tick looks for a header again, in what was appended since, and where the appended bytes start
with a magic number it reads the records behind them.  A file that was turned down gives a record
exactly if some appended part is such a header, with a code load behind it that a tick takes.
-/
import Stax.Kperf.JitdumpSafety

namespace Stax.Kperf

open Stax.Lib

/-- The records that ticks return, up to one that panics. -/
def returned (self : JitdumpTailer) : List (List UInt8) → List JitCodeLoad
  | [] => []
  | content :: contents =>
    match self.tick content with
    | .error _ => []
    | .ok (next, out) => out ++ returned next contents

/-- The end of the code in its record is no number of 64 bits. -/
def Overflows (payload : List UInt8) : Prop :=
  ∃ nul ∈ nameLength payload, 2 ^ 64 ≤ 41 + nul + statedSize payload

/-- Some payload has a name, and none overflows. -/
def SomeTaken (payloads : List (List UInt8)) : Prop :=
  (∃ payload ∈ payloads, nameLength payload ≠ none) ∧ ∀ payload ∈ payloads, ¬ Overflows payload

/-! ## Taking payloads -/

/-- Parsing a payload fails just where its sum overflows. -/
theorem exists_parseCodeLoad_iff {payload : List UInt8} (hlength : payload.length < 2 ^ 64) :
    (∃ loaded, parseCodeLoad payload = .ok loaded) ↔ ¬ Overflows payload := by
  unfold Overflows
  rw [parseCodeLoad_eq hlength]
  cases nameLength payload with
  | none => simp
  | some nul =>
      dsimp only
      by_cases hfits : 41 + nul + statedSize payload < 2 ^ 64
      · rw [if_pos hfits]
        refine iff_of_true ⟨_, rfl⟩ ?_
        rintro ⟨_, ⟨⟩, hover⟩
        omega
      · rw [if_neg hfits]
        refine iff_of_false ?_ ?_
        · rintro ⟨loaded, ⟨⟩⟩
        · exact fun hnot => hnot ⟨nul, rfl, Nat.le_of_not_lt hfits⟩

theorem parseCodeLoad_none_iff {payload : List UInt8} (hlength : payload.length < 2 ^ 64) :
    parseCodeLoad payload = .ok none ↔ nameLength payload = none := by
  rw [parseCodeLoad_eq hlength]
  cases nameLength payload with
  | none => simp
  | some nul =>
      dsimp only
      split <;> simp

/-- A tick returns nothing of payloads exactly if it panics or none of them has a name. -/
theorem loadAll_parseCodeLoad {payloads : List (List UInt8)}
    (hlength : ∀ payload ∈ payloads, payload.length < 2 ^ 64) :
    (∃ panic, loadAll parseCodeLoad payloads = .error panic ∧
        ∃ payload ∈ payloads, Overflows payload) ∨
      ∃ records, loadAll parseCodeLoad payloads = .ok records ∧
        (∀ payload ∈ payloads, ¬ Overflows payload) ∧
        (records = [] ↔ ∀ payload ∈ payloads, nameLength payload = none) := by
  cases hload : loadAll parseCodeLoad payloads with
  | error panic =>
      left
      refine ⟨panic, rfl, ?_⟩
      by_contra hnone
      push Not at hnone
      obtain ⟨records, hrecords⟩ := exists_loadAll_iff.mpr fun payload hmem =>
        (exists_parseCodeLoad_iff (hlength payload hmem)).mpr (hnone payload hmem)
      rw [hload] at hrecords
      cases hrecords
  | ok records =>
      right
      have hall := exists_loadAll_iff.mp ⟨records, hload⟩
      have hmem := mem_loadAll_iff hload
      refine ⟨records, rfl, ?_, ?_⟩
      · intro payload hpayload
        exact (exists_parseCodeLoad_iff (hlength payload hpayload)).mp (hall payload hpayload)
      · constructor
        · rintro rfl payload hpayload
          obtain ⟨loaded, hloaded⟩ := hall payload hpayload
          cases loaded with
          | none => exact (parseCodeLoad_none_iff (hlength payload hpayload)).mp hloaded
          | some r => cases (hmem r).mpr ⟨payload, hpayload, hloaded⟩
        · intro hnone
          rw [List.eq_nil_iff_forall_not_mem]
          intro r hr
          obtain ⟨payload, hpayload, hloaded⟩ := (hmem r).mp hr
          rw [(parseCodeLoad_none_iff (hlength payload hpayload)).mpr (hnone payload hpayload)]
            at hloaded
          cases hloaded

/-! ## Runs -/

section Reject

variable {file : DumpFile}

theorem length_lt_of_mem_codeLoads {n place : ℕ} {payload : List UInt8}
    (h : payload ∈ codeLoads (file.bytes.take n) place) : payload.length < 2 ^ 64 := by
  have hle := length_le_of_mem_codeLoads h
  have hlt := length_take_lt file n
  omega

/-- A tick that takes the records from a place on, and those after it, return nothing. -/
theorem returned_take_iff {self : JitdumpTailer} {n place : ℕ} {lengths : List ℕ}
    (htick : tickWith parseCodeLoad self (file.bytes.take n) =
      takeRecords parseCodeLoad (file.bytes.take n) place)
    (hgrow : ∀ m ∈ lengths, n ≤ m)
    (hlater : returned { offset := recordsEnd (file.bytes.take n) place, headerParsed := true }
        (lengths.map fun n => file.bytes.take n) = [] ↔
      ∀ m ∈ lengths, ¬ SomeTaken (codeLoads (file.bytes.take m)
        (recordsEnd (file.bytes.take n) place))) :
    returned self ((n :: lengths).map fun n => file.bytes.take n) = [] ↔
      ∀ m ∈ n :: lengths, ¬ SomeTaken (codeLoads (file.bytes.take m) place) := by
  have hsplit : ∀ m ∈ lengths, codeLoads (file.bytes.take m) place =
      codeLoads (file.bytes.take n) place ++
        codeLoads (file.bytes.take m) (recordsEnd (file.bytes.take n) place) :=
    fun m hm => codeLoads_take file.bytes (hgrow m hm) place
  rw [List.map_cons, returned, tick_eq, htick, List.forall_mem_cons]
  have hlength : ∀ payload ∈ codeLoads (file.bytes.take n) place, payload.length < 2 ^ 64 :=
    fun payload hmem => length_lt_of_mem_codeLoads hmem
  rcases loadAll_parseCodeLoad hlength with
    ⟨panic, hload, payload, hmem, hover⟩ | ⟨records, hload, hfits, hnil⟩
  · -- the tick panics, and what it panicked at is in every later prefix
    have htaken : takeRecords parseCodeLoad (file.bytes.take n) place = .error panic := by
      rw [takeRecords, hload]
      rfl
    rw [htaken]
    refine iff_of_true rfl ⟨fun h => h.2 payload hmem hover, ?_⟩
    intro m hm htakes
    refine htakes.2 payload ?_ hover
    rw [hsplit m hm]
    exact List.mem_append_left _ hmem
  · rw [takeRecords_eq_ok.mpr ⟨rfl, hload⟩]
    dsimp only
    rw [List.append_eq_nil_iff, hnil, hlater]
    have hhere : (¬ SomeTaken (codeLoads (file.bytes.take n) place)) ↔
        ∀ payload ∈ codeLoads (file.bytes.take n) place, nameLength payload = none := by
      unfold SomeTaken
      constructor
      · intro hnot payload hmem
        by_contra hname
        exact hnot ⟨⟨payload, hmem, hname⟩, hfits⟩
      · rintro hnone ⟨⟨payload, hmem, hname⟩, -⟩
        exact hname (hnone payload hmem)
    rw [hhere]
    apply and_congr_right
    intro hnone
    apply forall₂_congr
    intro m hm
    -- without names here, what is taken later is what is taken of the rest
    unfold SomeTaken
    rw [hsplit m hm, not_iff_not]
    constructor
    · rintro ⟨⟨payload, hmem, hname⟩, hrest⟩
      refine ⟨⟨payload, List.mem_append_right _ hmem, hname⟩, ?_⟩
      rw [List.forall_mem_append]
      exact ⟨hfits, hrest⟩
    · rintro ⟨⟨payload, hmem, hname⟩, hall⟩
      rw [List.forall_mem_append] at hall
      rw [List.mem_append] at hmem
      rcases hmem with hmem | hmem
      · exact absurd (hnone payload hmem) hname
      · exact ⟨⟨payload, hmem, hname⟩, hall.2⟩

theorem returned_parsed_iff {lengths : List ℕ} (hgrow : lengths.Pairwise (· ≤ ·)) (offset : ℕ) :
    returned { offset, headerParsed := true } (lengths.map fun n => file.bytes.take n) = [] ↔
      ∀ n ∈ lengths, ¬ SomeTaken (codeLoads (file.bytes.take n) offset) := by
  induction lengths generalizing offset with
  | nil => simp [returned]
  | cons n lengths ih =>
      rw [List.pairwise_cons] at hgrow
      exact returned_take_iff (tickWith_parsed _ offset _) hgrow.1 (ih hgrow.2 _)

/-- Nothing is ever returned just when no header comes, or no record behind the header is taken at
any later look. -/
theorem returned_iff {lengths : List ℕ} (hgrow : lengths.Pairwise (· ≤ ·)) (offset : ℕ) :
    returned { offset, headerParsed := false } (lengths.map fun n => file.bytes.take n) = [] ↔
      ∀ place later, headerPlace file.bytes offset lengths = some (place, later) →
        ∀ n ∈ later, ¬ SomeTaken (codeLoads (file.bytes.take n) (place + 40)) := by
  induction lengths generalizing offset with
  | nil => simp [returned, headerPlace]
  | cons n lengths ih =>
      rw [List.pairwise_cons] at hgrow
      have htick := tickWith_unparsed parseCodeLoad offset (file.bytes.take n)
      rw [headerPlace]
      by_cases hshort : (file.bytes.take n).length < offset + 40
      · rw [if_pos hshort] at htick ⊢
        rw [← ih hgrow.2, List.map_cons, returned, tick_eq, htick]
        rfl
      rw [if_neg hshort] at htick ⊢
      by_cases hmagic : MagicAt (file.bytes.take n) offset
      · rw [if_pos hmagic] at htick ⊢
        rw [returned_take_iff htick hgrow.1 (returned_parsed_iff hgrow.2 _)]
        constructor
        · rintro h _ _ ⟨⟩
          exact h
        · intro h
          exact h offset (n :: lengths) rfl
      · rw [if_neg hmagic] at htick ⊢
        rw [← ih hgrow.2, List.map_cons, returned, tick_eq, htick]
        rfl

/-- A header is taken where the tailer stood, or at the end of a prefix it turned down. -/
theorem headerPlace_eq_some {lengths : List ℕ} {offset place : ℕ} {later : List ℕ}
    (h : headerPlace file.bytes offset lengths = some (place, later)) :
    MagicAt file.bytes place ∧
      (place = offset ∨ ∃ n ∈ lengths, place = (file.bytes.take n).length ∧ 40 ≤ place) := by
  induction lengths generalizing offset with
  | nil => cases h
  | cons n lengths ih =>
      rw [headerPlace] at h
      split at h
      · obtain ⟨hmagic, hplace⟩ := ih h
        refine ⟨hmagic, hplace.imp_right ?_⟩
        rintro ⟨m, hm, hend⟩
        exact ⟨m, List.mem_cons_of_mem n hm, hend⟩
      · rename_i hlong
        rw [List.length_take] at hlong
        split at h
        · rename_i hmagic
          cases h
          unfold MagicAt at hmagic ⊢
          rw [slice_take (by omega)] at hmagic
          exact ⟨hmagic, Or.inl rfl⟩
        · obtain ⟨hmagic, hplace⟩ := ih h
          refine ⟨hmagic, Or.inr ?_⟩
          rcases hplace with rfl | ⟨m, hm, hend⟩
          · refine ⟨n, List.mem_cons_self, rfl, ?_⟩
            rw [List.length_take]
            omega
          · exact ⟨m, List.mem_cons_of_mem n hm, hend⟩

end Reject

/-- A file that starts with no magic number gives no record, however it grows, exactly if no part
appended where it was turned down is a header with a code load behind it that a tick takes. -/
theorem rejected_stays_rejected_iff (file : DumpFile) (hmagic : ¬ MagicAt file.bytes 0)
    (lengths : List ℕ) (hgrow : lengths.Pairwise (· ≤ ·)) :
    returned {} (lengths.map fun n => file.bytes.take n) = [] ↔
      ∀ n ∈ lengths, ∀ later, 40 ≤ (file.bytes.take n).length →
        headerPlace file.bytes 0 lengths = some ((file.bytes.take n).length, later) →
        ∀ m ∈ later, ¬ SomeTaken
          (codeLoads (file.bytes.take m) ((file.bytes.take n).length + 40)) := by
  rw [returned_iff hgrow 0]
  constructor
  · intro h n _ later _ hplace
    exact h _ later hplace
  · intro h place later hplace
    obtain ⟨hthere, hstart | ⟨n, hn, hend, hlong⟩⟩ := headerPlace_eq_some hplace
    · rw [hstart] at hthere
      exact absurd hthere hmagic
    · rw [hend] at hplace hlong ⊢
      exact h n hn later hlong hplace

/-- Forty bytes of nothing, then a file. -/
def latecomerFile : DumpFile where
  bytes := List.replicate 40 0 ++ jitdumpFile smallHeader smallRecords
  length_lt := by decide +kernel

theorem latecomerFile_returns :
    ¬ MagicAt latecomerFile.bytes 0 ∧
      returned {} ([40, 156].map fun n => latecomerFile.bytes.take n) ≠ [] := by
  refine ⟨by decide +kernel, ?_⟩
  have hplace : headerPlace latecomerFile.bytes 0 [40, 156] = some (40, [156]) := by
    decide +kernel
  have hfirst : recordAt (latecomerFile.bytes.take 156) 80 = some 60 := by decide +kernel
  have hsecond : recordAt (latecomerFile.bytes.take 156) 140 = some 16 := by decide +kernel
  have hend : recordAt (latecomerFile.bytes.take 156) 156 = none := by decide +kernel
  rw [Ne, returned_iff (by decide) 0]
  intro hnone
  apply hnone 40 [156] hplace 156 (List.mem_singleton_self 156)
  rw [codeLoads_of_some hfirst, codeLoads_of_some hsecond, codeLoads_of_none hend]
  unfold SomeTaken Overflows
  decide +kernel

/-- The same file, where it is not looked at before the second header is there, is turned down. -/
theorem rejected_latecomerFile :
    returned {} ([0, 156, 156].map fun n => latecomerFile.bytes.take n) = [] := by
  refine (rejected_stays_rejected_iff latecomerFile (by decide +kernel) [0, 156, 156]
    (by decide)).mpr ?_
  have hplace : headerPlace latecomerFile.bytes 0 [0, 156, 156] = none := by decide +kernel
  rw [hplace]
  rintro n _ later _ ⟨⟩

end Stax.Kperf
