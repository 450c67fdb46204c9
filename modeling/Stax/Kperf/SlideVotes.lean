/-
# Stax.Kperf.SlideVotes — what the votes for a slide count.

An observed address is explained by a slide and a segment where the slide is aligned and takes the
address back into the segment.  The estimator counts the explanations of each slide, except those by
a segment that has too many for the address.  Here it is with its table and its arithmetic: no sum
and no difference leaves its width, and what is counted is what the estimator over natural numbers
counts.  Where the segments are disjoint no slide is voted for more often than addresses are
observed, and a slide that explains all of them is voted for by each.
-/
import Stax.Lib.Checked
import Stax.Kperf.KernelSymbols

namespace Stax.Kperf

open Stax.Lib

/-! ## The estimator with its table -/

/-- How often a slide was voted for. -/
abbrev VoteTable := AList (fun _ : ℕ => ℕ)

/-- The estimator with its table of votes and with counts that may not overflow. -/
structure CheckedEstimator where
  execSegments : List (UInt64 × UInt64)
  votes : VoteTable := ∅
  observed : ℕ := 0

/-- The `while` loop over the slides of a segment. -/
def voteLoop (hi s : ℕ) (votes : VoteTable) : Except String VoteTable :=
  if s ≤ hi then do
    let count ← addChecked 32 ((votes.lookup s).getD 0) 1
    let next ← addChecked 64 s slideAlignment
    voteLoop hi next.val (votes.insert s count)
  else .ok votes
termination_by hi + 1 - s
decreasing_by
  have halign : 0 < slideAlignment := by decide
  have _hnext := next.property
  omega

/-- The smallest slide that takes the address below the segment's end. -/
def slideMin (avma segHi : UInt64) : Except String ℕ :=
  if avma ≥ segHi then do
    let past ← subChecked avma.toNat segHi.toNat
    let first ← addChecked 64 past 1
    return first.val
  else .ok 0

/-- The votes of one segment. -/
def observeSegment (avma : UInt64) (votes : VoteTable) (seg : UInt64 × UInt64) :
    Except String VoteTable :=
  let (segLo, segHi) := seg
  if avma < segLo then .ok votes
  else do
    let slideMax ← subChecked avma.toNat segLo.toNat
    let slideMin ← slideMin avma segHi
    let raised ← addChecked 64 slideMin (slideAlignment - 1)
    let lo := alignDown raised
    let hi := alignDown slideMax
    let n := (hi - lo) / slideAlignment
    if n > maxPerObs then .ok votes else voteLoop hi lo votes

namespace CheckedEstimator

/-- One address: it counts as seen, and each segment votes for the slides that would explain it. -/
def observe (self : CheckedEstimator) (avma : UInt64) : Except String CheckedEstimator := do
  let observed ← addChecked 32 self.observed 1
  let votes ← self.execSegments.foldlM (observeSegment avma) self.votes
  return { self with observed, votes }

/-- Addresses one after the other, until a sum overflows. -/
def observeAll (self : CheckedEstimator) (avmas : List UInt64) : Except String CheckedEstimator :=
  avmas.foldlM observe self

end CheckedEstimator

/-- The entry with the most votes; of several the last. -/
def maxByVotes : List (Σ _ : ℕ, ℕ) → Option (Σ _ : ℕ, ℕ) :=
  List.foldl
    (fun best entry =>
      match best with
      | some b => if b.2 ≤ entry.2 then some entry else some b
      | none => some entry)
    none

/-- `finalize`, where the table gives its entries in some order.  The support is a quotient of two
numbers below 2^32. -/
def finalize (observed : ℕ) (entries : List (Σ _ : ℕ, ℕ)) : Option (ℕ × ℚ) :=
  (maxByVotes entries).map fun entry => (entry.1, entry.2 / max observed 1)

/-! ## What is counted -/

/-- The slide takes the address back into the segment. -/
def Explains (avma : ℕ) (seg : ℕ × ℕ) (s : ℕ) : Prop :=
  slideAlignment ∣ s ∧ s ≤ avma ∧ seg.1 ≤ avma - s ∧ avma - s < seg.2

/-- The segment has few enough slides for the address. -/
def FewCandidates (avma : ℕ) (seg : ℕ × ℕ) : Prop := {s | Explains avma seg s}.ncard ≤ 4097

open Classical in
/-- The pairs of an observation and a segment that explain it. -/
noncomputable def explanations (segs : List (ℕ × ℕ)) (avmas : List ℕ) (s : ℕ) : ℕ :=
  (avmas.map fun avma =>
    segs.countP fun seg => decide (Explains avma seg s ∧ FewCandidates avma seg)).sum

/-! ## The slides of a segment -/

section Slides

variable {avma : ℕ} {seg : ℕ × ℕ}

/-- The first slide of a segment, in pages. -/
def firstPage (avma : ℕ) (seg : ℕ × ℕ) : ℕ :=
  ((if avma ≥ seg.2 then avma - seg.2 + 1 else 0) + (slideAlignment - 1)) / slideAlignment

/-- The last one. -/
def lastPage (avma : ℕ) (seg : ℕ × ℕ) : ℕ := (avma - seg.1) / slideAlignment

theorem explains_iff (hseg : seg.1 < seg.2) (hle : seg.1 ≤ avma) (s : ℕ) :
    Explains avma seg s ↔
      ∃ page, firstPage avma seg ≤ page ∧ page ≤ lastPage avma seg ∧ s = page * slideAlignment := by
  unfold Explains firstPage lastPage slideAlignment
  constructor
  · rintro ⟨⟨page, rfl⟩, hs, hlo, hhi⟩
    refine ⟨page, ?_, ?_, Nat.mul_comm _ _⟩
    · split <;> omega
    · omega
  · rintro ⟨page, hfirst, hlast, rfl⟩
    refine ⟨Nat.dvd_mul_left _ _, ?_⟩
    split at hfirst <;> omega

theorem not_explains_of_lt (h : avma < seg.1) (s : ℕ) : ¬ Explains avma seg s := by
  rintro ⟨-, -, hlo, -⟩
  omega

/-- How many slides a segment has. -/
theorem ncard_explains (hseg : seg.1 < seg.2) (hle : seg.1 ≤ avma) :
    {s | Explains avma seg s}.ncard = lastPage avma seg + 1 - firstPage avma seg := by
  have himage : {s | Explains avma seg s} =
      (fun page => page * slideAlignment) ''
        (Finset.Icc (firstPage avma seg) (lastPage avma seg) : Finset ℕ) := by
    ext s
    rw [Set.mem_ofPred_eq, explains_iff hseg hle]
    simp only [Set.mem_image, Finset.coe_Icc, Set.mem_Icc]
    constructor
    · rintro ⟨page, hfirst, hlast, rfl⟩
      exact ⟨page, ⟨hfirst, hlast⟩, rfl⟩
    · rintro ⟨page, ⟨hfirst, hlast⟩, rfl⟩
      exact ⟨page, hfirst, hlast, rfl⟩
  have hinjective : Function.Injective fun page => page * slideAlignment :=
    fun page page' h => Nat.eq_of_mul_eq_mul_right (by decide) h
  rw [himage, Set.ncard_image_of_injective _ hinjective, Set.ncard_coe_finset, Nat.card_Icc]

/-- The slides that are voted for, in pages. -/
theorem slideCandidates_eq (hle : seg.1 ≤ avma) :
    slideCandidates avma seg =
      if lastPage avma seg + 1 - firstPage avma seg ≤ 4097 then
        (List.range' (firstPage avma seg) (lastPage avma seg + 1 - firstPage avma seg)).map
          (· * slideAlignment)
      else [] := by
  have hpages : slideCandidates avma seg =
      if (lastPage avma seg * slideAlignment - firstPage avma seg * slideAlignment) /
          slideAlignment > maxPerObs then []
      else if firstPage avma seg * slideAlignment ≤ lastPage avma seg * slideAlignment then
        (List.range ((lastPage avma seg * slideAlignment - firstPage avma seg * slideAlignment) /
          slideAlignment + 1)).map fun i => firstPage avma seg * slideAlignment + i * slideAlignment
      else [] := if_neg (Nat.not_lt_of_le hle)
  have hpositive : 0 < slideAlignment := by decide
  rw [hpages, ← Nat.sub_mul, Nat.mul_div_cancel _ hpositive]
  unfold maxPerObs
  by_cases hsome : firstPage avma seg ≤ lastPage avma seg
  · by_cases hfew : lastPage avma seg + 1 - firstPage avma seg ≤ 4097
    · rw [if_neg (by omega), if_pos (Nat.mul_le_mul_right _ hsome), if_pos hfew,
        List.range'_eq_map_range, List.map_map, Nat.sub_add_comm hsome]
      apply List.map_congr_left
      intro i _
      exact (Nat.add_mul _ _ _).symm
    · rw [if_pos (by omega), if_neg hfew]
  · have hempty : lastPage avma seg + 1 - firstPage avma seg = 0 := by omega
    have hnot : ¬ firstPage avma seg * slideAlignment ≤ lastPage avma seg * slideAlignment :=
      fun hle => hsome (Nat.le_of_mul_le_mul_right hle hpositive)
    rw [if_neg (by omega), if_neg hnot, hempty, if_pos (by decide)]
    rfl

/-- A segment votes for the slides that explain the address, each once. -/
theorem mem_slideCandidates (hseg : seg.1 < seg.2) (s : ℕ) :
    s ∈ slideCandidates avma seg ↔ Explains avma seg s ∧ FewCandidates avma seg := by
  by_cases hle : seg.1 ≤ avma
  · unfold FewCandidates
    rw [slideCandidates_eq hle, ncard_explains hseg hle, explains_iff hseg hle]
    split
    · rename_i hfew
      rw [List.mem_map]
      constructor
      · rintro ⟨page, hpage, rfl⟩
        rw [List.mem_range'_1] at hpage
        exact ⟨⟨page, hpage.1, by omega, rfl⟩, hfew⟩
      · rintro ⟨⟨page, hfirst, hlast, rfl⟩, -⟩
        refine ⟨page, ?_, rfl⟩
        rw [List.mem_range'_1]
        omega
    · rename_i hmany
      simp [hmany]
  · have hnone : slideCandidates avma seg = [] := if_pos (Nat.lt_of_not_le hle)
    rw [hnone]
    refine iff_of_false List.not_mem_nil ?_
    rintro ⟨hexplains, -⟩
    exact not_explains_of_lt (Nat.lt_of_not_le hle) s hexplains

theorem nodup_slideCandidates (avma : ℕ) (seg : ℕ × ℕ) : (slideCandidates avma seg).Nodup := by
  by_cases hle : seg.1 ≤ avma
  · rw [slideCandidates_eq hle]
    split
    · refine List.Nodup.map ?_ List.nodup_range'
      exact fun page page' h => Nat.eq_of_mul_eq_mul_right (by decide) h
    · exact List.nodup_nil
  · have hnone : slideCandidates avma seg = [] := if_pos (Nat.lt_of_not_le hle)
    rw [hnone]
    exact List.nodup_nil

end Slides

/-! ## The table counts them -/

/-- The votes of a slide. -/
def VoteTable.count (votes : VoteTable) (s : ℕ) : ℕ := (votes.lookup s).getD 0

/-- The segment with bounds that cannot overflow. -/
def toSegment (seg : UInt64 × UInt64) : ℕ × ℕ := (seg.1.toNat, seg.2.toNat)

theorem VoteTable.count_insert (votes : VoteTable) (s n k : ℕ) :
    VoteTable.count (votes.insert s n) k = if k = s then n else VoteTable.count votes k := by
  unfold VoteTable.count
  split
  · rename_i h
    rw [h, AList.lookup_insert, Option.getD_some]
  · rename_i h
    rw [AList.lookup_insert_ne h]

/-- One turn of the loop. -/
theorem voteLoop_of_le {hi s : ℕ} {votes : VoteTable} (hle : s ≤ hi)
    (hnext : s + slideAlignment < 2 ^ 64) (hcount : VoteTable.count votes s + 1 < 2 ^ 32) :
    voteLoop hi s votes =
      voteLoop hi (s + slideAlignment) (votes.insert s (VoteTable.count votes s + 1)) := by
  have hadd : addChecked 32 ((votes.lookup s).getD 0) 1 = .ok ⟨_, rfl⟩ := addChecked_of_lt hcount
  rw [voteLoop, if_pos hle, hadd, addChecked_of_lt hnext, ok_bind, ok_bind]
  rfl

/-- The loop votes once for each slide from the first page to the last. -/
theorem voteLoop_spec {n first last : ℕ} (hn : last + 1 - first = n)
    (hlast : last * slideAlignment + slideAlignment < 2 ^ 64) (votes : VoteTable)
    (hcount : ∀ page, first ≤ page → VoteTable.count votes (page * slideAlignment) + 1 < 2 ^ 32) :
    ∃ votes', voteLoop (last * slideAlignment) (first * slideAlignment) votes = .ok votes' ∧
      ∀ k, VoteTable.count votes' k = VoteTable.count votes k +
        ((List.range' first n).map (· * slideAlignment)).count k := by
  have hpositive : 0 < slideAlignment := by decide
  induction n generalizing first votes with
  | zero =>
      have hnot : ¬ first * slideAlignment ≤ last * slideAlignment := by
        rw [Nat.mul_le_mul_right_iff hpositive]
        omega
      refine ⟨votes, ?_, ?_⟩
      · rw [voteLoop, if_neg hnot]
      · intro k
        rw [List.range'_zero, List.map_nil, List.count_nil, Nat.add_zero]
  | succ n ih =>
      have hle : first * slideAlignment ≤ last * slideAlignment :=
        Nat.mul_le_mul_right _ (by omega)
      have hnext : (first + 1) * slideAlignment = first * slideAlignment + slideAlignment := by
        rw [Nat.add_mul, Nat.one_mul]
      -- the vote for this page leaves the counts of the pages after it alone
      have hlater : ∀ page, first + 1 ≤ page →
          VoteTable.count (votes.insert (first * slideAlignment)
            (VoteTable.count votes (first * slideAlignment) + 1)) (page * slideAlignment) + 1 <
            2 ^ 32 := by
        intro page hpage
        have hne : page * slideAlignment ≠ first * slideAlignment := by
          rw [Ne, Nat.mul_left_inj (Nat.pos_iff_ne_zero.mp hpositive)]
          omega
        rw [VoteTable.count_insert, if_neg hne]
        exact hcount page (by omega)
      obtain ⟨votes', hloop, hvotes'⟩ := ih (by omega) _ hlater
      refine ⟨votes', ?_, ?_⟩
      · rw [voteLoop_of_le hle (by omega) (hcount first (Nat.le_refl first)), ← hnext, hloop]
      · intro k
        rw [hvotes' k, VoteTable.count_insert, List.range'_succ, List.map_cons, List.count_cons]
        -- the vote just cast is the one for the first page
        by_cases hk : k = first * slideAlignment
        · rw [if_pos hk, hk, if_pos (beq_self_eq_true _)]
          omega
        · have hne : (first * slideAlignment == k) = false := beq_eq_false_iff_ne.mpr (Ne.symm hk)
          rw [if_neg hk, hne, if_neg Bool.false_ne_true]
          omega

theorem slideMin_eq (avma : UInt64) {segHi : UInt64} (hpos : 0 < segHi.toNat) :
    slideMin avma segHi =
      .ok (if avma.toNat ≥ segHi.toNat then avma.toNat - segHi.toNat + 1 else 0) := by
  have havma := avma.toNat_lt
  unfold slideMin
  by_cases hpast : avma ≥ segHi
  · have hge : segHi.toNat ≤ avma.toNat := UInt64.le_iff_toNat_le.mp hpast
    have hfirst : avma.toNat - segHi.toNat + 1 < 2 ^ 64 := by omega
    rw [if_pos hpast, if_pos hge, subChecked_of_le hge, ok_bind, addChecked_of_lt hfirst, ok_bind]
    rfl
  · have hlt : ¬ avma.toNat ≥ segHi.toNat := fun h => hpast (UInt64.le_iff_toNat_le.mpr h)
    rw [if_neg hpast, if_neg hlt]

/-- A segment votes as over the natural numbers, and nothing overflows. -/
theorem observeSegment_spec (avma : UInt64) {seg : UInt64 × UInt64}
    (hlo : slideAlignment ≤ seg.1.toNat) (hseg : seg.1.toNat < seg.2.toNat) (votes : VoteTable)
    (hcount : ∀ k, VoteTable.count votes k + 1 < 2 ^ 32) :
    ∃ votes', observeSegment avma votes seg = .ok votes' ∧ ∀ k, VoteTable.count votes' k =
      VoteTable.count votes k + (slideCandidates avma.toNat (toSegment seg)).count k := by
  have havma := avma.toNat_lt
  have halign : slideAlignment = 16384 := rfl
  unfold observeSegment
  dsimp only
  by_cases hbelow : avma < seg.1
  · have hnone : slideCandidates avma.toNat (toSegment seg) = [] :=
      if_pos (UInt64.lt_iff_toNat_lt.mp hbelow)
    rw [if_pos hbelow, hnone]
    exact ⟨votes, rfl, fun k => rfl⟩
  have hle : seg.1.toNat ≤ avma.toNat :=
    Nat.le_of_not_lt fun h => hbelow (UInt64.lt_iff_toNat_lt.mpr h)
  have hmin := slideMin_eq avma (Nat.lt_of_le_of_lt (Nat.zero_le _) hseg)
  have hraised : (if avma.toNat ≥ seg.2.toNat then avma.toNat - seg.2.toNat + 1 else 0) +
      (slideAlignment - 1) < 2 ^ 64 := by
    split <;> omega
  have hfirst : alignDown ((if avma.toNat ≥ seg.2.toNat then avma.toNat - seg.2.toNat + 1 else 0) +
      (slideAlignment - 1)) = firstPage avma.toNat (toSegment seg) * slideAlignment := rfl
  have hlast : alignDown (avma.toNat - seg.1.toNat) =
      lastPage avma.toNat (toSegment seg) * slideAlignment := rfl
  have hpages : lastPage avma.toNat (toSegment seg) * slideAlignment ≤
      avma.toNat - seg.1.toNat := Nat.div_mul_le_self _ _
  rw [if_neg hbelow, subChecked_of_le hle, ok_bind, hmin, ok_bind, addChecked_of_lt hraised, ok_bind,
    hfirst, hlast, slideCandidates_eq (show (toSegment seg).1 ≤ avma.toNat from hle)]
  rw [← Nat.sub_mul, Nat.mul_div_cancel _ (by decide)]
  unfold maxPerObs
  by_cases hfew : lastPage avma.toNat (toSegment seg) + 1 - firstPage avma.toNat (toSegment seg) ≤
      4097
  · rw [if_pos hfew, if_neg (by omega)]
    exact voteLoop_spec rfl (by omega) votes fun page _ => hcount _
  · rw [if_neg hfew, if_pos (by omega)]
    exact ⟨votes, rfl, fun k => rfl⟩

/-! ## All observations -/

/-- Segments as an image has them, above the first page. -/
structure ValidSegments (segs : List (UInt64 × UInt64)) : Prop where
  lo : ∀ seg ∈ segs, slideAlignment ≤ seg.1.toNat
  nonempty : ∀ seg ∈ segs, seg.1.toNat < seg.2.toNat

open Classical in
/-- The segments that explain one observation. -/
noncomputable def explaining (segs : List (ℕ × ℕ)) (avma s : ℕ) : ℕ :=
  segs.countP fun seg => decide (Explains avma seg s ∧ FewCandidates avma seg)

theorem explanations_cons (segs : List (ℕ × ℕ)) (avma : ℕ) (avmas : List ℕ) (s : ℕ) :
    explanations segs (avma :: avmas) s = explaining segs avma s + explanations segs avmas s := rfl

/-- A slide is voted for once by each segment that explains the address with it. -/
theorem count_flatMap_slideCandidates {segs : List (ℕ × ℕ)} (h : ∀ seg ∈ segs, seg.1 < seg.2)
    (avma s : ℕ) : (segs.flatMap (slideCandidates avma)).count s = explaining segs avma s := by
  classical
  induction segs with
  | nil => rfl
  | cons seg segs ih =>
      rw [List.forall_mem_cons] at h
      have hhere : (slideCandidates avma seg).count s =
          if Explains avma seg s ∧ FewCandidates avma seg then 1 else 0 := by
        rw [(nodup_slideCandidates avma seg).count]
        exact if_congr (mem_slideCandidates h.1 s) rfl rfl
      unfold explaining at ih ⊢
      rw [List.flatMap_cons, List.count_append, ih h.2, hhere, List.countP_cons, Nat.add_comm]
      simp only [decide_eq_true_eq]

theorem explaining_le (segs : List (ℕ × ℕ)) (avma s : ℕ) :
    explaining segs avma s ≤ segs.length := List.countP_le_length

/-- One address against all segments: every slide gets a vote for each segment it explains the
address by. -/
theorem foldlM_observeSegment (avma : UInt64) {segs : List (UInt64 × UInt64)}
    (hsegs : ValidSegments segs) (votes : VoteTable)
    (hcount : ∀ k, VoteTable.count votes k + segs.length < 2 ^ 32) :
    ∃ votes', segs.foldlM (observeSegment avma) votes = .ok votes' ∧ ∀ k, VoteTable.count votes' k =
      VoteTable.count votes k + explaining (segs.map toSegment) avma.toNat k := by
  induction segs generalizing votes with
  | nil => exact ⟨votes, rfl, fun k => rfl⟩
  | cons seg segs ih =>
      obtain ⟨hlo, hnonempty⟩ := hsegs
      rw [List.forall_mem_cons] at hlo hnonempty
      rw [List.length_cons] at hcount
      obtain ⟨next, hnext, hvotes⟩ := observeSegment_spec avma hlo.1 hnonempty.1 votes
        fun k => by have hk := hcount k; omega
      have hone : ∀ k, (slideCandidates avma.toNat (toSegment seg)).count k ≤ 1 :=
        fun k => List.nodup_iff_count_le_one.mp (nodup_slideCandidates _ _) k
      obtain ⟨votes', hrest, hvotes'⟩ := ih ⟨hlo.2, hnonempty.2⟩ next fun k => by
        have hk := hcount k
        have hle := hone k
        rw [hvotes k]
        omega
      refine ⟨votes', ?_, ?_⟩
      · rw [List.foldlM_cons, hnext, ok_bind, hrest]
      · intro k
        have hsegment : ∀ seg' ∈ (seg :: segs).map toSegment, seg'.1 < seg'.2 := by
          rw [List.forall_mem_map, List.forall_mem_cons]
          exact hnonempty
        have htail : ∀ seg' ∈ segs.map toSegment, seg'.1 < seg'.2 := by
          rw [List.forall_mem_map]
          exact hnonempty.2
        rw [hvotes' k, hvotes k, ← count_flatMap_slideCandidates hsegment,
          ← count_flatMap_slideCandidates htail, List.map_cons, List.flatMap_cons,
          List.count_append, Nat.add_assoc]

/-- What is counted after observations, and that nothing overflows. -/
theorem observeAll_spec (avmas : List UInt64) (self : CheckedEstimator)
    (hsegs : ValidSegments self.execSegments)
    (hcount : ∀ k, VoteTable.count self.votes k + avmas.length * self.execSegments.length < 2 ^ 32)
    (hobserved : self.observed + avmas.length < 2 ^ 32) :
    ∃ est, self.observeAll avmas = .ok est ∧ est.observed = self.observed + avmas.length ∧
      ∀ k, VoteTable.count est.votes k = VoteTable.count self.votes k +
        explanations (self.execSegments.map toSegment) (avmas.map UInt64.toNat) k := by
  induction avmas generalizing self with
  | nil => exact ⟨self, rfl, rfl, fun k => rfl⟩
  | cons avma avmas ih =>
      rw [List.length_cons] at hobserved
      -- an address adds one vote for each segment at most, so there is room for the rest
      have hcount' : ∀ k, VoteTable.count self.votes k +
          (avmas.length * self.execSegments.length + self.execSegments.length) < 2 ^ 32 := by
        intro k
        have hk := hcount k
        rw [List.length_cons, Nat.succ_mul] at hk
        exact hk
      obtain ⟨votes, hvotes, hcounted⟩ := foldlM_observeSegment avma hsegs self.votes
        fun k => by have hk := hcount' k; omega
      have hle : ∀ k, explaining (self.execSegments.map toSegment) avma.toNat k ≤
          self.execSegments.length := by
        intro k
        have hlength := explaining_le (self.execSegments.map toSegment) avma.toNat k
        rwa [List.length_map] at hlength
      -- the first address is observed without an overflow
      have hobserve : self.observe avma =
          .ok { self with observed := self.observed + 1, votes } := by
        unfold CheckedEstimator.observe
        rw [addChecked_of_lt (by omega), ok_bind, hvotes, ok_bind]
        rfl
      obtain ⟨est, hest, hobs, hlater⟩ :=
        ih { self with observed := self.observed + 1, votes } hsegs
          (fun k => by
            have hk := hcount' k
            have hle := hle k
            show VoteTable.count votes k + avmas.length * self.execSegments.length < 2 ^ 32
            rw [hcounted k]
            omega)
          (by show self.observed + 1 + avmas.length < 2 ^ 32; omega)
      refine ⟨est, ?_, ?_, ?_⟩
      · unfold CheckedEstimator.observeAll at hest ⊢
        rw [List.foldlM_cons, hobserve, ok_bind]
        exact hest
      · rw [hobs, List.length_cons]
        show self.observed + 1 + avmas.length = self.observed + (avmas.length + 1)
        omega
      · intro k
        rw [hlater k, List.map_cons, explanations_cons, ← Nat.add_assoc]
        exact congrArg (· + _) (hcounted k)

/-! ## The estimator over natural numbers -/

theorem foldl_update_count (l : List ℕ) (votes : ℕ → ℕ) (k : ℕ) :
    l.foldl (fun votes s => Function.update votes s (votes s + 1)) votes k =
      votes k + l.count k := by
  induction l generalizing votes with
  | nil => rfl
  | cons s l ih =>
      rw [List.foldl_cons, ih, List.count_cons]
      by_cases hk : k = s
      · rw [hk, Function.update_self, if_pos (beq_self_eq_true s)]
        omega
      · have hne : (s == k) = false := beq_eq_false_iff_ne.mpr (Ne.symm hk)
        rw [Function.update_of_ne hk, hne, if_neg Bool.false_ne_true]
        rfl

theorem votes_observe {est : SlideEstimator} (h : ∀ seg ∈ est.execSegments, seg.1 < seg.2)
    (avmas : List ℕ) (k : ℕ) :
    (avmas.foldl SlideEstimator.observe est).votes k =
      est.votes k + explanations est.execSegments avmas k := by
  induction avmas generalizing est with
  | nil => rfl
  | cons avma avmas ih =>
      have hrest : (avmas.foldl SlideEstimator.observe (est.observe avma)).votes k =
          (est.observe avma).votes k + explanations est.execSegments avmas k := ih h
      have hvotes : (est.observe avma).votes k =
          est.votes k + explaining est.execSegments avma k := by
        rw [← count_flatMap_slideCandidates h]
        exact foldl_update_count _ _ k
      rw [List.foldl_cons, hrest, hvotes, explanations_cons, Nat.add_assoc]

/-- The table holds what the estimator over natural numbers counts. -/
theorem observeAll_refines {segs : List (UInt64 × UInt64)} (hsegs : ValidSegments segs)
    {avmas : List UInt64} (hcount : avmas.length * max 1 segs.length < 2 ^ 32) :
    ∃ est, CheckedEstimator.observeAll { execSegments := segs } avmas = .ok est ∧
      est.observed = avmas.length ∧
      ∀ k, VoteTable.count est.votes k =
        ((avmas.map UInt64.toNat).foldl SlideEstimator.observe
          (SlideEstimator.new (segs.map toSegment))).votes k := by
  have hempty : ∀ k, VoteTable.count ∅ k = 0 := fun k => rfl
  have hsegments : avmas.length * segs.length ≤ avmas.length * max 1 segs.length :=
    Nat.mul_le_mul_left _ (Nat.le_max_right 1 _)
  have hone : avmas.length * 1 ≤ avmas.length * max 1 segs.length :=
    Nat.mul_le_mul_left _ (Nat.le_max_left 1 _)
  obtain ⟨est, hest, hobserved, hvotes⟩ := observeAll_spec avmas
    { execSegments := segs } hsegs
    (fun k => by rw [hempty k]; show 0 + avmas.length * segs.length < 2 ^ 32; omega)
    (by show 0 + avmas.length < 2 ^ 32; omega)
  refine ⟨est, hest, by rw [hobserved]; exact Nat.zero_add _, ?_⟩
  intro k
  rw [hvotes k, votes_observe]
  · rfl
  · intro seg hseg
    obtain ⟨seg', hseg', rfl⟩ := List.mem_map.mp hseg
    exact hsegs.nonempty seg' hseg'

/-! ## Disjoint segments -/

/-- No address lies in two of the segments. -/
def DisjointSegments (segs : List (UInt64 × UInt64)) : Prop :=
  segs.Pairwise fun x y =>
    Disjoint (Set.Ico x.1.toNat x.2.toNat) (Set.Ico y.1.toNat y.2.toNat)

theorem countP_le_one {α : Type*} {p : α → Bool} {l : List α}
    (h : l.Pairwise fun x y => ¬ (p x = true ∧ p y = true)) : l.countP p ≤ 1 := by
  induction l with
  | nil => exact Nat.zero_le 1
  | cons x l ih =>
      rw [List.pairwise_cons] at h
      rw [List.countP_cons]
      split
      · rename_i hx
        have hnone : l.countP p = 0 := by
          rw [List.countP_eq_zero]
          exact fun y hy hp => h.1 y hy ⟨hx, hp⟩
        omega
      · exact ih h.2

section Disjoint

variable {segs : List (UInt64 × UInt64)} (hdisjoint : DisjointSegments segs)
include hdisjoint

/-- An address lies in one segment at most. -/
theorem explaining_le_one (avma s : ℕ) : explaining (segs.map toSegment) avma s ≤ 1 := by
  classical
  apply countP_le_one
  rw [List.pairwise_map]
  refine hdisjoint.imp ?_
  rintro x y hxy ⟨hx, hy⟩
  obtain ⟨⟨-, -, hxlo, hxhi⟩, -⟩ := of_decide_eq_true hx
  obtain ⟨⟨-, -, hylo, hyhi⟩, -⟩ := of_decide_eq_true hy
  exact Set.disjoint_left.mp hxy ⟨hxlo, hxhi⟩ ⟨hylo, hyhi⟩

theorem explanations_le (avmas : List ℕ) (s : ℕ) :
    explanations (segs.map toSegment) avmas s ≤ avmas.length := by
  induction avmas with
  | nil => exact Nat.zero_le _
  | cons avma avmas ih =>
      have hone := explaining_le_one hdisjoint avma s
      rw [explanations_cons, List.length_cons]
      omega

/-- A slide that explains every address is voted for by each. -/
theorem explanations_eq_length {avmas : List ℕ} {s : ℕ}
    (h : ∀ avma ∈ avmas, ∃ seg ∈ segs,
      Explains avma (toSegment seg) s ∧ FewCandidates avma (toSegment seg)) :
    explanations (segs.map toSegment) avmas s = avmas.length := by
  induction avmas with
  | nil => rfl
  | cons avma avmas ih =>
      rw [List.forall_mem_cons] at h
      obtain ⟨⟨seg, hseg, hexplains⟩, hrest⟩ := h
      have hone := explaining_le_one hdisjoint avma s
      have hpos : 0 < explaining (segs.map toSegment) avma s := by
        classical
        unfold explaining
        rw [List.countP_pos_iff]
        exact ⟨toSegment seg, List.mem_map_of_mem hseg, decide_eq_true hexplains⟩
      rw [explanations_cons, ih hrest, List.length_cons]
      omega

end Disjoint

/-! ## The slide that is taken -/

/-- The entry that is picked has the most votes. -/
theorem maxByVotes_spec {entries : List (Σ _ : ℕ, ℕ)} (h : entries ≠ []) :
    ∃ entry ∈ entries, maxByVotes entries = some entry ∧ ∀ e ∈ entries, e.2 ≤ entry.2 := by
  induction entries using List.reverseRecOn with
  | nil => exact absurd rfl h
  | append_singleton entries e ih =>
      unfold maxByVotes at ih ⊢
      rw [List.foldl_concat]
      by_cases hnil : entries = []
      · rw [hnil]
        exact ⟨e, List.mem_singleton_self e, rfl, by simp⟩
      · obtain ⟨best, hbest, hfold, hmax⟩ := ih hnil
        rw [hfold]
        dsimp only
        split
        · rename_i hle
          refine ⟨e, by simp, rfl, ?_⟩
          intro e' he'
          rw [List.mem_append, List.mem_singleton] at he'
          rcases he' with he' | rfl
          · exact (hmax e' he').trans hle
          · exact Nat.le_refl _
        · rename_i hlt
          refine ⟨best, List.mem_append_left _ hbest, rfl, ?_⟩
          intro e' he'
          rw [List.mem_append, List.mem_singleton] at he'
          rcases he' with he' | rfl
          · exact hmax e' he'
          · omega

/-- Where no slide has more votes than there are observations and one has as many, the support is
one, in whatever order the table gives its entries. -/
theorem finalize_spec {votes : VoteTable} {observed s : ℕ} (hpos : 0 < observed)
    (hle : ∀ k, VoteTable.count votes k ≤ observed) (hs : VoteTable.count votes s = observed)
    {entries : List (Σ _ : ℕ, ℕ)} (hentries : entries.Perm votes.entries) :
    ∃ slide, finalize observed entries = some (slide, 1) := by
  have hcount : ∀ e ∈ entries, e.2 ≤ observed := by
    intro e he
    have hlookup : votes.lookup e.1 = some e.2 := AList.mem_lookup_iff.mpr (hentries.mem_iff.mp he)
    have hk := hle e.1
    unfold VoteTable.count at hk
    rwa [hlookup, Option.getD_some] at hk
  have hthere : (⟨s, observed⟩ : Σ _ : ℕ, ℕ) ∈ entries := by
    rw [hentries.mem_iff, ← AList.mem_lookup_iff]
    unfold VoteTable.count at hs
    cases hlookup : votes.lookup s with
    | none =>
        rw [hlookup, Option.getD_none] at hs
        omega
    | some n =>
        rw [hlookup, Option.getD_some] at hs
        rw [hs]
        rfl
  obtain ⟨entry, hmem, hmax, hbest⟩ := maxByVotes_spec (List.ne_nil_of_mem hthere)
  have hvotes : entry.2 = observed := Nat.le_antisymm (hcount entry hmem) (hbest _ hthere)
  refine ⟨entry.1, ?_⟩
  unfold finalize
  rw [hmax, Option.map_some, hvotes, Nat.max_eq_left hpos]
  have hquotient : (observed : ℚ) / observed = 1 :=
    div_self (Nat.cast_ne_zero.mpr (Nat.pos_iff_ne_zero.mp hpos))
  rw [hquotient]

/-- The votes of a slide are the pairs of an observation and a segment that it explains, and nothing
overflows.  Over disjoint segments no slide has more votes than there are observations; a slide that
takes every observation, and there is one, back into a segment with few enough slides has as many,
and the slide that is taken then has full support. -/
theorem slide_votes_count (segs : List (UInt64 × UInt64)) (hsegs : ValidSegments segs)
    (avmas : List UInt64) (hcount : avmas.length * max 1 segs.length < 2 ^ 32) :
    ∃ est, CheckedEstimator.observeAll { execSegments := segs } avmas = .ok est ∧
      est.observed = avmas.length ∧
      (∀ s, VoteTable.count est.votes s =
        explanations (segs.map toSegment) (avmas.map UInt64.toNat) s) ∧
      (DisjointSegments segs →
        (∀ s, VoteTable.count est.votes s ≤ est.observed) ∧
        ∀ s, slideAlignment ∣ s → avmas ≠ [] →
          (∀ avma ∈ avmas, ∃ seg ∈ segs, ∃ svma, seg.1.toNat ≤ svma ∧ svma < seg.2.toNat ∧
            avma.toNat = svma + s ∧ FewCandidates avma.toNat (toSegment seg)) →
          VoteTable.count est.votes s = est.observed ∧
            ∀ entries, entries.Perm est.votes.entries →
              ∃ slide, finalize est.observed entries = some (slide, 1)) := by
  obtain ⟨est, hest, hobserved, hrefines⟩ := observeAll_refines hsegs hcount
  have hsegments : ∀ seg ∈ segs.map toSegment, seg.1 < seg.2 := by
    rw [List.forall_mem_map]
    exact hsegs.nonempty
  -- the counted votes are those of the estimator over natural numbers
  have hvotes : ∀ s, VoteTable.count est.votes s =
      explanations (segs.map toSegment) (avmas.map UInt64.toNat) s := by
    intro s
    rw [hrefines s, votes_observe hsegments]
    exact Nat.zero_add _
  refine ⟨est, hest, hobserved, hvotes, ?_⟩
  intro hdisjoint
  -- no slide is voted for twice by one address, as the segments are disjoint
  have hle : ∀ s, VoteTable.count est.votes s ≤ est.observed := by
    intro s
    have hlength := explanations_le hdisjoint (avmas.map UInt64.toNat) s
    rw [List.length_map] at hlength
    rwa [hvotes s, hobserved]
  refine ⟨hle, ?_⟩
  intro s haligned hsome hall
  -- a slide that explains every address has a vote of each
  have hfull : VoteTable.count est.votes s = est.observed := by
    rw [hvotes s, hobserved, explanations_eq_length hdisjoint, List.length_map]
    rw [List.forall_mem_map]
    intro avma havma
    obtain ⟨seg, hseg, svma, hlo, hhi, heq, hfew⟩ := hall avma havma
    refine ⟨seg, hseg, ⟨haligned, by omega, ?_, ?_⟩, hfew⟩
    · show seg.1.toNat ≤ avma.toNat - s
      omega
    · show avma.toNat - s < seg.2.toNat
      omega
  refine ⟨hfull, ?_⟩
  intro entries hentries
  have hpos : 0 < est.observed := by
    rw [hobserved]
    exact List.length_pos_of_ne_nil hsome
  exact finalize_spec hpos hle hfull hentries

/-- Two addresses of a page that is slid by two pages. -/
theorem slide_votes_count_onePage :
    ∃ est, CheckedEstimator.observeAll { execSegments := [(0x4000, 0x8000)] } [0xc123, 0xffff] =
        .ok est ∧ VoteTable.count est.votes 0x8000 = 2 ∧
      ∀ entries, entries.Perm est.votes.entries →
        ∃ slide, finalize est.observed entries = some (slide, 1) := by
  have hvalid : ValidSegments [((0x4000 : UInt64), (0x8000 : UInt64))] :=
    ⟨by simp [slideAlignment], by simp⟩
  obtain ⟨est, hest, hobserved, -, hdisjoint⟩ :=
    slide_votes_count [(0x4000, 0x8000)] hvalid [0xc123, 0xffff] (by simp)
  have hfew : ∀ avma ∈ [(0xc123 : UInt64), 0xffff],
      FewCandidates avma.toNat (toSegment (0x4000, 0x8000)) := by
    intro avma havma
    unfold FewCandidates
    rw [List.mem_pair] at havma
    rcases havma with rfl | rfl
    all_goals
      rw [ncard_explains (by simp [toSegment]) (by simp [toSegment])]
      simp [lastPage, firstPage, toSegment, slideAlignment]
  obtain ⟨hfull, hfinal⟩ := (hdisjoint (List.pairwise_singleton _ _)).2 0x8000
    (by norm_num [slideAlignment]) (List.cons_ne_nil _ _) (by
      intro avma havma
      refine ⟨_, List.mem_singleton_self _, avma.toNat - 0x8000, ?_, ?_, ?_, hfew avma havma⟩
      all_goals
        rw [List.mem_pair] at havma
        rcases havma with rfl | rfl <;> simp)
  exact ⟨est, hest, hfull.trans hobserved, hfinal⟩

/-- Without an observation no slide is taken. -/
theorem noObservation_noSlide :
    ∃ est, CheckedEstimator.observeAll { execSegments := [(0x4000, 0x8000)] } [] = .ok est ∧
      VoteTable.count est.votes 0 = est.observed ∧
      ∀ entries, entries.Perm est.votes.entries → finalize est.observed entries = none := by
  refine ⟨_, rfl, rfl, ?_⟩
  intro entries hentries
  have hnil : entries = [] := hentries.eq_nil
  rw [hnil]
  rfl

end Stax.Kperf
