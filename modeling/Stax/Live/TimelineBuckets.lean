/-
# Stax.Live.TimelineBuckets — the buckets partition recorded time.

The first and the last bucket of an interval are found by rounding, and the last one is held to the
number of buckets, which is itself rounded.  Still every bucket gets exactly the part of the interval
inside it, and the buckets together the whole interval: an interval that ends by the last event ends
in the last bucket or before it.
-/
import Stax.Lib.Histogram
import Stax.Live.Timeline

namespace Stax.Live

open Stax.Lib

/-! ## Intervals since the session start -/

/-- Where an interval ends in the timeline: an open one at the last event. -/
def RawInterval.intEnd (self : RawInterval) (last : ℕ) : ℕ :=
  if self.endNs = 0 then last else self.endNs

/-- The length of an interval since the session start. -/
def RawInterval.clippedLength (self : RawInterval) (start last : ℕ) : ℕ :=
  (self.intEnd last - start) - (self.startNs - start)

/-- The length of the part of `[S, E)` in the bucket `b` of width `w`. -/
def overlap (w S E b : ℕ) : ℕ := min ((b + 1) * w) E - max (b * w) S

/-- The time a kind of intervals has in a bucket. -/
def bucketTime (ivs : List RawInterval) (start last w : ℕ) (onCpu : Bool) (b : ℕ) : ℕ :=
  ((ivs.filter fun iv => iv.isOnCpu == onCpu).map fun iv =>
    overlap w (iv.startNs - start) (iv.intEnd last - start) b).sum

/-- The time a kind of intervals has since the session start. -/
def clippedTime (ivs : List RawInterval) (start last : ℕ) (onCpu : Bool) : ℕ :=
  ((ivs.filter fun iv => iv.isOnCpu == onCpu).map fun iv => iv.clippedLength start last).sum

/-- The buckets the walk of an interval goes through. -/
def visitedBuckets (start last bucketSizeNs nBuckets : ℕ) (iv : RawInterval) : List ℕ :=
  if iv.intEnd last ≤ iv.startNs then []
  else
    let firstBucket := (iv.startNs - start) / bucketSizeNs
    let lastBucket := (iv.intEnd last - start - 1) / bucketSizeNs
    List.range' firstBucket (min lastBucket (nBuckets - 1) + 1 - firstBucket)

/-! ## Overlaps -/

theorem overlap_eq_reached (w S E b : ℕ) :
    overlap w S E b = reached w S E (b + 1) - reached w S E b := by
  unfold overlap reached
  rw [Nat.succ_mul]
  omega

theorem overlap_eq_zero_of_le {w S E : ℕ} (h : E ≤ S) (b : ℕ) : overlap w S E b = 0 := by
  unfold overlap
  omega

/-- The buckets reach as far into an interval as the last of them does. -/
theorem sum_overlap (w S E n : ℕ) :
    ((List.range n).map (overlap w S E)).sum = min (n * w) E - S := by
  induction n with
  | zero =>
      rw [List.range_zero, Nat.zero_mul]
      show 0 = _
      omega
  | succ n ih =>
      rw [List.range_succ, List.map_append, List.sum_append, ih, List.map_singleton,
        List.sum_singleton]
      unfold overlap
      rw [Nat.succ_mul]
      omega

section Visited

variable {w start last : ℕ} {iv : RawInterval}

/-- The walk of an interval ends with it, before the last bucket does. -/
theorem visitedBuckets_eq (hend : iv.intEnd last ≤ last)
    (hrun : iv.startNs - start < iv.intEnd last - start) :
    visitedBuckets start last w ((last - start) / w + 1) iv =
      List.range' ((iv.startNs - start) / w)
        ((iv.intEnd last - start - 1) / w + 1 - (iv.startNs - start) / w) := by
  have hclamp : min ((iv.intEnd last - start - 1) / w) ((last - start) / w + 1 - 1) =
      (iv.intEnd last - start - 1) / w := by
    rw [Nat.add_sub_cancel]
    exact min_eq_left (Nat.div_le_div_right (by omega))
  unfold visitedBuckets
  rw [if_neg (by omega)]
  dsimp only
  rw [hclamp]

theorem bucketShare_eq_zero {S E : ℕ} (h : E ≤ S) (b : ℕ) : bucketShare w S E b = 0 := by
  unfold bucketShare saturatingAdd64
  omega

/-- An interval has a share in a bucket it goes through, and no part in the others. -/
theorem share_eq_overlap (hw : 0 < w) (hend : iv.intEnd last ≤ last) (hlast : last ≤ u64Max)
    (b : ℕ) :
    (if b ∈ visitedBuckets start last w ((last - start) / w + 1) iv then
        bucketShare w (iv.startNs - start) (iv.intEnd last - start) b else 0) =
      overlap w (iv.startNs - start) (iv.intEnd last - start) b := by
  rcases Nat.lt_or_ge (iv.startNs - start) (iv.intEnd last - start) with hrun | hempty
  · have hmem : b ∈ visitedBuckets start last w ((last - start) / w + 1) iv ↔
        (iv.startNs - start) / w ≤ b ∧ b ≤ (iv.intEnd last - start - 1) / w := by
      rw [visitedBuckets_eq hend hrun, List.mem_range'_1]
      omega
    generalize iv.startNs - start = S at hrun hmem ⊢
    generalize hE : iv.intEnd last - start = E at hrun hmem ⊢
    by_cases hb : S / w ≤ b ∧ b ≤ (E - 1) / w
    · rw [if_pos (hmem.mpr hb), bucketShare_eq hw (by omega) hrun hb.1 hb.2, overlap_eq_reached]
    · rw [if_neg (mt hmem.mp hb)]
      rcases not_and_or.mp hb with hbefore | hafter
      · have hle : (b + 1) * w ≤ S :=
          (Nat.mul_le_mul_right w (by omega)).trans (Nat.div_mul_le_self S w)
        unfold overlap
        omega
      · have hlt := Nat.lt_div_mul_add hw (a := E - 1)
        have hle : ((E - 1) / w + 1) * w ≤ b * w := Nat.mul_le_mul_right w (by omega)
        rw [Nat.succ_mul] at hle
        unfold overlap
        omega
  · rw [overlap_eq_zero_of_le hempty, bucketShare_eq_zero hempty, ite_self]

/-- The shares of an interval add up to its length. -/
theorem sum_visitedBuckets (hw : 0 < w) (hend : iv.intEnd last ≤ last) (hlast : last ≤ u64Max) :
    ((visitedBuckets start last w ((last - start) / w + 1) iv).map
        (bucketShare w (iv.startNs - start) (iv.intEnd last - start))).sum =
      iv.clippedLength start last := by
  rcases Nat.lt_or_ge (iv.startNs - start) (iv.intEnd last - start) with hrun | hempty
  · rw [visitedBuckets_eq hend hrun, sum_bucketShare hw (by omega) hrun]
    rfl
  · have hlength : iv.clippedLength start last = 0 := Nat.sub_eq_zero_of_le hempty
    rw [hlength]
    apply List.sum_eq_zero
    intro share hshare
    obtain ⟨b, -, rfl⟩ := List.mem_map.mp hshare
    exact bucketShare_eq_zero hempty b

end Visited

theorem nodup_visitedBuckets (start last w n : ℕ) (iv : RawInterval) :
    (visitedBuckets start last w n iv).Nodup := by
  unfold visitedBuckets
  split
  · exact List.nodup_nil
  · exact List.nodup_range'

/-- The walk stays inside the buckets. -/
theorem lt_of_mem_visitedBuckets {start last w n : ℕ} {iv : RawInterval} (hn : 0 < n) {b : ℕ}
    (hb : b ∈ visitedBuckets start last w n iv) : b < n := by
  unfold visitedBuckets at hb
  split at hb
  · cases hb
  · rw [List.mem_range'_1] at hb
    omega

/-! ## The walk -/

namespace TimelineSums

/-- The buckets of a kind. -/
def perBucket (self : TimelineSums) (onCpu : Bool) : List U64 :=
  if onCpu then self.onCpuPerBucket else self.offCpuPerBucket

/-- The total of a kind. -/
def total (self : TimelineSums) (onCpu : Bool) : U64 :=
  if onCpu then self.totalOnCpuNs else self.totalOffCpuNs

theorem addShare_spec (self : TimelineSums) (kind onCpu : Bool) (b share : ℕ) :
    (self.addShare onCpu b share).perBucket kind =
        (if onCpu = kind then (self.perBucket kind).modify b (· + toU64 share)
          else self.perBucket kind) ∧
      (self.addShare onCpu b share).total kind =
        self.total kind + if onCpu = kind then toU64 share else 0 := by
  unfold addShare
  by_cases hshare : share = 0
  · have hzero : toU64 0 = 0 := map_zero (Sat.ofNatHom u64Max)
    have hsame (row : List U64) : row.modify b (· + 0) = row := by
      simp only [add_zero]
      exact List.modify_id b row
    rw [if_pos hshare, hshare, hzero, hsame, ite_self, ite_self, add_zero]
    exact ⟨rfl, rfl⟩
  · rw [if_neg hshare]
    cases onCpu <;> cases kind <;> simp [perBucket, total]

/-- Adding the shares of some buckets. -/
theorem foldl_addShare (share : ℕ → ℕ) (kind onCpu : Bool) (bs : List ℕ) (self : TimelineSums) :
    (bs.foldl (fun sums b => sums.addShare onCpu b (share b)) self).perBucket kind =
        (if onCpu = kind then
          bs.foldl (fun row b => row.modify b (· + toU64 (share b))) (self.perBucket kind)
          else self.perBucket kind) ∧
      (bs.foldl (fun sums b => sums.addShare onCpu b (share b)) self).total kind =
        self.total kind + if onCpu = kind then toU64 (bs.map share).sum else 0 := by
  induction bs generalizing self with
  | nil =>
      have hzero : toU64 0 = 0 := map_zero (Sat.ofNatHom u64Max)
      simp [hzero]
  | cons b bs ih =>
      have hadd : toU64 (share b + (bs.map share).sum) =
          toU64 (share b) + toU64 (bs.map share).sum := map_add (Sat.ofNatHom u64Max) _ _
      obtain ⟨hrow, htotal⟩ := self.addShare_spec kind onCpu b (share b)
      obtain ⟨hrows, htotals⟩ := ih (self.addShare onCpu b (share b))
      rw [List.foldl_cons, hrows, htotals, hrow, htotal, List.map_cons, List.sum_cons, hadd]
      by_cases hkind : onCpu = kind
      · simp only [if_pos hkind, List.foldl_cons]
        exact ⟨trivial, add_assoc _ _ _⟩
      · simp only [if_neg hkind, add_zero]
        trivial

theorem addInterval_eq (start last w n : ℕ) (self : TimelineSums) (iv : RawInterval) :
    self.addInterval start last w n iv =
      (visitedBuckets start last w n iv).foldl (fun sums b => sums.addShare iv.isOnCpu b
        (bucketShare w (iv.startNs - start) (iv.intEnd last - start) b)) self := by
  unfold addInterval visitedBuckets RawInterval.intEnd
  dsimp only
  generalize (if iv.endNs = 0 then last else iv.endNs) = stop
  split <;> rfl

/-- The sums of a walk over some intervals. -/
structure Walked (sums : TimelineSums) (start last w n : ℕ) (ivs : List RawInterval) : Prop where
  rows : ∀ kind, sums.perBucket kind =
    (List.range n).map fun b => toU64 (bucketTime ivs start last w kind b)
  totals : ∀ kind, sums.total kind = toU64 (clippedTime ivs start last kind)

/-- One more interval. -/
theorem Walked.addInterval {start last w : ℕ} (hw : 0 < w) (hlast : last ≤ u64Max)
    {ivs : List RawInterval} {self : TimelineSums} {iv : RawInterval}
    (h : self.Walked start last w ((last - start) / w + 1) ivs) (hend : iv.intEnd last ≤ last) :
    (self.addInterval start last w ((last - start) / w + 1) iv).Walked start last w
      ((last - start) / w + 1) (ivs ++ [iv]) := by
  set n := (last - start) / w + 1 with hn
  set share := bucketShare w (iv.startNs - start) (iv.intEnd last - start) with hshare
  set visited := visitedBuckets start last w n iv with hvisited
  have hadd : ∀ x y, toU64 (x + y) = toU64 x + toU64 y := map_add (Sat.ofNatHom u64Max)
  have hzero : toU64 0 = 0 := map_zero (Sat.ofNatHom u64Max)
  -- what a bucket gets is its overlap; the buckets not visited have none
  have hoverlap (b : ℕ) : (if b ∈ visited then share b else 0) =
      overlap w (iv.startNs - start) (iv.intEnd last - start) b :=
    share_eq_overlap hw hend hlast b
  have hspec (kind : Bool) := foldl_addShare share kind iv.isOnCpu visited self
  rw [addInterval_eq]
  constructor
  · intro kind
    rw [(hspec kind).1, h.rows kind]
    unfold bucketTime
    by_cases hkind : iv.isOnCpu = kind
    · rw [if_pos hkind, Histogram.foldl_modify_row _ (nodup_visitedBuckets start last w n iv)]
      apply List.map_congr_left
      intro b _
      -- saturating sums do not depend on the order of additions
      have hcell : (if b ∈ visited then toU64 (share b) else 0) =
          toU64 (overlap w (iv.startNs - start) (iv.intEnd last - start) b) := by
        rw [← hoverlap, apply_ite toU64, hzero]
      rw [hcell, ← hadd, List.filter_append, List.filter_singleton, hkind, beq_self_eq_true,
        List.map_append, List.sum_append]
      simp
    · have hskip : (iv.isOnCpu == kind) = false := beq_eq_false_iff_ne.mpr hkind
      rw [if_neg hkind]
      apply List.map_congr_left
      intro b _
      rw [List.filter_append, List.filter_singleton, hskip]
      simp
  · intro kind
    rw [(hspec kind).2, h.totals kind]
    unfold clippedTime
    by_cases hkind : iv.isOnCpu = kind
    · have hsum : (visited.map share).sum = iv.clippedLength start last :=
        sum_visitedBuckets hw hend hlast
      rw [if_pos hkind, hsum, ← hadd, List.filter_append, List.filter_singleton, hkind,
        beq_self_eq_true, List.map_append, List.sum_append]
      simp
    · have hskip : (iv.isOnCpu == kind) = false := beq_eq_false_iff_ne.mpr hkind
      rw [if_neg hkind, List.filter_append, List.filter_singleton, hskip]
      simp

/-- The walk of all intervals, from empty buckets. -/
theorem walked_foldl {start last w : ℕ} (hw : 0 < w) (hlast : last ≤ u64Max)
    {ivs : List RawInterval} (hends : ∀ iv ∈ ivs, iv.intEnd last ≤ last) :
    (ivs.foldl (TimelineSums.addInterval start last w ((last - start) / w + 1))
      { onCpuPerBucket := List.replicate (max ((last - start) / w + 1) 1) 0
        offCpuPerBucket := List.replicate (max ((last - start) / w + 1) 1) 0 }).Walked start last w
      ((last - start) / w + 1) ivs := by
  induction ivs using List.reverseRecOn with
  | nil =>
      have hzero : toU64 0 = 0 := map_zero (Sat.ofNatHom u64Max)
      have hempty : List.replicate (max ((last - start) / w + 1) 1) (0 : U64) =
          (List.range ((last - start) / w + 1)).map fun _ => toU64 0 := by
        rw [List.map_const', List.length_range, hzero, max_eq_left (Nat.le_add_left 1 _)]
      constructor
      · intro kind
        cases kind <;> exact hempty
      · intro kind
        cases kind <;> exact hzero.symm
  | append_singleton ivs iv ih =>
      rw [List.forall_mem_append] at hends
      rw [List.foldl_concat]
      exact (ih hends.1).addInterval hw hlast (hends.2 iv (List.mem_singleton_self iv))

end TimelineSums

/-! ## The update -/

/-- The buckets partition the time of some intervals since the session start: there are few of them,
the walk stays inside them, each has the time of both kinds in its part of the recording, and each
total is the time in all buckets and the time of all intervals.  What it is for a counter to be a
number of nanoseconds is left open. -/
structure TimelineUpdate.PartitionsBy (update : TimelineUpdate) (same : U64 → ℕ → Prop)
    (ivs : List RawInterval) (start last : ℕ) : Prop where
  count : update.buckets.length ≤ 201
  inside : ∀ iv ∈ ivs, ∀ b ∈ visitedBuckets start last update.bucketSizeNs update.buckets.length iv,
    b < update.buckets.length
  cells : ∀ b (hb : b < update.buckets.length),
    (update.buckets[b]).startNs = b * update.bucketSizeNs ∧
      same (update.buckets[b]).onCpuNs (bucketTime ivs start last update.bucketSizeNs true b) ∧
      same (update.buckets[b]).offCpuNs (bucketTime ivs start last update.bucketSizeNs false b)
  buckets : same update.totalOnCpuNs (update.buckets.map fun b => b.onCpuNs.val).sum ∧
    same update.totalOffCpuNs (update.buckets.map fun b => b.offCpuNs.val).sum
  intervals : same update.totalOnCpuNs (clippedTime ivs start last true) ∧
    same update.totalOffCpuNs (clippedTime ivs start last false)

/-- There are at most 201 buckets. -/
theorem bucketCount_le (d : ℕ) : d / bucketSizeFor d + 1 ≤ 201 := by
  unfold bucketSizeFor
  split
  · rename_i hzero
    rw [hzero, Nat.zero_div]
    omega
  · have hpos : 0 < max (d / targetBuckets) minBucketNs := by
      unfold minBucketNs
      omega
    have hlt : d < 201 * max (d / targetBuckets) minBucketNs := by
      unfold targetBuckets minBucketNs
      omega
    have hdiv := (Nat.div_lt_iff_lt_mul hpos).mpr hlt
    omega

/-- The buckets share out the time of all intervals. -/
theorem sum_bucketTime (ivs : List RawInterval) {start last w : ℕ} (hw : 0 < w)
    (hends : ∀ iv ∈ ivs, iv.intEnd last ≤ last) (kind : Bool) :
    ((List.range ((last - start) / w + 1)).map (bucketTime ivs start last w kind)).sum =
      clippedTime ivs start last kind := by
  unfold bucketTime clippedTime
  rw [Histogram.sum_rows]
  congr 1
  apply List.map_congr_left
  intro iv hiv
  have hend := hends iv (List.mem_filter.mp hiv).1
  have hcover : last - start < ((last - start) / w + 1) * w := by
    have hlt := Nat.lt_div_mul_add hw (a := last - start)
    rwa [Nat.succ_mul]
  rw [sum_overlap, RawInterval.clippedLength]
  omega

theorem bucketTime_le (ivs : List RawInterval) {start last w n : ℕ} (kind : Bool) {b : ℕ}
    (hb : b < n) : bucketTime ivs start last w kind b ≤
      ((List.range n).map (bucketTime ivs start last w kind)).sum :=
  List.single_le_sum (fun _ _ => Nat.zero_le _) _
    (List.mem_map_of_mem (List.mem_range.mpr hb))

/-- Counters add up to what the numbers they hold add up to. -/
theorem toU64_sum_val (ns : List ℕ) : toU64 (ns.map fun n => (toU64 n).val).sum = toU64 ns.sum := by
  have hsum : toU64 (ns.map fun n => (toU64 n).val).sum =
      ((ns.map fun n => (toU64 n).val).map toU64).sum := map_list_sum (Sat.ofNatHom u64Max) _
  have hsum' : toU64 ns.sum = (ns.map toU64).sum := map_list_sum (Sat.ofNatHom u64Max) _
  rw [hsum, hsum', List.map_map]
  congr 1
  apply List.map_congr_left
  intro n _
  exact Sat.ofNat_val (toU64 n)

/-- Counters that hold numbers partition the time when they can hold the totals. -/
theorem TimelineUpdate.PartitionsBy.exact {update : TimelineUpdate} {ivs : List RawInterval}
    {start last : ℕ} (h : update.PartitionsBy (fun a n => a = toU64 n) ivs start last)
    (hcells : ∀ kind, ∀ b < update.buckets.length,
      bucketTime ivs start last update.bucketSizeNs kind b ≤ clippedTime ivs start last kind)
    (hbuckets : ∀ kind, ((List.range update.buckets.length).map
      (bucketTime ivs start last update.bucketSizeNs kind)).sum = clippedTime ivs start last kind)
    (hfits : ∀ kind, clippedTime ivs start last kind ≤ u64Max) :
    update.PartitionsBy (fun a n => a.val = n) ivs start last := by
  have hval {a : U64} {n : ℕ} (ha : a = toU64 n) (hn : n ≤ u64Max) : a.val = n := by
    rw [ha]
    exact Sat.val_ofNat_eq hn
  have hcell (kind : Bool) {b : ℕ} (hb : b < update.buckets.length) :
      bucketTime ivs start last update.bucketSizeNs kind b ≤ u64Max :=
    (hcells kind b hb).trans (hfits kind)
  have hsum (kind : Bool) (field : TimelineBucket → U64)
      (hfield : ∀ b (hb : b < update.buckets.length), field (update.buckets[b]) =
        toU64 (bucketTime ivs start last update.bucketSizeNs kind b)) :
      (update.buckets.map fun b => (field b).val).sum = clippedTime ivs start last kind := by
    rw [← hbuckets kind]
    congr 1
    apply List.ext_getElem
    · rw [List.length_map, List.length_map, List.length_range]
    · intro b hb _
      rw [List.length_map] at hb
      rw [List.getElem_map, List.getElem_map, List.getElem_range]
      exact hval (hfield b hb) (hcell kind hb)
  constructor
  · exact h.count
  · exact h.inside
  · intro b hb
    obtain ⟨hstart, honCpu, hoffCpu⟩ := h.cells b hb
    exact ⟨hstart, hval honCpu (hcell true hb), hval hoffCpu (hcell false hb)⟩
  · rw [hsum true _ fun b hb => (h.cells b hb).2.1, hsum false _ fun b hb => (h.cells b hb).2.2]
    exact ⟨hval h.intervals.1 (hfits true), hval h.intervals.2 (hfits false)⟩
  · exact ⟨hval h.intervals.1 (hfits true), hval h.intervals.2 (hfits false)⟩

/-- The update with the time of some intervals in each of its buckets. -/
def TimelineUpdate.ofIntervals (ivs : List RawInterval) (start last : ℕ) : TimelineUpdate :=
  let w := bucketSizeFor (last - start)
  { bucketSizeNs := w
    recordingDurationNs := last - start
    totalOnCpuNs := toU64 (clippedTime ivs start last true)
    totalOffCpuNs := toU64 (clippedTime ivs start last false)
    buckets := (List.range ((last - start) / w + 1)).map fun b =>
      { startNs := b * w
        onCpuNs := toU64 (bucketTime ivs start last w true b)
        offCpuNs := toU64 (bucketTime ivs start last w false b) } }

theorem zip_rows (n : ℕ) (on off : ℕ → U64) (w : ℕ) :
    ((((List.range n).map on).zip ((List.range n).map off)).zipIdx.map fun b =>
      ({ startNs := b.2 * w, onCpuNs := b.1.1, offCpuNs := b.1.2 } : TimelineBucket)) =
      (List.range n).map fun b => { startNs := b * w, onCpuNs := on b, offCpuNs := off b } := by
  apply List.ext_getElem
  · simp
  · intro b hb _
    simp

section Update

variable {ivs : List RawInterval} {start last : ℕ} (hends : ∀ iv ∈ ivs, iv.intEnd last ≤ last)
include hends

/-- The counters hold the times as far as they can. -/
theorem partitionsBy_ofIntervals :
    (TimelineUpdate.ofIntervals ivs start last).PartitionsBy (fun a n => a = toU64 n) ivs start
      last := by
  have hw := bucketSizeFor_pos (last - start)
  have hlength : (TimelineUpdate.ofIntervals ivs start last).buckets.length =
      (last - start) / bucketSizeFor (last - start) + 1 := by
    unfold TimelineUpdate.ofIntervals
    rw [List.length_map, List.length_range]
  have hbuckets (kind : Bool) : toU64 (((List.range ((last - start) /
        bucketSizeFor (last - start) + 1)).map (bucketTime ivs start last
          (bucketSizeFor (last - start)) kind)).map fun n => (toU64 n).val).sum =
      toU64 (clippedTime ivs start last kind) := by
    rw [toU64_sum_val, sum_bucketTime ivs hw hends kind]
  constructor
  · rw [hlength]
    exact bucketCount_le (last - start)
  · intro iv _ b hb
    rw [hlength] at hb ⊢
    exact lt_of_mem_visitedBuckets (Nat.succ_pos _) hb
  · intro b hb
    have hcell : (TimelineUpdate.ofIntervals ivs start last).buckets[b] =
        { startNs := b * bucketSizeFor (last - start)
          onCpuNs := toU64 (bucketTime ivs start last (bucketSizeFor (last - start)) true b)
          offCpuNs := toU64 (bucketTime ivs start last (bucketSizeFor (last - start)) false b) } := by
      simp [TimelineUpdate.ofIntervals]
    rw [hcell]
    exact ⟨rfl, rfl, rfl⟩
  · refine ⟨(hbuckets true).symm.trans ?_, (hbuckets false).symm.trans ?_⟩
    · unfold TimelineUpdate.ofIntervals
      rw [List.map_map, List.map_map]
      rfl
    · unfold TimelineUpdate.ofIntervals
      rw [List.map_map, List.map_map]
      rfl
  · exact ⟨rfl, rfl⟩

/-- They hold them exactly when they can hold the totals. -/
theorem partitionsBy_exact_iff :
    (TimelineUpdate.ofIntervals ivs start last).PartitionsBy (fun a n => a.val = n) ivs start
        last ↔
      ∀ kind, clippedTime ivs start last kind ≤ u64Max := by
  have hw := bucketSizeFor_pos (last - start)
  have hlength : (TimelineUpdate.ofIntervals ivs start last).buckets.length =
      (last - start) / bucketSizeFor (last - start) + 1 := by
    unfold TimelineUpdate.ofIntervals
    rw [List.length_map, List.length_range]
  have hbuckets (kind : Bool) : ((List.range (TimelineUpdate.ofIntervals ivs start
      last).buckets.length).map (bucketTime ivs start last (bucketSizeFor (last - start)) kind)).sum =
        clippedTime ivs start last kind := by
    rw [hlength, sum_bucketTime ivs hw hends kind]
  constructor
  · intro h kind
    cases kind with
    | true => exact h.intervals.1 ▸ Sat.le _
    | false => exact h.intervals.2 ▸ Sat.le _
  · apply (partitionsBy_ofIntervals hends).exact
    · intro kind b hb
      rw [← hbuckets kind]
      exact bucketTime_le ivs kind hb
    · exact hbuckets

end Update

namespace Aggregator

variable {agg : Aggregator} {tid : Option Tid}

theorem intEnd_le (hends : ∀ e ∈ agg.iterIntervals tid,
      e.2.endNs ≤ agg.lastEventNs.getD (agg.sessionStartNs.getD 0)) :
    ∀ iv ∈ (agg.iterIntervals tid).map Prod.snd,
      iv.intEnd (agg.lastEventNs.getD (agg.sessionStartNs.getD 0)) ≤
        agg.lastEventNs.getD (agg.sessionStartNs.getD 0) := by
  intro iv hiv
  obtain ⟨e, he, rfl⟩ := List.mem_map.mp hiv
  have hend := hends e he
  unfold RawInterval.intEnd
  split
  · exact le_refl _
  · exact hend

/-- The walk fills the buckets with the time of the intervals. -/
theorem buildTimelineUpdate_eq (hends : ∀ e ∈ agg.iterIntervals tid,
      e.2.endNs ≤ agg.lastEventNs.getD (agg.sessionStartNs.getD 0))
    (hfits : agg.lastEventNs.getD (agg.sessionStartNs.getD 0) ≤ u64Max) :
    buildTimelineUpdate agg tid = TimelineUpdate.ofIntervals ((agg.iterIntervals tid).map Prod.snd)
      (agg.sessionStartNs.getD 0) (agg.lastEventNs.getD (agg.sessionStartNs.getD 0)) := by
  have hivs := intEnd_le hends
  unfold buildTimelineUpdate TimelineUpdate.ofIntervals
  dsimp only
  generalize agg.lastEventNs.getD (agg.sessionStartNs.getD 0) = last at hfits hivs ⊢
  generalize agg.sessionStartNs.getD 0 = start
  have hwalk := @TimelineSums.walked_foldl start last _ (bucketSizeFor_pos (last - start)) hfits _
    hivs
  have honRow := hwalk.rows true
  have hoffRow := hwalk.rows false
  have honTotal := hwalk.totals true
  have hoffTotal := hwalk.totals false
  simp only [TimelineSums.perBucket, TimelineSums.total, if_true, Bool.false_eq_true, if_false]
    at honRow hoffRow honTotal hoffTotal
  rw [honRow, hoffRow, honTotal, hoffTotal, zip_rows]

/-- The buckets of the timeline partition recorded time.  For every aggregator whose last event is
no earlier than any interval's end, and every selection: there are at most 201 buckets, the walk
never leaves them, and each bucket's time, and both totals, are the sums over the intervals' parts
since the session start, as far as a counter can hold them; they are exactly these sums when, and
only when, the counters can hold the totals. -/
theorem timeline_partitions (agg : Aggregator) (tid : Option Tid)
    (hends : ∀ e ∈ agg.iterIntervals tid,
      e.2.endNs ≤ agg.lastEventNs.getD (agg.sessionStartNs.getD 0))
    (hfits : agg.lastEventNs.getD (agg.sessionStartNs.getD 0) ≤ u64Max) :
    let start := agg.sessionStartNs.getD 0
    let last := agg.lastEventNs.getD start
    let ivs := (agg.iterIntervals tid).map Prod.snd
    (buildTimelineUpdate agg tid).PartitionsBy (fun a n => a = toU64 n) ivs start last ∧
      ((buildTimelineUpdate agg tid).PartitionsBy (fun a n => a.val = n) ivs start last ↔
        ∀ kind, clippedTime ivs start last kind ≤ u64Max) := by
  intro start last ivs
  rw [buildTimelineUpdate_eq hends hfits]
  exact ⟨partitionsBy_ofIntervals (intEnd_le hends), partitionsBy_exact_iff (intEnd_le hends)⟩

/-- One slice of a thread, over two buckets. -/
def oneSlice : Aggregator := replay
  [.interval 1 { startNs := 10, endNs := 60000010, kind := .onCpu }]

theorem timeline_partitions_oneSlice :
    (buildTimelineUpdate oneSlice none).PartitionsBy (fun a n => a = toU64 n)
      [{ startNs := 10, endNs := 60000010, kind := .onCpu }] 10 60000010 :=
  (timeline_partitions oneSlice none (by decide +kernel) (by decide +kernel)).1

/-- Two threads that were parked for as long as a time can say. -/
def longParks : Aggregator := replay
  [.interval 1 { startNs := 1, endNs := u64Max, kind := .offCpu [] none none },
    .interval 2 { startNs := 1, endNs := u64Max, kind := .offCpu [] none none }]

/-- Their time together is more than the total can hold. -/
theorem longParks_saturates :
    ¬ (buildTimelineUpdate longParks none).PartitionsBy (fun a n => a.val = n)
      ((longParks.iterIntervals none).map Prod.snd) 1 u64Max := by
  intro h
  have hle : clippedTime ((longParks.iterIntervals none).map Prod.snd) 1 u64Max false ≤ u64Max := by
    rw [← h.intervals.2]
    exact Sat.le _
  revert hle
  decide +kernel

end Aggregator

end Stax.Live
