/-
# Stax.Live.Timeline — interval time spread over buckets.

The timeline walks the raw intervals of a selection and distributes each one's duration over the
buckets it overlaps; a running total is kept of the on-CPU and of the off-CPU shares.  Between them
the buckets cover the recording, so an interval that starts at or after the session start and ends
by the last event is distributed whole, and the on-CPU total is the sum of the on-CPU durations.
-/
import Stax.Live.Attribution

namespace Stax.Live

open Stax.Lib

/-! ## The model -/

/-- The time that threads spent on and off a cpu within one slice of the recording. -/
structure TimelineBucket where
  startNs : ℕ
  onCpuNs : U64
  offCpuNs : U64
  deriving DecidableEq, Repr

/-- The timeline as it is sent, with its totals and buckets of equal size. -/
structure TimelineUpdate where
  bucketSizeNs : ℕ
  recordingDurationNs : ℕ
  totalOnCpuNs : U64
  totalOffCpuNs : U64
  buckets : List TimelineBucket
  deriving DecidableEq, Repr

/-- About how many buckets a timeline has, whatever the length of the recording. -/
def targetBuckets : ℕ := 200

/-- 50 ms. -/
def minBucketNs : ℕ := 50000000

/-- Every interval of a selection with its thread. -/
def Aggregator.iterIntervals (self : Aggregator) (tid : Option Tid) : List (Tid × RawInterval) :=
  (self.selected tid).flatMap fun t =>
    ((self.threads.lookup t).getD {}).intervals.map fun iv => (t, iv)

/-- The sums a timeline keeps while it walks the intervals. -/
structure TimelineSums where
  onCpuPerBucket : List U64
  offCpuPerBucket : List U64
  totalOnCpuNs : U64 := 0
  totalOffCpuNs : U64 := 0

/-- One bucket's share of an interval. -/
def TimelineSums.addShare (self : TimelineSums) (onCpu : Bool) (b share : ℕ) : TimelineSums :=
  if share = 0 then self
  else if onCpu then
    { self with
      onCpuPerBucket := self.onCpuPerBucket.modify b (· + toU64 share)
      totalOnCpuNs := self.totalOnCpuNs + toU64 share }
  else
    { self with
      offCpuPerBucket := self.offCpuPerBucket.modify b (· + toU64 share)
      totalOffCpuNs := self.totalOffCpuNs + toU64 share }

/-- The part of `[relStart, relEnd)` inside bucket `b`. -/
def bucketShare (bucketSizeNs relStart relEnd b : ℕ) : ℕ :=
  min (saturatingAdd64 (b * bucketSizeNs) bucketSizeNs) relEnd - max (b * bucketSizeNs) relStart

/-- Distributes an interval over the buckets from its first to its last, or to the last there is. -/
def TimelineSums.addInterval (start last bucketSizeNs nBuckets : ℕ) (self : TimelineSums)
    (interval : RawInterval) : TimelineSums :=
  let intEnd := if interval.endNs = 0 then last else interval.endNs
  if intEnd ≤ interval.startNs then self
  else
    let relStart := interval.startNs - start
    let relEnd := intEnd - start
    let firstBucket := relStart / bucketSizeNs
    let lastBucket := (relEnd - 1) / bucketSizeNs
    (List.range' firstBucket (min lastBucket (nBuckets - 1) + 1 - firstBucket)).foldl
      (fun sums b =>
        sums.addShare interval.isOnCpu b (bucketShare bucketSizeNs relStart relEnd b)) self

/-- The width of a bucket. -/
def bucketSizeFor (recordingDurationNs : ℕ) : ℕ :=
  if recordingDurationNs = 0 then minBucketNs
  else max (recordingDurationNs / targetBuckets) minBucketNs

/-- The timeline of a recording: every interval is spread over the buckets that it overlaps. -/
def buildTimelineUpdate (agg : Aggregator) (tid : Option Tid) : TimelineUpdate :=
  let start := agg.sessionStartNs.getD 0
  let last := agg.lastEventNs.getD start
  let recordingDurationNs := last - start
  let bucketSizeNs := bucketSizeFor recordingDurationNs
  let nBuckets := recordingDurationNs / bucketSizeNs + 1
  let sums := ((agg.iterIntervals tid).map Prod.snd).foldl
    (TimelineSums.addInterval start last bucketSizeNs nBuckets)
    { onCpuPerBucket := List.replicate (max nBuckets 1) 0
      offCpuPerBucket := List.replicate (max nBuckets 1) 0 }
  { bucketSizeNs
    recordingDurationNs
    totalOnCpuNs := sums.totalOnCpuNs
    totalOffCpuNs := sums.totalOffCpuNs
    buckets := ((sums.onCpuPerBucket.zip sums.offCpuPerBucket).zipIdx).map fun b =>
      { startNs := b.2 * bucketSizeNs, onCpuNs := b.1.1, offCpuNs := b.1.2 } }

/-! ## The shares of an interval -/

/-- How far into `[S, E)` the first `b` buckets of width `w` reach. -/
def reached (w S E b : ℕ) : ℕ := min (max (b * w) S) E

theorem bucketShare_eq {w S E b : ℕ} (hw : 0 < w) (hE : E ≤ u64Max) (hSE : S < E)
    (hfirst : S / w ≤ b) (hlast : b ≤ (E - 1) / w) :
    bucketShare w S E b = reached w S E (b + 1) - reached w S E b := by
  have hstart : b * w < E := by
    have hle : b * w ≤ E - 1 := (Nat.mul_le_mul_right w hlast).trans (Nat.div_mul_le_self _ w)
    omega
  have hstop : S < (b + 1) * w := by
    have hlt := Nat.lt_div_mul_add hw (a := S)
    have hle : S / w * w ≤ b * w := Nat.mul_le_mul_right w hfirst
    rw [Nat.succ_mul]
    omega
  unfold bucketShare reached saturatingAdd64
  rw [Nat.succ_mul] at hstop ⊢
  omega

/-- The buckets of an interval share out exactly its length. -/
theorem sum_bucketShare {w S E : ℕ} (hw : 0 < w) (hE : E ≤ u64Max) (hSE : S < E) :
    ((List.range' (S / w) ((E - 1) / w + 1 - S / w)).map (bucketShare w S E)).sum = E - S := by
  have hfirst : S / w * w ≤ S := Nat.div_mul_le_self S w
  have horder : S / w ≤ (E - 1) / w := Nat.div_le_div_right (by omega)
  -- the first `n` of them reach as far as their last bucket does
  have hreach : ∀ n, n ≤ (E - 1) / w + 1 - S / w →
      ((List.range' (S / w) n).map (bucketShare w S E)).sum = reached w S E (S / w + n) - S := by
    intro n
    induction n with
    | zero =>
        intro _
        show 0 = _
        unfold reached
        rw [Nat.add_zero]
        omega
    | succ n ih =>
        intro hn
        have hshare := bucketShare_eq hw hE hSE (b := S / w + n) (by omega) (by omega)
        have hmono : reached w S E (S / w + n) ≤ reached w S E (S / w + n + 1) := by
          unfold reached
          rw [Nat.succ_mul]
          omega
        have hlow : S ≤ reached w S E (S / w + n) := by
          unfold reached
          omega
        rw [List.range'_1_concat, List.map_append, List.sum_append, ih (by omega), List.map_singleton,
          List.sum_singleton, hshare]
        show _ = reached w S E (S / w + n + 1) - S
        omega
  have hcover : E ≤ ((E - 1) / w + 1) * w := by
    have hlt := Nat.lt_div_mul_add hw (a := E - 1)
    rw [Nat.succ_mul]
    omega
  rw [hreach _ le_rfl, Nat.add_sub_cancel' (by omega)]
  unfold reached
  omega

/-! ## The on-CPU total -/

theorem totalOnCpuNs_addShare (self : TimelineSums) (onCpu : Bool) (b share : ℕ) :
    (self.addShare onCpu b share).totalOnCpuNs =
      self.totalOnCpuNs + if onCpu then toU64 share else 0 := by
  unfold TimelineSums.addShare
  have hzero : toU64 0 = 0 := map_zero (Sat.ofNatHom u64Max)
  split
  · rename_i hshare
    rw [hshare, hzero, ite_self, add_zero]
  · cases onCpu with
    | true => rfl
    | false => exact (add_zero self.totalOnCpuNs).symm

theorem totalOnCpuNs_foldl_addShare (share : ℕ → ℕ) (onCpu : Bool) (bs : List ℕ)
    (self : TimelineSums) :
    (bs.foldl (fun sums b => sums.addShare onCpu b (share b)) self).totalOnCpuNs =
      self.totalOnCpuNs + if onCpu then toU64 (bs.map share).sum else 0 := by
  induction bs generalizing self with
  | nil =>
      have hzero : toU64 0 = 0 := map_zero (Sat.ofNatHom u64Max)
      simp [hzero]
  | cons b bs ih =>
      have hadd : toU64 (share b + (bs.map share).sum) =
          toU64 (share b) + toU64 (bs.map share).sum := map_add (Sat.ofNatHom u64Max) _ _
      rw [List.foldl_cons, ih, totalOnCpuNs_addShare, List.map_cons, List.sum_cons, hadd]
      cases onCpu with
      | true => exact add_assoc _ _ _
      | false => exact add_assoc _ _ _

/-! ## What a state reached by recording knows -/

/-- Every interval's ends were noted, and times are `u64`. -/
structure Aggregator.Noted (agg : Aggregator) : Prop where
  intervals : ∀ t stats, agg.threads.lookup t = some stats → ∀ iv ∈ stats.intervals,
    iv.startNs ≤ agg.now ∧ iv.endNs ≤ agg.now
  session : agg.lastEventNs = none → agg.sessionStartNs = none
  fits : agg.now ≤ u64Max

/-- The times an event carries. -/
def Aggregator.Event.times : Aggregator.Event → List ℕ
  | .petSample _ s => [s.timestampNs]
  | .interval _ iv => [iv.startNs, iv.endNs]
  | .wakeup _ w => [w.timestampNs]

namespace Aggregator

theorem now_noteTimestamp (self : Aggregator) (ts : ℕ) :
    (self.noteTimestamp ts).now = max self.now ts := by
  unfold noteTimestamp now
  split
  · rename_i hzero
    rw [hzero, Nat.max_zero]
  · cases self.lastEventNs with
    | none => exact (Nat.zero_max ts).symm
    | some prev => rfl

/-- Noting a time keeps what was noted before within the session. -/
theorem Noted.noteTimestamp {self : Aggregator} (h : self.Noted) {ts : ℕ} (hts : ts ≤ u64Max) :
    (self.noteTimestamp ts).Noted where
  intervals t stats hstats iv hiv := by
    have hthreads : (self.noteTimestamp ts).threads = self.threads := by
      unfold Aggregator.noteTimestamp
      split <;> rfl
    rw [hthreads] at hstats
    obtain ⟨hstart, hend⟩ := h.intervals t stats hstats iv hiv
    rw [now_noteTimestamp]
    exact ⟨hstart.trans (le_max_left _ _), hend.trans (le_max_left _ _)⟩
  session := by
    unfold Aggregator.noteTimestamp
    split
    · exact h.session
    · intro hnone
      cases hnone
  fits := by
    rw [now_noteTimestamp]
    exact max_le h.fits hts

/-- Changing a thread keeps the noted times as long as its intervals are noted. -/
theorem Noted.modifyThread {self : Aggregator} (h : self.Noted) {tid : Tid}
    {f : ThreadStats → ThreadStats}
    (hf : ∀ stats, ∀ iv ∈ (f stats).intervals,
      iv ∈ stats.intervals ∨ (iv.startNs ≤ self.now ∧ iv.endNs ≤ self.now)) :
    (self.modifyThread tid f).Noted where
  intervals t stats hstats iv hiv := by
    show iv.startNs ≤ self.now ∧ iv.endNs ≤ self.now
    rcases eq_or_ne t tid with rfl | hne
    · have hinsert : stats = f ((self.threads.lookup t).getD {}) := by
        have hlookup : (self.threads.insert t (f ((self.threads.lookup t).getD {}))).lookup t =
            some stats := hstats
        rw [AList.lookup_insert] at hlookup
        exact (Option.some.inj hlookup).symm
      rw [hinsert] at hiv
      rcases hf _ iv hiv with hold | hnew
      · cases hlookup : self.threads.lookup t with
        | none =>
            rw [hlookup] at hold
            cases hold
        | some old =>
            rw [hlookup] at hold
            exact h.intervals t old hlookup iv hold
      · exact hnew
    · have hlookup : (self.threads.insert tid (f ((self.threads.lookup tid).getD {}))).lookup t =
          some stats := hstats
      rw [AList.lookup_insert_ne hne] at hlookup
      exact h.intervals t stats hlookup iv hiv
  session := h.session
  fits := h.fits

theorem mem_pushBounded {α : Type} {queue : List α} {a b : α} (h : b ∈ pushBounded queue a) :
    b ∈ queue ∨ b = a := by
  unfold pushBounded at h
  rw [List.mem_append, List.mem_singleton] at h
  refine h.imp_left fun h => ?_
  split at h
  · exact List.mem_of_mem_tail h
  · exact h

/-- An event that is recorded keeps the session noted: it spans all that is kept. -/
theorem Noted.record {self : Aggregator} (h : self.Noted) {event : Event}
    (hevent : ∀ ts ∈ event.times, ts ≤ u64Max) : (self.record event).Noted := by
  cases event with
  | petSample tid sample =>
      have hts := hevent sample.timestampNs (by simp [Event.times])
      show ((self.noteTimestamp sample.timestampNs).modifyThread tid fun stats =>
        { stats with petSamples := pushBounded stats.petSamples sample }).Noted
      exact (h.noteTimestamp hts).modifyThread fun stats iv hiv => Or.inl hiv
  | interval tid interval =>
      have hstart := hevent interval.startNs (by simp [Event.times])
      have hend := hevent interval.endNs (by simp [Event.times])
      show (((self.noteTimestamp interval.startNs).noteTimestamp interval.endNs).modifyThread tid
        fun stats => { stats with intervals := pushBounded stats.intervals interval }).Noted
      refine ((h.noteTimestamp hstart).noteTimestamp hend).modifyThread fun stats iv hiv => ?_
      rcases mem_pushBounded hiv with hold | rfl
      · exact Or.inl hold
      · right
        rw [now_noteTimestamp, now_noteTimestamp]
        omega
  | wakeup wakeeTid wakeup =>
      have hts := hevent wakeup.timestampNs (by simp [Event.times])
      show ((self.noteTimestamp wakeup.timestampNs).modifyThread wakeeTid fun stats =>
        { stats with wakeups := pushBounded stats.wakeups wakeup }).Noted
      exact (h.noteTimestamp hts).modifyThread fun stats iv hiv => Or.inl hiv

/-- Every state reached by recording `u64` times has noted its intervals. -/
theorem noted_replay {log : List Event} (h : ∀ event ∈ log, ∀ ts ∈ event.times, ts ≤ u64Max) :
    (replay log).Noted := by
  have hempty : ({} : Aggregator).Noted :=
    { intervals := fun t stats hstats => by cases hstats
      session := fun _ => rfl
      fits := Nat.zero_le _ }
  unfold replay
  generalize ({} : Aggregator) = self at hempty
  induction log generalizing self with
  | nil => exact hempty
  | cons event log ih =>
      rw [List.forall_mem_cons] at h
      exact ih h.2 _ (hempty.record h.1)

/-- The on-CPU time of a selection: the durations of its on-CPU intervals. -/
def onCpuTime (self : Aggregator) (tid : Option Tid) : ℕ :=
  (((self.iterIntervals tid).filter fun iv => iv.2.isOnCpu).map fun iv =>
    iv.2.durationAt self.now).sum

end Aggregator

theorem bucketSizeFor_pos (d : ℕ) : 0 < bucketSizeFor d := by
  unfold bucketSizeFor minBucketNs
  split <;> omega

/-- An interval that starts at or after the session start and ends by the last event is distributed
whole. -/
theorem totalOnCpuNs_addInterval {start now w : ℕ} (hw : 0 < w) (hnow : now ≤ u64Max)
    {iv : RawInterval} (hsession : start ≤ iv.startNs) (hstart : iv.startNs ≤ now)
    (hend : iv.endNs ≤ now) (self : TimelineSums) :
    (self.addInterval start now w ((now - start) / w + 1) iv).totalOnCpuNs =
      self.totalOnCpuNs + if iv.isOnCpu then toU64 (iv.durationAt now) else 0 := by
  have hendAt : (if iv.endNs = 0 then now else iv.endNs) = iv.endAt now := by
    unfold RawInterval.endAt
    rw [max_eq_left hstart]
  have hle : iv.endAt now ≤ now := by
    rw [← hendAt]
    split <;> omega
  unfold TimelineSums.addInterval
  rw [hendAt]
  dsimp only
  split
  · rename_i hempty
    have hduration : iv.durationAt now = 0 := Nat.sub_eq_zero_of_le hempty
    have hzero : toU64 0 = 0 := map_zero (Sat.ofNatHom u64Max)
    rw [hduration, hzero, ite_self, add_zero]
  · rename_i hrun
    have hlast : min ((iv.endAt now - start - 1) / w) ((now - start) / w + 1 - 1) =
        (iv.endAt now - start - 1) / w := by
      rw [Nat.add_sub_cancel]
      exact min_eq_left (Nat.div_le_div_right (by omega))
    rw [hlast, totalOnCpuNs_foldl_addShare,
      sum_bucketShare hw (by omega) (by omega : iv.startNs - start < iv.endAt now - start)]
    have hduration : iv.endAt now - start - (iv.startNs - start) = iv.durationAt now := by
      unfold RawInterval.durationAt
      omega
    rw [hduration]

/-- The timeline's on-CPU total is the on-CPU time of the selection, as long as every interval of it
starts at or after the session start. -/
theorem timeline_totalOnCpuNs {agg : Aggregator} (h : agg.Noted) (tid : Option Tid)
    (hsession : ∀ iv ∈ agg.iterIntervals tid, agg.sessionStartNs.getD 0 ≤ iv.2.startNs) :
    (buildTimelineUpdate agg tid).totalOnCpuNs = toU64 (agg.onCpuTime tid) := by
  -- the recording ends where an open interval is taken to end
  have hlast : agg.lastEventNs.getD (agg.sessionStartNs.getD 0) = agg.now := by
    unfold Aggregator.now
    cases hnone : agg.lastEventNs with
    | none =>
        rw [h.session hnone]
        rfl
    | some last => rfl
  have hnoted : ∀ iv ∈ agg.iterIntervals tid, iv.2.startNs ≤ agg.now ∧ iv.2.endNs ≤ agg.now := by
    intro iv hiv
    obtain ⟨t, -, hiv⟩ := List.mem_flatMap.mp hiv
    obtain ⟨raw, hraw, rfl⟩ := List.mem_map.mp hiv
    cases hlookup : agg.threads.lookup t with
    | none =>
        rw [hlookup] at hraw
        cases hraw
    | some stats =>
        rw [hlookup] at hraw
        exact h.intervals t stats hlookup raw hraw
  unfold buildTimelineUpdate Aggregator.onCpuTime
  dsimp only
  rw [hlast]
  generalize agg.iterIntervals tid = ivs at hsession hnoted
  generalize hsums : ({ onCpuPerBucket := _, offCpuPerBucket := _ } : TimelineSums) = sums
  have htotal : sums.totalOnCpuNs = 0 := by
    rw [← hsums]
  -- by induction over the intervals, from any sums
  have hgeneral : ∀ sums : TimelineSums,
      ((ivs.map Prod.snd).foldl (TimelineSums.addInterval (agg.sessionStartNs.getD 0) agg.now
        (bucketSizeFor (agg.now - agg.sessionStartNs.getD 0))
        ((agg.now - agg.sessionStartNs.getD 0) /
          bucketSizeFor (agg.now - agg.sessionStartNs.getD 0) + 1)) sums).totalOnCpuNs =
      sums.totalOnCpuNs + toU64 ((ivs.filter fun iv => iv.2.isOnCpu).map fun iv =>
        iv.2.durationAt agg.now).sum := by
    clear hsums htotal
    induction ivs with
    | nil =>
        intro sums
        exact (add_zero sums.totalOnCpuNs).symm.trans
          (congrArg _ (map_zero (Sat.ofNatHom u64Max)).symm)
    | cons iv ivs ih =>
        intro sums
        rw [List.forall_mem_cons] at hsession hnoted
        rw [List.map_cons, List.foldl_cons, ih hsession.2 hnoted.2,
          totalOnCpuNs_addInterval (bucketSizeFor_pos _) h.fits hsession.1 hnoted.1.1 hnoted.1.2,
          add_assoc]
        congr 1
        cases hcpu : iv.2.isOnCpu with
        | true =>
            rw [List.filter_cons_of_pos (by exact hcpu), List.map_cons, List.sum_cons]
            exact (map_add (Sat.ofNatHom u64Max) _ _).symm
        | false =>
            rw [List.filter_cons_of_neg (by simp [hcpu])]
            exact zero_add _
  rw [hgeneral, htotal, zero_add]

end Stax.Live
