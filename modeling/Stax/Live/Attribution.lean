/-
# Stax.Live.Attribution — which samples an interval's time goes to.

The walk over a thread's intervals keeps one cursor into its samples.  Where that cursor stands when
an interval is reached depends only on the latest start of the on-CPU intervals so far, so the
samples an interval is handed have a closed form for every log.  When the samples are in time order
and the on-CPU intervals follow one another, they are simply the samples inside the interval, and
the whole attribution is the naive one: each sample that passes the predicate asks the one on-CPU
interval it lies in for its share.
-/
import Stax.Live.Credits
import Stax.Lib.Windows

namespace Stax.Live

open Stax.Lib

/-! ## Intervals that count as on-CPU time -/

/-- An interval in which the thread was running. -/
def RawInterval.isOnCpu (self : RawInterval) : Bool :=
  match self.kind with
  | .onCpu => true
  | .offCpu .. => false

/-- An on-CPU interval of non-zero duration. -/
def RawInterval.ran (self : RawInterval) (now : ℕ) : Bool :=
  self.isOnCpu && decide (self.durationAt now ≠ 0)

/-- An interval as a stretch of time, up to a moment where it is still open. -/
def RawInterval.span (self : RawInterval) (now : ℕ) : Span ℕ := ⟨self.startNs, self.endAt now⟩

theorem RawInterval.ran_iff {iv : RawInterval} {now : ℕ} :
    iv.ran now = true ↔ iv.kind = .onCpu ∧ iv.startNs < iv.endAt now := by
  unfold ran isOnCpu durationAt
  cases iv.kind <;> simp
  omega

/-! ## One turn of the walk -/

section Step

variable (binaries : BinaryRegistry) (predicate : EventCtx → Bool) (now : ℕ) (tid : Tid)

/-- What an interval charges when the samples inside it are `inside`. -/
def intervalCharges (interval : RawInterval) (inside : List PetSample) : List Charge :=
  if interval.durationAt now = 0 then []
  else
    match interval.kind with
    | .onCpu =>
      chargeOnCpu (interval.durationAt now) (inside.filter fun s => predicate (.petSample tid s))
    | .offCpu stack _ _ =>
      if predicate (.interval tid interval) then
        [.offCpu (interval.durationAt now) (offCpuReasonOf binaries stack) stack]
      else []

/-- What the cursor shows of an interval. -/
def insideOf (pending : List PetSample) (interval : RawInterval) : List PetSample :=
  (pending.dropWhile (·.timestampNs < interval.startNs)).takeWhile
    (·.timestampNs < interval.endAt now)

theorem attribution_emit (pending : List PetSample) (interval : RawInterval) :
    (attribution binaries predicate now tid).emit pending interval =
      intervalCharges binaries predicate now tid interval (insideOf now pending interval) := by
  obtain ⟨start, stop, kind⟩ := interval
  show (attributeInterval binaries predicate now tid pending ⟨start, stop, kind⟩).2 = _
  unfold attributeInterval intervalCharges insideOf
  by_cases hzero : RawInterval.durationAt ⟨start, stop, kind⟩ now = 0
  · rw [if_pos hzero, if_pos hzero]
  · rw [if_neg hzero, if_neg hzero]
    cases kind with
    | onCpu => rfl
    | offCpu stack wakerTid wakerUserStack =>
        dsimp only
        split <;> rfl

/-- Only an on-CPU interval of non-zero duration moves the cursor. -/
theorem attribution_next (pending : List PetSample) (interval : RawInterval) :
    (attribution binaries predicate now tid).next pending interval =
      if interval.ran now then pending.dropWhile (·.timestampNs < interval.startNs)
      else pending := by
  obtain ⟨start, stop, kind⟩ := interval
  show (attributeInterval binaries predicate now tid pending ⟨start, stop, kind⟩).1 = _
  unfold attributeInterval RawInterval.ran
  by_cases hzero : RawInterval.durationAt ⟨start, stop, kind⟩ now = 0
  · rw [if_pos hzero]
    simp [hzero]
  · rw [if_neg hzero]
    cases kind with
    | onCpu => simp [RawInterval.isOnCpu, hzero]
    | offCpu stack wakerTid wakerUserStack =>
        simp only [RawInterval.isOnCpu, Bool.false_and, Bool.false_eq_true, if_false]
        split <;> rfl

/-! ## The cursor in closed form -/

/-- The latest start of the on-CPU intervals of non-zero duration so far. -/
def latestStart (prior : List RawInterval) : ℕ :=
  prior.foldl (fun latest iv => if iv.ran now then max latest iv.startNs else latest) 0

theorem latestStart_concat (prior : List RawInterval) (iv : RawInterval) :
    latestStart now (prior ++ [iv]) =
      if iv.ran now then max (latestStart now prior) iv.startNs else latestStart now prior := by
  simp [latestStart, List.foldl_append]

theorem latestStart_le {prior : List RawInterval} {c : ℕ}
    (h : ∀ iv ∈ prior, iv.ran now → iv.startNs ≤ c) : latestStart now prior ≤ c := by
  induction prior using List.reverseRecOn with
  | nil => exact Nat.zero_le c
  | append_singleton prior iv ih =>
      rw [List.forall_mem_append, List.forall_mem_singleton] at h
      rw [latestStart_concat]
      split
      · rename_i hran
        exact max_le (ih h.1) (h.2 hran)
      · exact ih h.1

theorem run_attribution (samples : List PetSample) (prior : List RawInterval) :
    (attribution binaries predicate now tid).run samples prior =
      samples.dropWhile (·.timestampNs < latestStart now prior) := by
  induction prior using List.reverseRecOn with
  | nil =>
      show samples = samples.dropWhile (·.timestampNs < 0)
      simp only [Nat.not_lt_zero, decide_false]
      exact (List.dropWhile_eq_self_iff.mpr fun _ => Bool.false_ne_true).symm
  | append_singleton prior iv ih =>
      rw [Transducer.run_concat, attribution_next, latestStart_concat, ih]
      split
      · exact Windows.dropWhile_dropWhile_lt _ _ _ _
      · rfl

/-- The samples an interval is handed after the intervals `prior`: from the first one at or after
the latest on-CPU start so far, its own included, up to the first at or after its end. -/
def handed (samples : List PetSample) (prior : List RawInterval) (interval : RawInterval) :
    List PetSample :=
  (samples.dropWhile (·.timestampNs < max (latestStart now prior) interval.startNs)).takeWhile
    (·.timestampNs < interval.endAt now)

/-- The walk charges every interval for the samples it is handed. -/
theorem attribution_outputs (samples : List PetSample) (intervals : List RawInterval) :
    (attribution binaries predicate now tid).outputs samples intervals =
      (Transducer.observe fun prior iv =>
        intervalCharges binaries predicate now tid iv (handed now samples prior iv)).outputs []
          intervals := by
  induction intervals using List.reverseRecOn with
  | nil => rfl
  | append_singleton intervals iv ih =>
      rw [Transducer.outputs_concat, Transducer.outputs_observe_concat, ih, run_attribution,
        attribution_emit, insideOf, Windows.dropWhile_dropWhile_lt]
      rfl

end Step

/-! ## The naive attribution -/

/-- Samples in time order, and on-CPU intervals that follow one another; off-CPU intervals may stand
anywhere between them. -/
structure TimeOrdered (now : ℕ) (stats : ThreadStats) : Prop where
  samples : stats.petSamples.Pairwise fun s s' => s.timestampNs ≤ s'.timestampNs
  intervals : (stats.intervals.filter (·.ran now)).Pairwise fun iv iv' =>
    iv.endAt now ≤ iv'.startNs

section Naive

variable (binaries : BinaryRegistry) (predicate : EventCtx → Bool) (now : ℕ) (tid : Tid)

/-- The samples whose timestamp lies in the interval. -/
def samplesIn (samples : List PetSample) (interval : RawInterval) : List PetSample :=
  samples.filter fun s => (interval.span now).Contains s.timestampNs

/-- What an interval charges when it looks at all the samples. -/
def naiveCharges (samples : List PetSample) (interval : RawInterval) : List Charge :=
  intervalCharges binaries predicate now tid interval (samplesIn now samples interval)

/-- The share of one of `k` samples. -/
def shareOf (durationNs k : ℕ) : Option ℕ :=
  if durationNs / k = 0 then none else some (durationNs / k)

/-- What a sample is credited: nothing outside every on-CPU interval or when it does not pass,
otherwise its share of the interval it lies in. -/
def naiveShare (stats : ThreadStats) (s : PetSample) : Option ℕ :=
  (stats.intervals.find? fun iv => iv.ran now && (iv.span now).Contains s.timestampNs).bind
    fun iv =>
      if predicate (.petSample tid s) then
        shareOf (iv.durationAt now)
          ((samplesIn now stats.petSamples iv).filter fun s => predicate (.petSample tid s)).length
      else none

/-- The on-CPU credits of a charge: each matching sample with its share. -/
def Charge.shares : Charge → List (PetSample × ℕ)
  | .onCpu _ creditNs matching => matching.map fun s => (s, creditNs)
  | .offCpu .. => []

/-- Intervals without on-CPU time do not look at the samples. -/
theorem intervalCharges_of_not_ran {interval : RawInterval} (h : interval.ran now = false)
    (inside inside' : List PetSample) :
    intervalCharges binaries predicate now tid interval inside =
      intervalCharges binaries predicate now tid interval inside' := by
  obtain ⟨start, stop, kind⟩ := interval
  unfold intervalCharges
  split
  · rfl
  · rename_i hduration
    cases kind with
    | onCpu => simp [RawInterval.ran, RawInterval.isOnCpu, hduration] at h
    | offCpu stack wakerTid wakerUserStack => rfl

variable {now} {stats : ThreadStats}

/-- In a time-ordered log an on-CPU interval is handed the samples inside it. -/
theorem handed_eq_samplesIn (h : TimeOrdered now stats) {prior post : List RawInterval}
    {iv : RawInterval} (hsplit : stats.intervals = prior ++ iv :: post) (hran : iv.ran now = true) :
    handed now stats.petSamples prior iv = samplesIn now stats.petSamples iv := by
  have hintervals := h.intervals
  rw [hsplit, List.filter_append, List.filter_cons_of_pos (by exact hran),
    List.pairwise_append] at hintervals
  -- every earlier on-CPU interval ended, hence started, before this one
  have hlatest : latestStart now prior ≤ iv.startNs := by
    refine latestStart_le now fun iv' hiv' hran' => ?_
    have hend := hintervals.2.2 iv' (List.mem_filter.mpr ⟨hiv', hran'⟩) iv List.mem_cons_self
    exact (RawInterval.ran_iff.mp hran').2.le.trans hend
  rw [handed, max_eq_right hlatest]
  exact Windows.window_eq_filter h.samples (iv.span now)

/-- In a time-ordered log the walk charges what the naive attribution charges. -/
theorem attribution_outputs_eq_naive (h : TimeOrdered now stats) :
    (attribution binaries predicate now tid).outputs stats.petSamples stats.intervals =
      stats.intervals.flatMap (naiveCharges binaries predicate now tid stats.petSamples) := by
  rw [attribution_outputs]
  refine Transducer.outputs_observe_eq_flatMap fun prior iv post hsplit => ?_
  cases hran : iv.ran now with
  | true => rw [naiveCharges, handed_eq_samplesIn h hsplit hran]
  | false => exact intervalCharges_of_not_ran binaries predicate now tid hran _ _

/-- The shares of one interval, sample by sample. -/
theorem shares_chargeOnCpu (durationNs : ℕ) (pass : PetSample → Bool) (inside : List PetSample) :
    (chargeOnCpu durationNs (inside.filter pass)).flatMap Charge.shares =
      inside.filterMap fun s =>
        (if pass s then shareOf durationNs (inside.filter pass).length else none).map (s, ·) := by
  generalize hk : (inside.filter pass).length = k
  have hfilter : (inside.filterMap fun s =>
      (if pass s then shareOf durationNs k else none).map (s, ·)) =
        (inside.filter pass).filterMap fun s => (shareOf durationNs k).map (s, ·) := by
    rw [List.filterMap_filter]
    refine List.filterMap_congr fun s _ => ?_
    split <;> rfl
  rw [hfilter, chargeOnCpu]
  split
  · rename_i hnil
    rw [hnil]
    rfl
  · rw [hk, shareOf]
    split
    · simp
    · simp [Charge.shares]

/-- In a time-ordered log every sample is credited what the interval it lies in gives it. -/
theorem shares_naive (h : TimeOrdered now stats) :
    (stats.intervals.flatMap (naiveCharges binaries predicate now tid stats.petSamples)).flatMap
        Charge.shares =
      stats.petSamples.filterMap fun s =>
        (naiveShare predicate now tid stats s).map (s, ·) := by
  -- an interval the thread ran in hands its share to the samples that pass
  have hran (iv : RawInterval) (hiv : iv.ran now = true) :
      (naiveCharges binaries predicate now tid stats.petSamples iv).flatMap Charge.shares =
        (samplesIn now stats.petSamples iv).filterMap fun s =>
          (if predicate (.petSample tid s) then
            shareOf (iv.durationAt now) ((samplesIn now stats.petSamples iv).filter fun s =>
              predicate (.petSample tid s)).length
          else none).map (s, ·) := by
    rw [← shares_chargeOnCpu]
    obtain ⟨hkind, hlt⟩ := RawInterval.ran_iff.mp hiv
    have hduration : ¬ iv.durationAt now = 0 := by
      unfold RawInterval.durationAt
      omega
    rw [naiveCharges, intervalCharges, if_neg hduration, hkind]
  -- every other interval hands out nothing
  have hrest (iv : RawInterval) (hiv : ¬ iv.ran now = true) :
      (naiveCharges binaries predicate now tid stats.petSamples iv).flatMap Charge.shares = [] := by
    obtain ⟨start, stop, kind⟩ := iv
    unfold naiveCharges intervalCharges
    split
    · rfl
    · rename_i hduration
      cases kind with
      | onCpu => exact absurd (by simp [RawInterval.ran, RawInterval.isOnCpu, hduration]) hiv
      | offCpu stack wakerTid wakerUserStack =>
          dsimp only
          split <;> rfl
  have hspans : (stats.intervals.filter (·.ran now)).Pairwise fun iv iv' =>
      (iv.span now).stop ≤ (iv'.span now).start := h.intervals
  -- the intervals follow one another, so a sample lies in one of them at most
  have hwindows := Windows.flatMap_windows (·.span now) (fun iv s =>
      (if predicate (.petSample tid s) then
        shareOf (iv.durationAt now) ((samplesIn now stats.petSamples iv).filter fun s =>
          predicate (.petSample tid s)).length
      else none).map (s, ·)) hspans h.samples
  calc (stats.intervals.flatMap (naiveCharges binaries predicate now tid stats.petSamples)).flatMap
        Charge.shares
      = (stats.intervals.filter (·.ran now)).flatMap fun iv =>
          (samplesIn now stats.petSamples iv).filterMap fun s =>
            (if predicate (.petSample tid s) then
              shareOf (iv.durationAt now) ((samplesIn now stats.petSamples iv).filter fun s =>
                predicate (.petSample tid s)).length
            else none).map (s, ·) := by
        rw [List.flatMap_assoc]
        generalize stats.intervals = intervals
        induction intervals with
        | nil => rfl
        | cons iv intervals ih =>
            rw [List.flatMap_cons, ih]
            by_cases hiv : iv.ran now = true
            · rw [List.filter_cons_of_pos (by exact hiv), List.flatMap_cons, hran iv hiv]
            · rw [List.filter_cons_of_neg (by exact hiv), hrest iv hiv, List.nil_append]
    _ = stats.petSamples.filterMap fun s =>
          (naiveShare predicate now tid stats s).map (s, ·) := by
        refine hwindows.trans (List.filterMap_congr fun s _ => ?_)
        have hfind : (stats.intervals.filter (·.ran now)).find?
            (fun iv => (iv.span now).Contains s.timestampNs) =
              stats.intervals.find? fun iv =>
                iv.ran now && (iv.span now).Contains s.timestampNs := by
          rw [List.find?_filter]
          congr 1
          funext iv
          simp
        rw [naiveShare, hfind, Option.map_bind]
        rfl

/-- A share is never more than its part, and the shares of an interval fall short of its duration
by less than one nanosecond a sample. -/
theorem shareOf_bounds {durationNs k share : ℕ} (h : shareOf durationNs k = some share) :
    share = durationNs / k ∧ share * k ≤ durationNs ∧ durationNs < share * k + k := by
  unfold shareOf at h
  split at h
  · cases h
  · rename_i hshare
    cases h
    have hk : 0 < k := by
      rcases Nat.eq_zero_or_pos k with rfl | hk
      · exact absurd (Nat.div_zero durationNs) hshare
      · exact hk
    refine ⟨rfl, Nat.div_mul_le_self durationNs k, ?_⟩
    have hlt := Nat.lt_div_mul_add hk (a := durationNs)
    omega

end Naive

/-! ## The aggregation -/

section Charges

variable {binaries : BinaryRegistry} {predicate : EventCtx → Bool} {now : ℕ} {tid : Tid}

theorem mem_chargeOnCpu {durationNs : ℕ} {matching : List PetSample} {ch : Charge} :
    ch ∈ chargeOnCpu durationNs matching ↔
      matching ≠ [] ∧ durationNs / matching.length ≠ 0 ∧
        ch = .onCpu durationNs (durationNs / matching.length) matching := by
  unfold chargeOnCpu
  split
  · simp [*]
  · split <;> simp [*]

/-- An on-CPU interval is charged when its passing samples can share its time: there is one, and no
more than it has nanoseconds. -/
theorem chargeOnCpu_eq (durationNs : ℕ) (matching : List PetSample) :
    chargeOnCpu durationNs matching =
      if 1 ≤ matching.length ∧ matching.length ≤ durationNs then
        [.onCpu durationNs (durationNs / matching.length) matching]
      else [] := by
  have hpos : 1 ≤ matching.length ↔ matching ≠ [] := List.length_pos_iff
  unfold chargeOnCpu
  split
  · rename_i hnil
    rw [if_neg fun h => hpos.mp h.1 hnil]
  · rename_i hne
    have hshare : durationNs / matching.length = 0 ↔ durationNs < matching.length :=
      Nat.div_eq_zero_iff_lt (hpos.mpr hne)
    split
    · rename_i hzero
      rw [if_neg fun h => absurd h.2 (not_le.mpr (hshare.mp hzero))]
    · rename_i hcredit
      rw [if_pos ⟨hpos.mpr hne, not_lt.mp fun hlt => hcredit (hshare.mpr hlt)⟩]

/-- An on-CPU charge is an interval's duration with its samples' shares. -/
theorem onCpu_mem_intervalCharges {interval : RawInterval} {inside : List PetSample}
    {durationNs creditNs : ℕ} {matching : List PetSample}
    (h : Charge.onCpu durationNs creditNs matching ∈
      intervalCharges binaries predicate now tid interval inside) :
    interval.kind = .onCpu ∧ durationNs = interval.durationAt now ∧
      matching = inside.filter (fun s => predicate (.petSample tid s)) ∧
      shareOf durationNs matching.length = some creditNs := by
  obtain ⟨start, stop, kind⟩ := interval
  unfold intervalCharges at h
  split at h
  · cases h
  · cases kind with
    | onCpu =>
        obtain ⟨-, hshare, heq⟩ := mem_chargeOnCpu.mp h
        cases heq
        exact ⟨rfl, rfl, rfl, if_neg hshare⟩
    | offCpu stack wakerTid wakerUserStack =>
        dsimp only at h
        split at h
        · cases List.mem_singleton.mp h
        · cases h

end Charges

namespace Aggregator

open Aggregation

variable {self : Aggregator} {binaries : BinaryRegistry} {predicate : EventCtx → Bool}

theorem mem_charges {tids : List Tid} {ch : Charge} :
    ch ∈ self.charges binaries predicate tids ↔
      ∃ t ∈ tids, ∃ stats, self.threads.lookup t = some stats ∧
        ch ∈ (attribution binaries predicate self.now t).outputs stats.petSamples
          stats.intervals := by
  rw [charges, List.mem_flatMap]
  refine exists_congr fun t => and_congr_right fun _ => ?_
  unfold threadCharges
  cases self.threads.lookup t <;> simp

end Aggregator

end Stax.Live
