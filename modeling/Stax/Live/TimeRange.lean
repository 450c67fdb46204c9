/-
# Stax.Live.TimeRange — the time reported for a range.

Under a time range an interval counts in full or not at all: an off-CPU interval when it starts in
the range, an on-CPU interval when a sample handed to it lies in the range.  When a thread's
intervals are disjoint, the time reported for it is therefore bounded by the length of the range
exactly as far as the counted intervals lie inside the range.
-/
import Stax.Live.Filter
import Stax.Lib.Spans

namespace Stax.Live

open Stax.Lib

/-- The duration of a charge, on or off a CPU. -/
def Charge.durationNs : Charge → ℕ
  | .onCpu durationNs _ _ => durationNs
  | .offCpu durationNs _ _ => durationNs

/-- The two totals are together at most the charged durations. -/
theorem Aggregation.totals_le_durations (chs : List Charge) :
    (ofCharges chs).totalOnCpuNs.val + (ofCharges chs).totalOffCpu.totalNs.val ≤
      (chs.map Charge.durationNs).sum := by
  rw [totalOnCpuNs_ofCharges, totalOffCpu_ofCharges]
  induction chs with
  | nil => exact Nat.zero_le _
  | cons ch chs ih =>
      rw [List.map_cons, List.map_cons, List.map_cons, List.sum_cons, List.sum_cons, List.sum_cons,
        OffCpuBreakdown.totalNs_add, Sat.val_add, Sat.val_add]
      have hone : (toU64 ch.onCpuDuration).val + ch.offCpuTime.totalNs.val ≤ ch.durationNs := by
        cases ch with
        | onCpu durationNs creditNs matching =>
            show min durationNs u64Max + (0 : OffCpuBreakdown).totalNs.val ≤ durationNs
            rw [OffCpuBreakdown.totalNs_zero, Sat.val_zero]
            omega
        | offCpu durationNs reason stack =>
            show (toU64 0).val +
              (OffCpuBreakdown.single reason (toU64 durationNs)).totalNs.val ≤ durationNs
            rw [OffCpuBreakdown.totalNs_single, Sat.val_ofNat, Sat.val_ofNat]
            omega
      omega

/-- A filter that has only a time range. -/
def TimeRange.filter (range : TimeRange) : LiveFilter := { timeRange := some range }

section Range

variable (binaries : BinaryRegistry) (range : TimeRange) (session now : ℕ) (tid : Tid)

/-- The samples of an interval that lie in the range. -/
def inRange (samples : List PetSample) (prior : List RawInterval) (iv : RawInterval) :
    List PetSample :=
  (handed now samples prior iv).filter fun s => range.holds session s.timestampNs

/-- Whether an interval counts: off-CPU when it starts in the range, on-CPU when samples of it lie
in the range, and no more than it has nanoseconds. -/
def counted (samples : List PetSample) (prior : List RawInterval) (iv : RawInterval) : Bool :=
  iv.durationAt now ≠ 0 &&
    match iv.kind with
    | .onCpu => 1 ≤ (inRange range session now samples prior iv).length &&
        (inRange range session now samples prior iv).length ≤ iv.durationAt now
    | .offCpu .. => range.holds session iv.startNs

/-- What the walk charges for an interval it meets after `prior`. -/
def contribution (samples : List PetSample) (prior : List RawInterval) (iv : RawInterval) : ℕ :=
  let walk := attribution binaries (makePredicate range.filter session binaries) now tid
  ((walk.emit (walk.run samples prior) iv).map Charge.durationNs).sum

theorem makePredicate_range (ctx : EventCtx) :
    makePredicate range.filter session binaries ctx = range.holds session ctx.timestamp := by
  unfold makePredicate TimeRange.filter
  simp

/-- An interval is charged with its whole duration, or not at all. -/
theorem sum_durationNs_intervalCharges (samples : List PetSample) (prior : List RawInterval)
    (iv : RawInterval) :
    ((intervalCharges binaries (makePredicate range.filter session binaries) now tid iv
      (handed now samples prior iv)).map Charge.durationNs).sum =
        if counted range session now samples prior iv then iv.durationAt now else 0 := by
  have hkept : ((handed now samples prior iv).filter fun s =>
      makePredicate range.filter session binaries (.petSample tid s)) =
        inRange range session now samples prior iv := by
    simp only [makePredicate_range, EventCtx.timestamp, inRange]
  unfold intervalCharges counted
  rw [hkept, makePredicate_range]
  generalize inRange range session now samples prior iv = inside
  obtain ⟨start, stop, kind⟩ := iv
  split
  · rename_i hzero
    simp [hzero]
  · rename_i hduration
    cases kind with
    | onCpu =>
        dsimp only
        rw [chargeOnCpu_eq]
        split
        · rename_i hshares
          simp [hduration, hshares, Charge.durationNs]
        · rename_i hnot
          rw [if_neg fun h => hnot (by simpa [hduration] using h)]
          rfl
    | offCpu stack wakerTid wakerUserStack =>
        dsimp only [EventCtx.timestamp]
        by_cases hholds : range.holds session start = true
        · simp [hduration, hholds, Charge.durationNs]
        · simp [hholds]

/-- A counted interval contributes its whole duration, any other nothing. -/
theorem contribution_eq (samples : List PetSample) (prior : List RawInterval) (iv : RawInterval) :
    contribution binaries range session now tid samples prior iv =
      if counted range session now samples prior iv then iv.durationAt now else 0 := by
  rw [← sum_durationNs_intervalCharges binaries range session now tid]
  unfold contribution
  dsimp only
  rw [run_attribution, attribution_emit, insideOf, Windows.dropWhile_dropWhile_lt]
  rfl

/-- The spans of the counted intervals. -/
def countedSpans (stats : ThreadStats) : List (Span ℕ) :=
  (Transducer.observe fun prior iv =>
    if counted range session now stats.petSamples prior iv then [iv.span now] else []).outputs []
      stats.intervals

theorem countedSpans_sublist (stats : ThreadStats) :
    (countedSpans range session now stats).Sublist (stats.intervals.map (·.span now)) := by
  have hall : (Transducer.observe fun _ (iv : RawInterval) => [iv.span now]).outputs []
      stats.intervals = stats.intervals.map (·.span now) :=
    (Transducer.outputs_observe_eq_flatMap (g := fun iv : RawInterval => [iv.span now])
      fun _ _ _ _ => rfl).trans List.map_eq_flatMap.symm
  rw [← hall]
  refine Transducer.outputs_observe_sublist fun prior iv post _ => ?_
  show (if _ then [iv.span now] else []).Sublist [iv.span now]
  split
  · exact List.Sublist.refl _
  · exact List.nil_sublist _

/-- A thread is charged the lengths of the counted spans. -/
theorem sum_durationNs_outputs (stats : ThreadStats) :
    (((attribution binaries (makePredicate range.filter session binaries) now tid).outputs
      stats.petSamples stats.intervals).map Charge.durationNs).sum =
        ((countedSpans range session now stats).map fun s => s.stop - s.start).sum := by
  rw [attribution_outputs, countedSpans]
  induction stats.intervals using List.reverseRecOn with
  | nil => rfl
  | append_singleton intervals iv ih =>
      rw [Transducer.outputs_observe_concat, Transducer.outputs_observe_concat, List.map_append,
        List.map_append, List.sum_append, List.sum_append, ih, sum_durationNs_intervalCharges]
      congr 1
      split
      · exact (Nat.add_zero _).symm
      · rfl

end Range

namespace Aggregator

variable (self : Aggregator) (binaries : BinaryRegistry) (range : TimeRange)

/-- The length of the part of an interval inside the range. -/
def partInside (iv : RawInterval) : ℕ :=
  min (iv.endAt self.now) (self.sessionStartNs.getD 0 + range.endNs) -
    max iv.startNs (self.sessionStartNs.getD 0 + range.startNs)

/-- The time reported for a thread is at most the length of the range, and no interval contributes
more than its part inside the range. -/
def RangeBounds (t : Tid) : Prop :=
  let agg := aggregateWithFilter self binaries (some t) range.filter
  agg.totalOnCpuNs.val + agg.totalOffCpu.totalNs.val ≤ range.endNs - range.startNs ∧
  ∀ stats, self.threads.lookup t = some stats →
    Stepwise (fun prior iv =>
      contribution binaries range (self.sessionStartNs.getD 0) self.now t stats.petSamples prior iv
        ≤ self.partInside range iv) stats.intervals

/-- Every counted interval lies inside the range. -/
def CountedInside (t : Tid) : Prop :=
  ∀ stats, self.threads.lookup t = some stats →
    Stepwise (fun prior iv =>
      counted range (self.sessionStartNs.getD 0) self.now stats.petSamples prior iv = true →
        self.sessionStartNs.getD 0 + range.startNs ≤ iv.startNs ∧
          iv.endAt self.now ≤ self.sessionStartNs.getD 0 + range.endNs) stats.intervals

theorem le_partInside_iff {iv : RawInterval} (hrun : iv.durationAt self.now ≠ 0) :
    iv.durationAt self.now ≤ self.partInside range iv ↔
      self.sessionStartNs.getD 0 + range.startNs ≤ iv.startNs ∧
        iv.endAt self.now ≤ self.sessionStartNs.getD 0 + range.endNs := by
  unfold partInside
  unfold RawInterval.durationAt at hrun ⊢
  omega

/-- The time reported for a thread is at most the lengths of the counted spans. -/
theorem reported_le (t : Tid) (stats : ThreadStats) (hstats : self.threads.lookup t = some stats) :
    (aggregateWithFilter self binaries (some t) range.filter).totalOnCpuNs.val +
        (aggregateWithFilter self binaries (some t) range.filter).totalOffCpu.totalNs.val ≤
      ((countedSpans range (self.sessionStartNs.getD 0) self.now stats).map fun s =>
        s.stop - s.start).sum := by
  rw [← sum_durationNs_outputs binaries range (self.sessionStartNs.getD 0) self.now t,
    aggregateWithFilter_eq, aggregate_some, threadCharges, hstats]
  exact Aggregation.totals_le_durations _

/-- For a thread whose intervals are disjoint, the time reported for a range is bounded by it
exactly when every counted interval lies inside the range: a counted interval contributes its whole
duration, any other nothing. -/
theorem range_bounds_iff (t : Tid)
    (hdisjoint : ∀ stats, self.threads.lookup t = some stats →
      (stats.intervals.map (·.span self.now)).Pairwise Span.Disjoint) :
    (∀ samples prior iv,
      contribution binaries range (self.sessionStartNs.getD 0) self.now t samples prior iv =
        if counted range (self.sessionStartNs.getD 0) self.now samples prior iv then
          iv.durationAt self.now
        else 0) ∧
    (self.RangeBounds binaries range t ↔ self.CountedInside range t) := by
  refine ⟨contribution_eq binaries range _ _ t, ?_, ?_⟩
  · rintro ⟨-, hparts⟩ stats hstats prior iv post hsplit hcounted
    have hpart := hparts stats hstats prior iv post hsplit
    have hrun : iv.durationAt self.now ≠ 0 := by
      unfold counted at hcounted
      simp only [Bool.and_eq_true, decide_eq_true_eq] at hcounted
      exact hcounted.1
    -- what counts is reported with its whole duration
    have hwhole := contribution_eq binaries range (self.sessionStartNs.getD 0) self.now t
      stats.petSamples prior iv
    rw [if_pos hcounted] at hwhole
    have hpart : iv.durationAt self.now ≤ self.partInside range iv := hwhole ▸ hpart
    exact (self.le_partInside_iff range hrun).mp hpart
  · intro hinside
    refine ⟨?_, fun stats hstats prior iv post hsplit => ?_⟩
    · cases hstats : self.threads.lookup t with
      | none =>
          rw [aggregateWithFilter_eq, aggregate_some, threadCharges, hstats]
          exact (Aggregation.totals_le_durations []).trans (Nat.zero_le _)
      | some stats =>
          refine (self.reported_le binaries range t stats hstats).trans ?_
          -- every span that is reported lies in the range
          have hspans : ∀ s ∈ countedSpans range (self.sessionStartNs.getD 0) self.now stats,
              self.sessionStartNs.getD 0 + range.startNs ≤ s.start ∧
                s.stop ≤ self.sessionStartNs.getD 0 + range.endNs := by
            intro s hs
            rw [countedSpans, Transducer.mem_outputs] at hs
            obtain ⟨prior, iv, post, hsplit, hemit⟩ := hs
            rw [Transducer.run_observe, List.nil_append] at hemit
            have hspan : s ∈ (if counted range (self.sessionStartNs.getD 0) self.now
                stats.petSamples prior iv then [iv.span self.now] else []) := hemit
            split at hspan
            · rename_i hcounted
              rw [List.mem_singleton.mp hspan]
              exact hinside stats hstats prior iv post hsplit hcounted
            · cases hspan
          -- and no two of them overlap, so together they fit into it
          have hone := Span.sum_length_le hspans fun x => Span.countP_le_one_of_disjoint
            ((hdisjoint stats hstats).sublist (countedSpans_sublist _ _ _ stats)) x
          omega
    · show contribution binaries range _ _ t stats.petSamples prior iv ≤ _
      rw [contribution_eq]
      split
      · rename_i hcounted
        rcases Nat.eq_zero_or_pos (iv.durationAt self.now) with hzero | hpos
        · rw [hzero]
          exact Nat.zero_le _
        · exact (self.le_partInside_iff range hpos.ne').mpr
            (hinside stats hstats prior iv post hsplit hcounted)
      · exact Nat.zero_le _

/-- Parked for twenty nanoseconds. -/
def longPark : Aggregator := replay
  [.interval 1 { startNs := 10, endNs := 30, kind := .offCpu [] none none }]

theorem longPark_disjoint : ∀ stats, longPark.threads.lookup 1 = some stats →
    (stats.intervals.map (·.span longPark.now)).Pairwise Span.Disjoint := by
  intro stats hstats
  cases hstats
  exact List.pairwise_singleton _ _

/-- A range of five nanoseconds reports all of it. -/
theorem longPark_exceeds_range :
    (∀ stats, longPark.threads.lookup 1 = some stats →
      (stats.intervals.map (·.span longPark.now)).Pairwise Span.Disjoint) ∧
    ¬ longPark.RangeBounds (fun _ => none) ⟨0, 5⟩ 1 := by
  refine ⟨longPark_disjoint, fun h => ?_⟩
  have htotal := h.1
  revert htotal
  decide +kernel

/-- Parked twice, for ten nanoseconds and then for fifteen. -/
def twoParks : Aggregator := replay
  [.interval 1 { startNs := 10, endNs := 20, kind := .offCpu [] none none },
    .interval 1 { startNs := 30, endNs := 45, kind := .offCpu [] none none }]

/-- A range that holds both intervals bounds them, one that the second crosses does not. -/
theorem range_bounds_twoParks :
    twoParks.RangeBounds (fun _ => none) ⟨0, 40⟩ 1 ∧
      ¬ twoParks.RangeBounds (fun _ => none) ⟨0, 22⟩ 1 := by
  have hdisjoint : ∀ stats, twoParks.threads.lookup 1 = some stats →
      (stats.intervals.map (·.span twoParks.now)).Pairwise Span.Disjoint := by
    intro stats hstats
    cases hstats
    refine List.pairwise_pair.mpr fun x hx => ?_
    obtain ⟨⟨-, hbefore⟩, hafter, -⟩ := hx
    exact absurd (lt_of_le_of_lt hafter hbefore) (by decide)
  constructor
  · refine (range_bounds_iff twoParks (fun _ => none) ⟨0, 40⟩ 1 hdisjoint).2.mpr
      fun stats hstats => ?_
    cases hstats
    change Stepwise _ ([] ++ [_] ++ [_])
    exact stepwise_concat.mpr
      ⟨stepwise_concat.mpr ⟨stepwise_nil, fun _ => by decide⟩, fun _ => by decide⟩
  · intro hbounds
    have hinside := (range_bounds_iff twoParks (fun _ => none) ⟨0, 22⟩ 1 hdisjoint).2.mp hbounds
    obtain ⟨stats, hstats⟩ : ∃ stats, twoParks.threads.lookup 1 = some stats := ⟨_, rfl⟩
    have hlast := hinside stats hstats
    cases hstats
    change Stepwise _ ([_] ++ [_]) at hlast
    have hcrosses := (stepwise_concat.mp hlast).2
    revert hcrosses
    decide

end Aggregator

end Stax.Live
