/-
# Stax.Live.IntervalTotals — when the on-CPU total is the time the threads ran.

An on-CPU interval is added to the aggregation's total only when its time can be shared out: when at
least one sample passes and no more than it has nanoseconds.  Without a filter the total is thus the
on-CPU time of the selection exactly when every on-CPU interval is handed that many samples, and
then it is the timeline's total as well.
-/
import Stax.Live.Timeline

namespace Stax.Live

open Stax.Lib

/-! ## What one interval adds -/

/-- The samples handed to an on-CPU interval can share its time: there is one, and no more than it
has nanoseconds. -/
def SharesTime (now : ℕ) (samples : List PetSample) (prior : List RawInterval)
    (iv : RawInterval) : Prop :=
  1 ≤ (handed now samples prior iv).length ∧
    (handed now samples prior iv).length ≤ iv.durationAt now

instance (now : ℕ) (samples : List PetSample) (prior : List RawInterval) (iv : RawInterval) :
    Decidable (SharesTime now samples prior iv) :=
  inferInstanceAs (Decidable (_ ∧ _))

/-- The on-CPU time an interval adds to the total. -/
def countedTime (now : ℕ) (samples : List PetSample) (prior : List RawInterval)
    (iv : RawInterval) : ℕ :=
  if iv.ran now ∧ SharesTime now samples prior iv then iv.durationAt now else 0

/-- An interval is charged whole or not at all. -/
theorem sum_onCpuDuration_intervalCharges (binaries : BinaryRegistry) (now : ℕ) (tid : Tid)
    (samples : List PetSample) (prior : List RawInterval) (interval : RawInterval) :
    ((intervalCharges binaries (fun _ => true) now tid interval
      (handed now samples prior interval)).map Charge.onCpuDuration).sum =
        countedTime now samples prior interval := by
  unfold countedTime SharesTime
  obtain ⟨start, stop, kind⟩ := interval
  unfold intervalCharges RawInterval.ran
  split
  · rename_i hzero
    simp [hzero]
  · rename_i hduration
    cases kind with
    | onCpu =>
        dsimp only
        rw [List.filter_true, chargeOnCpu_eq]
        split
        · rename_i hshares
          rw [if_pos ⟨by simp [RawInterval.isOnCpu, hduration], hshares⟩]
          exact Nat.add_zero _
        · rename_i hnot
          rw [if_neg fun h => hnot h.2]
          rfl
    | offCpu stack wakerTid wakerUserStack =>
        rw [if_neg fun h => by simp [RawInterval.isOnCpu] at h]
        rfl

/-! ## What a thread adds -/

/-- The on-CPU time of one thread. -/
def ThreadStats.onCpuTime (stats : ThreadStats) (now : ℕ) : ℕ :=
  (stats.intervals.map fun iv => if iv.isOnCpu then iv.durationAt now else 0).sum

/-- The on-CPU time of those intervals of a thread whose samples can share it. -/
def ThreadStats.sampledTime (stats : ThreadStats) (now : ℕ) : ℕ :=
  ((Transducer.observe fun prior iv => [countedTime now stats.petSamples prior iv]).outputs []
    stats.intervals).sum

/-- The samples of every on-CPU interval that took time can share it. -/
def Sampled (now : ℕ) (stats : ThreadStats) : Prop :=
  Stepwise (fun prior iv => iv.ran now = true → SharesTime now stats.petSamples prior iv)
    stats.intervals

/-- An interval adds at most its on-CPU time, and all of it exactly when its samples can share
it. -/
theorem countedTime_le (now : ℕ) (samples : List PetSample) (prior : List RawInterval)
    (iv : RawInterval) :
    countedTime now samples prior iv ≤ (if iv.isOnCpu then iv.durationAt now else 0) ∧
      (countedTime now samples prior iv = (if iv.isOnCpu then iv.durationAt now else 0) ↔
        (iv.ran now = true → SharesTime now samples prior iv)) := by
  unfold countedTime RawInterval.ran
  cases iv.isOnCpu with
  | false => simp
  | true =>
      rcases Nat.eq_zero_or_pos (iv.durationAt now) with hzero | hpos
      · simp [hzero]
      · by_cases hshares : SharesTime now samples prior iv
        · simp [hshares, hpos.ne']
        · simp [hshares, hpos.ne, hpos.ne']

theorem sampledTime_le (stats : ThreadStats) (now : ℕ) :
    stats.sampledTime now ≤ stats.onCpuTime now ∧
      (stats.sampledTime now = stats.onCpuTime now ↔ Sampled now stats) := by
  have hsingle (prior : List RawInterval) (iv : RawInterval) :
      ([countedTime now stats.petSamples prior iv].map id).sum =
        countedTime now stats.petSamples prior iv := Nat.add_zero _
  obtain ⟨hle, hiff⟩ := Transducer.sum_outputs_observe (w := id)
    (f := fun prior iv => [countedTime now stats.petSamples prior iv])
    (v := fun iv => if iv.isOnCpu then iv.durationAt now else 0)
    fun prior iv post (_ : stats.intervals = prior ++ iv :: post) => by
      show ([countedTime now stats.petSamples prior iv].map id).sum ≤ _
      rw [hsingle]
      exact (countedTime_le now stats.petSamples prior iv).1
  rw [List.map_id] at hle hiff
  refine ⟨hle, hiff.trans (forall₃_congr fun prior iv post => imp_congr_right fun _ => ?_)⟩
  show ([countedTime now stats.petSamples prior iv].map id).sum = _ ↔ _
  rw [hsingle]
  exact (countedTime_le now stats.petSamples prior iv).2

/-- Without a filter the walk of a thread charges its sampled time. -/
theorem sum_onCpuDuration_outputs (binaries : BinaryRegistry) (now : ℕ) (tid : Tid)
    (stats : ThreadStats) :
    (((attribution binaries (fun _ => true) now tid).outputs stats.petSamples
      stats.intervals).map Charge.onCpuDuration).sum = stats.sampledTime now := by
  rw [attribution_outputs, ThreadStats.sampledTime]
  induction stats.intervals using List.reverseRecOn with
  | nil => rfl
  | append_singleton intervals iv ih =>
      rw [Transducer.outputs_observe_concat, Transducer.outputs_observe_concat, List.map_append,
        List.sum_append, List.sum_append, ih, sum_onCpuDuration_intervalCharges,
        List.sum_singleton]

/-! ## What a selection adds -/

namespace Aggregator

/-- The on-CPU time of the selected intervals whose samples can share it. -/
def sampledTime (self : Aggregator) (tid : Option Tid) : ℕ :=
  ((self.selected tid).map fun t =>
    ((self.threads.lookup t).getD {}).sampledTime self.now).sum

/-- The time on a cpu of a selection is the sum over its threads. -/
theorem onCpuTime_eq (self : Aggregator) (tid : Option Tid) :
    self.onCpuTime tid = ((self.selected tid).map fun t =>
      ((self.threads.lookup t).getD {}).onCpuTime self.now).sum := by
  unfold onCpuTime iterIntervals
  induction self.selected tid with
  | nil => rfl
  | cons t tids ih =>
      rw [List.flatMap_cons, List.filter_append, List.map_append, List.sum_append, ih,
        List.map_cons, List.sum_cons, ThreadStats.onCpuTime]
      congr 1
      induction ((self.threads.lookup t).getD {}).intervals with
      | nil => rfl
      | cons iv intervals ihs =>
          rw [List.map_cons, List.map_cons, List.sum_cons, ← ihs]
          cases hcpu : iv.isOnCpu with
          | true =>
              rw [List.filter_cons_of_pos (by exact hcpu), List.map_cons, List.sum_cons]
              rfl
          | false =>
              rw [List.filter_cons_of_neg (by simp [hcpu])]
              exact (Nat.zero_add _).symm

/-- The sampled time is at most the on-CPU time, and all of it exactly when every selected thread is
sampled. -/
theorem sampledTime_le (self : Aggregator) (tid : Option Tid) :
    self.sampledTime tid ≤ self.onCpuTime tid ∧
      (self.sampledTime tid = self.onCpuTime tid ↔
        ∀ t ∈ self.selected tid, Sampled self.now ((self.threads.lookup t).getD {})) := by
  rw [onCpuTime_eq, sampledTime]
  induction self.selected tid with
  | nil => simp
  | cons t tids ih =>
      obtain ⟨hle, hiff⟩ := Stax.Live.sampledTime_le ((self.threads.lookup t).getD {}) self.now
      rw [List.map_cons, List.sum_cons, List.map_cons, List.sum_cons, List.forall_mem_cons, ← hiff,
        ← ih.2]
      omega

/-- Without a filter the on-CPU total is the sampled time of the selection. -/
theorem totalOnCpuNs_aggregate (self : Aggregator) (tid : Option Tid) (binaries : BinaryRegistry) :
    (self.aggregate tid binaries fun _ => true).totalOnCpuNs = toU64 (self.sampledTime tid) := by
  have hsum : ((self.charges binaries (fun _ => true) (self.selected tid)).map
      Charge.onCpuDuration).sum = self.sampledTime tid := by
    unfold charges sampledTime
    rw [List.map_flatMap, List.flatMap_def, List.sum_flatten, List.map_map]
    refine congrArg List.sum (List.map_congr_left fun t _ => ?_)
    show ((self.threadCharges binaries (fun _ => true) t).map Charge.onCpuDuration).sum = _
    unfold threadCharges
    cases self.threads.lookup t with
    | none => rfl
    | some stats => exact sum_onCpuDuration_outputs binaries self.now t stats
  have hhom := map_list_sum (Sat.ofNatHom u64Max)
    ((self.charges binaries (fun _ => true) (self.selected tid)).map Charge.onCpuDuration)
  rw [hsum, List.map_map] at hhom
  exact (Aggregation.totalOnCpuNs_ofCharges _).trans hhom.symm

/-- The on-CPU total counts every interval: it is the `u64` sum of the selected on-CPU durations,
and so it is the timeline's total when every interval starts at or after the session start. -/
def CountsEveryInterval (self : Aggregator) (tid : Option Tid) (binaries : BinaryRegistry) :
    Prop :=
  (self.aggregate tid binaries fun _ => true).totalOnCpuNs = toU64 (self.onCpuTime tid) ∧
  ((∀ iv ∈ self.iterIntervals tid, self.sessionStartNs.getD 0 ≤ iv.2.startNs) →
    (self.aggregate tid binaries fun _ => true).totalOnCpuNs =
      (buildTimelineUpdate self tid).totalOnCpuNs)

/-- In a state reached by recording events the on-CPU total counts every interval exactly when each
selected on-CPU interval is handed at least one sample and no more than it has nanoseconds, unless
the total is full without the intervals left out. -/
theorem counts_every_interval_iff {log : List Event}
    (hlog : ∀ event ∈ log, ∀ ts ∈ event.times, ts ≤ u64Max) (tid : Option Tid)
    (binaries : BinaryRegistry) :
    (replay log).CountsEveryInterval tid binaries ↔
      (∀ t ∈ (replay log).selected tid,
        Sampled (replay log).now (((replay log).threads.lookup t).getD {})) ∨
      u64Max ≤ (replay log).sampledTime tid := by
  generalize hagg : replay log = agg
  have hnoted : agg.Noted := hagg ▸ noted_replay hlog
  obtain ⟨hle, hiff⟩ := agg.sampledTime_le tid
  have htotal : (agg.aggregate tid binaries fun _ => true).totalOnCpuNs =
      toU64 (agg.onCpuTime tid) ↔
        agg.sampledTime tid = agg.onCpuTime tid ∨ u64Max ≤ agg.sampledTime tid := by
    rw [totalOnCpuNs_aggregate, Sat.ext_iff, Sat.val_ofNat, Sat.val_ofNat]
    omega
  rw [← hiff, ← htotal, CountsEveryInterval]
  constructor
  · exact fun h => h.1
  · intro h
    refine ⟨h, fun hsession => ?_⟩
    rw [h, timeline_totalOnCpuNs hnoted tid hsession]

/-- A thread on a CPU for ten nanoseconds in which no sample fell. -/
def unsampledSlice : List Event := [.interval 1 { startNs := 10, endNs := 20, kind := .onCpu }]

theorem unsampledSlice_not_counted :
    ¬ (replay unsampledSlice).CountsEveryInterval (some 1) fun _ => none := by
  intro h
  have htotal := congrArg Sat.val h.1
  revert htotal
  decide +kernel

/-- The same slice with a sample in it. -/
def sampledSlice : List Event :=
  [.petSample 1 { timestampNs := 15, stack := [0xa0] },
    .interval 1 { startNs := 10, endNs := 20, kind := .onCpu }]

theorem counts_every_interval_sampledSlice :
    (replay sampledSlice).CountsEveryInterval none fun _ => none :=
  (counts_every_interval_iff (by decide) none fun _ => none).mpr
    (Or.inl (((replay sampledSlice).sampledTime_le none).2.mp (by decide +kernel)))

end Aggregator

end Stax.Live
