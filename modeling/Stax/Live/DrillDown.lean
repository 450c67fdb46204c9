/-
# Stax.Live.DrillDown — the interval and sample lists behind a query.

The lists show raw intervals and samples under the time range of the filter, up to a cap, and count
all of them.  They do not look at the excluded symbols, and an interval that is still open has no
duration for them, while the aggregation leaves out events by their symbols and counts an open
interval up to the last event.  So the off-CPU time of a list is that of the aggregation when, for
each reason, what the excluded symbols would leave out weighs as much as what is still open.
-/
import Stax.Live.Filter
import Stax.Live.StringInterner
import Stax.Live.Timeline

namespace Stax.Live

open Stax.Lib

/-! ## The model -/

/-- One wait of a selection, with the strings it names by their place in the table. -/
structure IntervalEntry where
  tid : Tid
  startNs : ℕ
  durationNs : ℕ
  reason : OffCpuReason
  wakerTid : Option Tid
  wakerAddress : Option Addr
  wakerFunctionName : Option UInt32
  wakerBinary : Option UInt32
  deriving DecidableEq, Repr

/-- The waits of a selection as they are sent: totals over all, entries only up to the cap. -/
structure IntervalListUpdate where
  strings : List String
  totalIntervals : U64
  totalDurationNs : U64
  byReason : OffCpuBreakdown
  entries : List IntervalEntry

/-- One sample of a selection, with its counters as numbers of its own. -/
structure PetSampleEntry where
  tid : Tid
  timestampNs : ℕ
  cycles : U64
  instructions : U64
  l1dMisses : U64
  branchMispreds : U64
  deriving DecidableEq, Repr

/-- The samples of a selection as they are sent: how many there are, and entries up to the cap. -/
structure PetSampleListUpdate where
  totalSamples : U64
  entries : List PetSampleEntry

/-- How many entries a list may have. -/
def drilldownEntryCap : ℕ := 10000

/-- Every PET sample of a selection with its thread. -/
def Aggregator.iterPetSamples (self : Aggregator) (tid : Option Tid) : List (Tid × PetSample) :=
  (self.selected tid).flatMap fun t =>
    ((self.threads.lookup t).getD {}).petSamples.map fun s => (t, s)

/-- Whether a time lies in the filter's range, if it has one. -/
def LiveFilter.inRange (filter : LiveFilter) (sessionStartNs timestamp : ℕ) : Bool :=
  match filter.timeRange with
  | some range => range.holds sessionStartNs timestamp
  | none => true

/-- The waker of an entry: the leaf of its user stack, with the names of its symbol interned. -/
def wakerOf (binaries : BinaryRegistry) (wakerTid : Option Tid)
    (wakerUserStack : Option (List Addr)) (interner : StringInterner) :
    (Option Addr × Option UInt32 × Option UInt32) × StringInterner :=
  match wakerTid, wakerUserStack.bind List.head? with
  | some _, some addr =>
    match binaries addr with
    | some r =>
      let (functionName, interner) := interner.intern r.functionName
      let (binary, interner) := interner.intern r.binary
      ((some addr, some functionName, some binary), interner)
    | none => ((some addr, none, none), interner)
  | _, _ => ((none, none, none), interner)

/-- What is summed and listed while the intervals are walked. -/
structure IntervalList where
  interner : StringInterner := {}
  totalIntervals : U64 := 0
  totalDurationNs : U64 := 0
  byReason : OffCpuBreakdown := 0
  entries : List IntervalEntry := []

/-- One more interval of the walk: a wait within the time range counts, and is listed while there is
room. -/
def IntervalList.add (binaries : BinaryRegistry) (filter : LiveFilter) (sessionStart : ℕ)
    (list : IntervalList) (event : Tid × RawInterval) : IntervalList :=
  match event.2.kind with
  | .onCpu => list
  | .offCpu stack wakerTid wakerUserStack =>
    if filter.inRange sessionStart event.2.startNs then
      let intervalNs := event.2.endNs - event.2.startNs
      if intervalNs = 0 then list
      else
        let reason := offCpuReasonOf binaries stack
        let counted := { list with
          totalIntervals := list.totalIntervals + toU64 1
          totalDurationNs := list.totalDurationNs + toU64 intervalNs
          byReason := list.byReason.addReason reason (toU64 intervalNs) }
        if list.entries.length < drilldownEntryCap then
          let waker := wakerOf binaries wakerTid wakerUserStack list.interner
          { counted with
            interner := waker.2
            entries := list.entries ++
              [{ tid := event.1
                 startNs := event.2.startNs - sessionStart
                 durationNs := intervalNs
                 reason := reason
                 wakerTid := wakerTid
                 wakerAddress := waker.1.1
                 wakerFunctionName := waker.1.2.1
                 wakerBinary := waker.1.2.2 }] }
        else counted
    else list

/-- The off-CPU intervals of a selection, the most recent first. -/
def buildIntervalsUpdate (agg : Aggregator) (binaries : BinaryRegistry) (tid : Option Tid)
    (filter : LiveFilter) : IntervalListUpdate :=
  let sessionStart := agg.sessionStartNs.getD 0
  let list := (agg.iterIntervals tid).foldl (IntervalList.add binaries filter sessionStart) {}
  { strings := list.interner.strings
    totalIntervals := list.totalIntervals
    totalDurationNs := list.totalDurationNs
    byReason := list.byReason
    entries := list.entries.insertionSort fun a b => b.startNs ≤ a.startNs }

/-- The PET samples of a selection, the most recent first. -/
def buildPetSamplesUpdate (agg : Aggregator) (tid : Option Tid) (filter : LiveFilter) :
    PetSampleListUpdate :=
  let sessionStart := agg.sessionStartNs.getD 0
  let list := (agg.iterPetSamples tid).foldl
    (fun (list : U64 × List PetSampleEntry) event =>
      if filter.inRange sessionStart event.2.timestampNs then
        (list.1 + toU64 1,
          if list.2.length < drilldownEntryCap then
            list.2 ++
              [{ tid := event.1
                 timestampNs := event.2.timestampNs - sessionStart
                 cycles := event.2.pmc.cycles
                 instructions := event.2.pmc.instructions
                 l1dMisses := event.2.pmc.l1dMisses
                 branchMispreds := event.2.pmc.branchMispreds }]
          else list.2)
      else list)
    (0, [])
  { totalSamples := list.1
    entries := list.2.insertionSort fun a b => b.timestampNs ≤ a.timestampNs }

/-! ## The two halves of a filter -/

/-- Whether the filter excludes a symbol of the event's stack. -/
def LiveFilter.excludes (filter : LiveFilter) (binaries : BinaryRegistry) (ctx : EventCtx) : Bool :=
  ctx.stack.any fun addr => symbolRefOf binaries addr ∈ filter.excludeSymbols

theorem makePredicate_eq (filter : LiveFilter) (sessionStartNs : ℕ) (binaries : BinaryRegistry)
    (ctx : EventCtx) :
    makePredicate filter sessionStartNs binaries ctx =
      (filter.inRange sessionStartNs ctx.timestamp && !filter.excludes binaries ctx) := by
  unfold makePredicate LiveFilter.inRange LiveFilter.excludes
  congr 1
  cases hempty : filter.excludeSymbols with
  | nil => simp
  | cons s rest => rfl

/-! ## Off-CPU time by reason -/

/-- The time an interval is off-CPU for a reason. -/
def RawInterval.offTime (binaries : BinaryRegistry) (now : ℕ) (r : OffCpuReason)
    (iv : RawInterval) : ℕ :=
  match iv.kind with
  | .onCpu => 0
  | .offCpu stack _ _ => if r = offCpuReasonOf binaries stack then iv.durationAt now else 0

/-- The interval has ended. -/
def RawInterval.closed (iv : RawInterval) : Bool := iv.endNs ≠ 0

/-- The off-CPU time for a reason of those selected intervals that pass. -/
def offTimeOf (agg : Aggregator) (binaries : BinaryRegistry) (tid : Option Tid) (r : OffCpuReason)
    (pass : Tid × RawInterval → Bool) : ℕ :=
  ((agg.iterIntervals tid).map fun e =>
    if pass e then e.2.offTime binaries agg.now r else 0).sum

/-- A list of durations by reason, summed up. -/
theorem slot_sum_single (r : OffCpuReason) (times : List (OffCpuReason × ℕ)) :
    ((times.map fun t => OffCpuBreakdown.single t.1 (toU64 t.2)).sum).slot r =
      toU64 (times.map fun t => if r = t.1 then t.2 else 0).sum := by
  have hzero : toU64 0 = 0 := map_zero (Sat.ofNatHom u64Max)
  induction times with
  | nil => exact (OffCpuBreakdown.slot_zero r).trans hzero.symm
  | cons t times ih =>
      have hadd : toU64 ((if r = t.1 then t.2 else 0) +
          (times.map fun t => if r = t.1 then t.2 else 0).sum) =
          toU64 (if r = t.1 then t.2 else 0) +
            toU64 (times.map fun t => if r = t.1 then t.2 else 0).sum :=
        map_add (Sat.ofNatHom u64Max) _ _
      rw [List.map_cons, List.sum_cons, OffCpuBreakdown.slot_add, ih, List.map_cons, List.sum_cons,
        hadd, OffCpuBreakdown.slot_single, apply_ite toU64, hzero]

/-! ## What the list adds up -/

/-- The reason and duration an interval is listed with. -/
def listed (binaries : BinaryRegistry) (filter : LiveFilter) (sessionStart : ℕ)
    (e : Tid × RawInterval) : List (OffCpuReason × ℕ) :=
  match e.2.kind with
  | .onCpu => []
  | .offCpu stack _ _ =>
    if filter.inRange sessionStart e.2.startNs ∧ e.2.endNs - e.2.startNs ≠ 0 then
      [(offCpuReasonOf binaries stack, e.2.endNs - e.2.startNs)]
    else []

/-- One more interval of the walk adds its duration to the total and to its reason, if it is listed.
-/
theorem totals_add (binaries : BinaryRegistry) (filter : LiveFilter) (sessionStart : ℕ)
    (list : IntervalList) (e : Tid × RawInterval) :
    (list.add binaries filter sessionStart e).byReason =
        list.byReason + ((listed binaries filter sessionStart e).map fun t =>
          OffCpuBreakdown.single t.1 (toU64 t.2)).sum ∧
      (list.add binaries filter sessionStart e).totalDurationNs =
        list.totalDurationNs +
          ((listed binaries filter sessionStart e).map fun t => toU64 t.2).sum := by
  obtain ⟨t, start, stop, kind⟩ := e
  unfold IntervalList.add listed
  cases kind with
  | onCpu => simp
  | offCpu stack wakerTid wakerUserStack =>
      dsimp only
      cases filter.inRange sessionStart start with
      | false => simp
      | true =>
          by_cases hzero : stop - start = 0
          · simp [hzero]
          · have hlisted : true = true ∧ stop - start ≠ 0 := ⟨rfl, hzero⟩
            rw [if_pos hlisted, if_pos rfl, if_neg hzero, List.map_singleton,
              List.sum_singleton, List.map_singleton, List.sum_singleton,
              ← OffCpuBreakdown.addReason_eq]
            split
            · exact ⟨rfl, rfl⟩
            · exact ⟨rfl, rfl⟩

theorem totals_foldl_add (binaries : BinaryRegistry) (filter : LiveFilter) (sessionStart : ℕ)
    (es : List (Tid × RawInterval)) (list : IntervalList) :
    (es.foldl (IntervalList.add binaries filter sessionStart) list).byReason =
        list.byReason + ((es.flatMap (listed binaries filter sessionStart)).map fun t =>
          OffCpuBreakdown.single t.1 (toU64 t.2)).sum ∧
      (es.foldl (IntervalList.add binaries filter sessionStart) list).totalDurationNs =
        list.totalDurationNs +
          ((es.flatMap (listed binaries filter sessionStart)).map fun t => toU64 t.2).sum := by
  induction es generalizing list with
  | nil => simp
  | cons e es ih =>
      obtain ⟨hreason, hduration⟩ := totals_add binaries filter sessionStart list e
      obtain ⟨hrest, hrestDuration⟩ := ih (list.add binaries filter sessionStart e)
      rw [List.foldl_cons, hrest, hrestDuration, hreason, hduration, List.flatMap_cons,
        List.map_append, List.map_append, List.sum_append, List.sum_append, add_assoc, add_assoc]
      exact ⟨rfl, rfl⟩

/-- The list's totals are sums over what is listed. -/
theorem totals_buildIntervalsUpdate (agg : Aggregator) (binaries : BinaryRegistry)
    (tid : Option Tid) (filter : LiveFilter) :
    (buildIntervalsUpdate agg binaries tid filter).byReason =
        (((agg.iterIntervals tid).flatMap
          (listed binaries filter (agg.sessionStartNs.getD 0))).map fun t =>
            OffCpuBreakdown.single t.1 (toU64 t.2)).sum ∧
      (buildIntervalsUpdate agg binaries tid filter).totalDurationNs =
        (((agg.iterIntervals tid).flatMap
          (listed binaries filter (agg.sessionStartNs.getD 0))).map fun t => toU64 t.2).sum := by
  obtain ⟨hreason, hduration⟩ := totals_foldl_add binaries filter (agg.sessionStartNs.getD 0)
    (agg.iterIntervals tid) {}
  exact ⟨hreason.trans (zero_add _), hduration.trans (zero_add _)⟩

/-- The total duration is the time of all reasons. -/
theorem totalDurationNs_eq (agg : Aggregator) (binaries : BinaryRegistry) (tid : Option Tid)
    (filter : LiveFilter) :
    (buildIntervalsUpdate agg binaries tid filter).totalDurationNs =
      (buildIntervalsUpdate agg binaries tid filter).byReason.totalNs := by
  obtain ⟨hreason, hduration⟩ := totals_buildIntervalsUpdate agg binaries tid filter
  rw [hreason, hduration]
  induction (agg.iterIntervals tid).flatMap (listed binaries filter (agg.sessionStartNs.getD 0)) with
  | nil => exact OffCpuBreakdown.totalNs_zero.symm
  | cons t times ih =>
      rw [List.map_cons, List.sum_cons, List.map_cons, List.sum_cons, OffCpuBreakdown.totalNs_add,
        OffCpuBreakdown.totalNs_single, ih]

/-- The times of a reason over several lists are those of each list. -/
theorem sum_ite_flatMap {α : Type} (r : OffCpuReason) (f : α → List (OffCpuReason × ℕ))
    (w : α → ℕ) (as : List α)
    (h : ∀ a ∈ as, ((f a).map fun t => if r = t.1 then t.2 else 0).sum = w a) :
    ((as.flatMap f).map fun t => if r = t.1 then t.2 else 0).sum = (as.map w).sum := by
  rw [List.map_flatMap, List.flatMap_def, List.sum_flatten, List.map_map]
  exact congrArg List.sum (List.map_congr_left h)

/-- The list counts for a reason the time of the ended intervals in the range. -/
theorem slot_byReason (agg : Aggregator) (binaries : BinaryRegistry) (tid : Option Tid)
    (filter : LiveFilter) (r : OffCpuReason) :
    (buildIntervalsUpdate agg binaries tid filter).byReason.slot r =
      toU64 (offTimeOf agg binaries tid r fun e =>
        filter.inRange (agg.sessionStartNs.getD 0) e.2.startNs && e.2.closed) := by
  rw [(totals_buildIntervalsUpdate agg binaries tid filter).1, slot_sum_single]
  refine congrArg toU64 (sum_ite_flatMap r _ _ _ fun e _ => ?_)
  obtain ⟨t, start, stop, kind⟩ := e
  unfold listed RawInterval.offTime RawInterval.closed
  cases kind with
  | onCpu => simp
  | offCpu stack wakerTid wakerUserStack =>
      dsimp only
      have hduration : stop ≠ 0 → RawInterval.durationAt ⟨start, stop, .offCpu stack wakerTid
          wakerUserStack⟩ agg.now = stop - start := by
        intro hstop
        rw [RawInterval.durationAt, RawInterval.endAt, if_neg hstop]
      by_cases hrange : filter.inRange (agg.sessionStartNs.getD 0) start = true
      · rcases eq_or_ne stop 0 with rfl | hstop
        · simp
        · rw [hduration hstop]
          by_cases hzero : stop - start = 0
          · simp [hzero]
          · simp [hzero, hstop, hrange]
      · simp [hrange]

/-! ## What the aggregation adds up -/

/-- The reason and duration of an off-CPU charge. -/
def Charge.offCpuParts : Charge → List (OffCpuReason × ℕ)
  | .onCpu .. => []
  | .offCpu durationNs reason _ => [(reason, durationNs)]

theorem sum_offCpuTime (chs : List Charge) :
    (chs.map Charge.offCpuTime).sum =
      ((chs.flatMap Charge.offCpuParts).map fun t => OffCpuBreakdown.single t.1 (toU64 t.2)).sum := by
  induction chs with
  | nil => rfl
  | cons ch chs ih =>
      rw [List.map_cons, List.sum_cons, List.flatMap_cons, List.map_append, List.sum_append, ih]
      cases ch with
      | onCpu durationNs creditNs matching => rfl
      | offCpu durationNs reason stack =>
          congr 1
          exact List.sum_singleton.symm

/-- The reason and duration an interval is charged with. -/
def chargedParts (binaries : BinaryRegistry) (predicate : EventCtx → Bool) (now : ℕ)
    (e : Tid × RawInterval) : List (OffCpuReason × ℕ) :=
  (intervalCharges binaries predicate now e.1 e.2 []).flatMap Charge.offCpuParts

theorem offCpuParts_chargeOnCpu (durationNs : ℕ) (matching : List PetSample) :
    (chargeOnCpu durationNs matching).flatMap Charge.offCpuParts = [] := by
  unfold chargeOnCpu
  split
  · rfl
  · split
    · rfl
    · rfl

/-- The samples make no difference to the off-CPU charges. -/
theorem offCpuParts_intervalCharges (binaries : BinaryRegistry) (predicate : EventCtx → Bool)
    (now : ℕ) (t : Tid) (interval : RawInterval) (inside : List PetSample) :
    (intervalCharges binaries predicate now t interval inside).flatMap Charge.offCpuParts =
      chargedParts binaries predicate now (t, interval) := by
  obtain ⟨start, stop, kind⟩ := interval
  unfold chargedParts intervalCharges
  split
  · rfl
  · cases kind with
    | onCpu => exact (offCpuParts_chargeOnCpu _ _).trans (offCpuParts_chargeOnCpu _ _).symm
    | offCpu stack wakerTid wakerUserStack => rfl

theorem offCpuParts_charges (agg : Aggregator) (binaries : BinaryRegistry)
    (predicate : EventCtx → Bool) (tid : Option Tid) :
    (agg.charges binaries predicate (agg.selected tid)).flatMap Charge.offCpuParts =
      (agg.iterIntervals tid).flatMap (chargedParts binaries predicate agg.now) := by
  unfold Aggregator.charges Aggregator.iterIntervals
  rw [List.flatMap_assoc, List.flatMap_assoc]
  refine List.flatMap_congr fun t _ => ?_
  unfold Aggregator.threadCharges
  cases agg.threads.lookup t with
  | none => rfl
  | some stats =>
      show ((attribution binaries predicate agg.now t).outputs stats.petSamples
        stats.intervals).flatMap _ = (stats.intervals.map fun iv => (t, iv)).flatMap _
      rw [attribution_outputs, Transducer.flatMap_outputs_observe, List.flatMap_map]
      simp only [offCpuParts_intervalCharges]
      exact Transducer.outputs_observe_eq_flatMap fun _ _ _ _ => rfl

/-- The aggregation counts for a reason the time of the intervals that pass. -/
theorem slot_totalOffCpu (agg : Aggregator) (binaries : BinaryRegistry)
    (predicate : EventCtx → Bool) (tid : Option Tid) (r : OffCpuReason) :
    (agg.aggregate tid binaries predicate).totalOffCpu.slot r =
      toU64 (offTimeOf agg binaries tid r fun e => predicate (.interval e.1 e.2)) := by
  have htotal : (agg.aggregate tid binaries predicate).totalOffCpu =
      ((agg.charges binaries predicate (agg.selected tid)).map Charge.offCpuTime).sum :=
    Aggregation.totalOffCpu_ofCharges _
  rw [htotal, sum_offCpuTime, offCpuParts_charges, slot_sum_single]
  refine congrArg toU64 (sum_ite_flatMap r _ _ _ fun e _ => ?_)
  obtain ⟨t, start, stop, kind⟩ := e
  unfold chargedParts intervalCharges RawInterval.offTime
  by_cases hzero : RawInterval.durationAt ⟨start, stop, kind⟩ agg.now = 0
  · rw [if_pos hzero]
    cases kind with
    | onCpu => simp
    | offCpu stack wakerTid wakerUserStack => simp [hzero]
  · rw [if_neg hzero]
    cases kind with
    | onCpu => simp [offCpuParts_chargeOnCpu]
    | offCpu stack wakerTid wakerUserStack =>
        dsimp only
        split
        · simp [Charge.offCpuParts]
        · rfl

/-! ## Samples -/

theorem totalSamples_eq (agg : Aggregator) (tid : Option Tid) (filter : LiveFilter) :
    (buildPetSamplesUpdate agg tid filter).totalSamples =
      toU64 ((agg.iterPetSamples tid).countP fun e =>
        filter.inRange (agg.sessionStartNs.getD 0) e.2.timestampNs) := by
  have hzero : toU64 0 = 0 := map_zero (Sat.ofNatHom u64Max)
  have hsucc : ∀ n, toU64 (n + 1) = toU64 n + toU64 1 := fun n => map_add (Sat.ofNatHom u64Max) n 1
  unfold buildPetSamplesUpdate
  dsimp only
  induction agg.iterPetSamples tid using List.reverseRecOn with
  | nil => exact hzero.symm
  | append_singleton es e ih =>
      rw [List.foldl_concat, List.countP_append, List.countP_singleton]
      split
      · exact (congrArg (· + toU64 1) ih).trans (hsucc _).symm
      · exact ih

/-! ## Agreement -/

namespace Aggregator

/-- The lists count what the aggregation and the predicate of the same filter count. -/
structure HonoursFilter (agg : Aggregator) (binaries : BinaryRegistry) (tid : Option Tid)
    (filter : LiveFilter) : Prop where
  byReason : (buildIntervalsUpdate agg binaries tid filter).byReason =
    (aggregateWithFilter agg binaries tid filter).totalOffCpu
  totalDuration : (buildIntervalsUpdate agg binaries tid filter).totalDurationNs =
    (buildIntervalsUpdate agg binaries tid filter).byReason.totalNs
  totalSamples : (buildPetSamplesUpdate agg tid filter).totalSamples =
    toU64 ((agg.iterPetSamples tid).countP fun e =>
      agg.passes binaries filter (.petSample e.1 e.2))

variable (agg : Aggregator) (binaries : BinaryRegistry) (tid : Option Tid) (filter : LiveFilter)

/-- Whether an event of the selection starts in the filter's range. -/
def inRange (timestamp : ℕ) : Bool := filter.inRange (agg.sessionStartNs.getD 0) timestamp

/-- The time that is listed for a reason: of ended intervals in the range. -/
def listedTime (r : OffCpuReason) : ℕ :=
  offTimeOf agg binaries tid r fun e => agg.inRange filter e.2.startNs && e.2.closed

/-- The time that is aggregated for a reason: of intervals in the range without an excluded
symbol. -/
def aggregatedTime (r : OffCpuReason) : ℕ :=
  offTimeOf agg binaries tid r fun e =>
    agg.inRange filter e.2.startNs && !filter.excludes binaries (.interval e.1 e.2)

/-- Of the listed time, that of intervals with an excluded symbol. -/
def excludedTime (r : OffCpuReason) : ℕ :=
  offTimeOf agg binaries tid r fun e =>
    agg.inRange filter e.2.startNs && e.2.closed && filter.excludes binaries (.interval e.1 e.2)

/-- Of the aggregated time, that of intervals still open. -/
def openTime (r : OffCpuReason) : ℕ :=
  offTimeOf agg binaries tid r fun e =>
    agg.inRange filter e.2.startNs && !e.2.closed && !filter.excludes binaries (.interval e.1 e.2)

/-- Listed and aggregated time differ by what is excluded and what is open. -/
theorem listedTime_add_openTime (r : OffCpuReason) :
    agg.listedTime binaries tid filter r + agg.openTime binaries tid filter r =
      agg.aggregatedTime binaries tid filter r + agg.excludedTime binaries tid filter r := by
  unfold listedTime openTime aggregatedTime excludedTime offTimeOf
  rw [← List.sum_map_add, ← List.sum_map_add]
  refine congrArg List.sum (List.map_congr_left fun e _ => ?_)
  have hsplit : ∀ (within closed excluded : Bool) (d : ℕ),
      (if within && closed then d else 0) + (if within && !closed && !excluded then d else 0) =
        (if within && !excluded then d else 0) + if within && closed && excluded then d else 0 := by
    intro within closed excluded d
    cases within <;> cases closed <;> cases excluded <;> simp
  exact hsplit _ _ _ _

/-- The times by reason are those of the aggregation just when what the list leaves in and what it
leaves out balance, reason by reason, or both are at the largest number there is. -/
theorem byReason_eq_iff :
    (buildIntervalsUpdate agg binaries tid filter).byReason =
        (aggregateWithFilter agg binaries tid filter).totalOffCpu ↔
      ∀ r, agg.excludedTime binaries tid filter r = agg.openTime binaries tid filter r ∨
        (u64Max ≤ agg.listedTime binaries tid filter r ∧
          u64Max ≤ agg.aggregatedTime binaries tid filter r) := by
  have hlisted : ∀ r, (buildIntervalsUpdate agg binaries tid filter).byReason.slot r =
      toU64 (agg.listedTime binaries tid filter r) := slot_byReason agg binaries tid filter
  have hcounted : ∀ r, (aggregateWithFilter agg binaries tid filter).totalOffCpu.slot r =
      toU64 (agg.aggregatedTime binaries tid filter r) := by
    intro r
    rw [aggregateWithFilter_eq, slot_totalOffCpu]
    simp only [passes, makePredicate_eq]
    rfl
  have hslots : (buildIntervalsUpdate agg binaries tid filter).byReason =
      (aggregateWithFilter agg binaries tid filter).totalOffCpu ↔
        ∀ r, toU64 (agg.listedTime binaries tid filter r) =
          toU64 (agg.aggregatedTime binaries tid filter r) := by
    refine ⟨fun h r => ?_, fun h => OffCpuBreakdown.ext_slot fun r => ?_⟩
    · rw [← hlisted, ← hcounted, h]
    · rw [hlisted, hcounted, h]
  rw [hslots]
  refine forall_congr' fun r => ?_
  have hbalance := agg.listedTime_add_openTime binaries tid filter r
  rw [Sat.ext_iff, Sat.val_ofNat, Sat.val_ofNat]
  omega

/-- The number of samples is that of the samples that pass the filter, just when none in the range
has an excluded symbol, or the number saturates. -/
theorem totalSamples_eq_iff :
    (buildPetSamplesUpdate agg tid filter).totalSamples =
        toU64 ((agg.iterPetSamples tid).countP fun e =>
          agg.passes binaries filter (.petSample e.1 e.2)) ↔
      (∀ e ∈ agg.iterPetSamples tid, agg.inRange filter e.2.timestampNs = true →
        filter.excludes binaries (.petSample e.1 e.2) = false) ∨
      u64Max ≤ (agg.iterPetSamples tid).countP fun e =>
        agg.passes binaries filter (.petSample e.1 e.2) := by
  have hpasses : ∀ e : Tid × PetSample, agg.passes binaries filter (.petSample e.1 e.2) =
      (agg.inRange filter e.2.timestampNs && !filter.excludes binaries (.petSample e.1 e.2)) :=
    fun e => makePredicate_eq filter _ binaries _
  have hsplit := List.countP_eq_countP_filter_add (agg.iterPetSamples tid)
    (fun e => agg.inRange filter e.2.timestampNs)
    fun e => filter.excludes binaries (.petSample e.1 e.2)
  rw [List.countP_filter, List.countP_filter] at hsplit
  have hnone : (agg.iterPetSamples tid).countP (fun e => agg.inRange filter e.2.timestampNs &&
      filter.excludes binaries (.petSample e.1 e.2)) = 0 ↔
        ∀ e ∈ agg.iterPetSamples tid, agg.inRange filter e.2.timestampNs = true →
          filter.excludes binaries (.petSample e.1 e.2) = false := by
    rw [List.countP_eq_zero]
    simp
  have htotal : (buildPetSamplesUpdate agg tid filter).totalSamples =
      toU64 ((agg.iterPetSamples tid).countP fun e => agg.inRange filter e.2.timestampNs) :=
    totalSamples_eq agg tid filter
  simp only [hpasses]
  rw [← hnone, htotal, hsplit, Sat.ext_iff, Sat.val_ofNat, Sat.val_ofNat]
  omega

/-- The lists honour the filter exactly when, for each reason, the excluded symbols take away as
much listed time as is still open, and no sample in the range has an excluded symbol; or the totals
in question are full. -/
theorem honoursFilter_iff :
    agg.HonoursFilter binaries tid filter ↔
      (∀ r, agg.excludedTime binaries tid filter r = agg.openTime binaries tid filter r ∨
        (u64Max ≤ agg.listedTime binaries tid filter r ∧
          u64Max ≤ agg.aggregatedTime binaries tid filter r)) ∧
      ((∀ e ∈ agg.iterPetSamples tid, agg.inRange filter e.2.timestampNs = true →
          filter.excludes binaries (.petSample e.1 e.2) = false) ∨
        u64Max ≤ (agg.iterPetSamples tid).countP fun e =>
          agg.passes binaries filter (.petSample e.1 e.2)) := by
  rw [← byReason_eq_iff, ← totalSamples_eq_iff]
  constructor
  · intro h
    exact ⟨h.byReason, h.totalSamples⟩
  · intro h
    exact ⟨h.1, totalDurationNs_eq agg binaries tid filter, h.2⟩

/-- A thread that parked on `0xb0` for ten nanoseconds. -/
def parkedOnB : Aggregator := replay
  [.interval 1 { startNs := 10, endNs := 20, kind := .offCpu [0xb0] none none }]

/-- With `b` excluded the list still counts the interval. -/
theorem parkedOnB_dishonours :
    ¬ parkedOnB.HonoursFilter onlyB (some 1) { excludeSymbols := [⟨some "b", some "app"⟩] } := by
  intro h
  have hother := congrArg OffCpuBreakdown.otherNs h.byReason
  revert hother
  decide +kernel

end Aggregator

end Stax.Live
