/-
# Stax.Live.RecentEntries — which events the drill-down lists show.

The lists are sorted by time once they are filled, and they are filled in the order of the walk:
thread after thread, each from its oldest event.  So beyond the cap it is the events that are walked
last that are missing, and these are a thread's latest.
-/
import Stax.Lib.Capped
import Stax.Live.DrillDown
import Stax.Live.SessionAnchor

namespace Stax.Live

open Stax.Lib Stax.Lib.Capped

/-! ## What matches -/

/-- Whether an interval is counted by the interval list: an off-CPU interval in the range that has
ended and has a duration. -/
def RawInterval.isListed (filter : LiveFilter) (sessionStart : ℕ) (iv : RawInterval) : Bool :=
  match iv.kind with
  | .onCpu => false
  | .offCpu .. => filter.inRange sessionStart iv.startNs && decide (iv.endNs - iv.startNs ≠ 0)

/-- What an entry says of an interval. -/
structure IntervalEntry.Shows (binaries : BinaryRegistry) (sessionStart : ℕ)
    (event : Tid × RawInterval) (entry : IntervalEntry) : Prop where
  tid : entry.tid = event.1
  startNs : entry.startNs = event.2.startNs - sessionStart
  durationNs : entry.durationNs = event.2.endNs - event.2.startNs
  parked : ∃ stack wakerTid wakerUserStack, event.2.kind = .offCpu stack wakerTid wakerUserStack ∧
    entry.reason = offCpuReasonOf binaries stack ∧ entry.wakerTid = wakerTid ∧
    entry.wakerAddress = wakerTid.bind fun _ => wakerUserStack.bind List.head?

/-- The entry of a sample. -/
def PetSampleEntry.of (sessionStart : ℕ) (event : Tid × PetSample) : PetSampleEntry where
  tid := event.1
  timestampNs := event.2.timestampNs - sessionStart
  cycles := event.2.pmc.cycles
  instructions := event.2.pmc.instructions
  l1dMisses := event.2.pmc.l1dMisses
  branchMispreds := event.2.pmc.branchMispreds

namespace Aggregator

/-- The intervals a selection and a filter match, in the order of the walk. -/
def listedIntervals (self : Aggregator) (tid : Option Tid) (filter : LiveFilter) :
    List (Tid × RawInterval) :=
  (self.iterIntervals tid).filter fun e => e.2.isListed filter (self.sessionStartNs.getD 0)

/-- The samples a selection and a filter match, in the order of the walk. -/
def listedSamples (self : Aggregator) (tid : Option Tid) (filter : LiveFilter) :
    List (Tid × PetSample) :=
  (self.iterPetSamples tid).filter fun e =>
    filter.inRange (self.sessionStartNs.getD 0) e.2.timestampNs

/-- Both lists show as many of the matching events as the cap allows, the most recent first, and
leave none out that is later than one they show. -/
structure ListsMostRecent (agg : Aggregator) (binaries : BinaryRegistry) (tid : Option Tid)
    (filter : LiveFilter) : Prop where
  intervals : ShowsGreatest (fun e : Tid × RawInterval => e.2.startNs - agg.sessionStartNs.getD 0)
    (IntervalEntry.Shows binaries (agg.sessionStartNs.getD 0))
    (min drilldownEntryCap (buildIntervalsUpdate agg binaries tid filter).totalIntervals.val)
    (agg.listedIntervals tid filter) (buildIntervalsUpdate agg binaries tid filter).entries
  samples : ShowsGreatest (fun e : Tid × PetSample => e.2.timestampNs - agg.sessionStartNs.getD 0)
    (fun e entry => entry = PetSampleEntry.of (agg.sessionStartNs.getD 0) e)
    (min drilldownEntryCap (buildPetSamplesUpdate agg tid filter).totalSamples.val)
    (agg.listedSamples tid filter) (buildPetSamplesUpdate agg tid filter).entries

end Aggregator

/-! ## Filling the lists -/

theorem wakerAddress_wakerOf (binaries : BinaryRegistry) (wakerTid : Option Tid)
    (wakerUserStack : Option (List Addr)) (interner : StringInterner) :
    (wakerOf binaries wakerTid wakerUserStack interner).1.1 =
      wakerTid.bind fun _ => wakerUserStack.bind List.head? := by
  unfold wakerOf
  cases wakerTid with
  | none => rfl
  | some t =>
      cases hleaf : wakerUserStack.bind List.head? with
      | none => rfl
      | some addr =>
          dsimp only
          cases binaries addr <;> rfl

section Fill

variable {binaries : BinaryRegistry} {filter : LiveFilter} {sessionStart : ℕ}

/-- One interval of the walk. -/
theorem entries_add {events : List (Tid × RawInterval)} {list : IntervalList}
    (hcount : list.totalIntervals = toU64 events.length)
    (hentries : List.Forall₂ (IntervalEntry.Shows binaries sessionStart)
      (events.take drilldownEntryCap) list.entries) (e : Tid × RawInterval) :
    let events' := events ++ [e].filter fun e => e.2.isListed filter sessionStart
    (list.add binaries filter sessionStart e).totalIntervals = toU64 events'.length ∧
      List.Forall₂ (IntervalEntry.Shows binaries sessionStart) (events'.take drilldownEntryCap)
        (list.add binaries filter sessionStart e).entries := by
  have hskip (hnot : e.2.isListed filter sessionStart = false) :
      events ++ [e].filter (fun e => e.2.isListed filter sessionStart) = events := by
    rw [List.filter_singleton, hnot]
    exact List.append_nil events
  obtain ⟨t, start, stop, kind⟩ := e
  cases kind with
  | onCpu =>
      dsimp only
      rw [hskip rfl]
      exact ⟨hcount, hentries⟩
  | offCpu stack wakerTid wakerUserStack =>
      dsimp only
      -- a wait within the range counts; it is listed only while there is room
      by_cases hlisted : filter.inRange sessionStart start = true ∧ stop - start ≠ 0
      · have hkeep : RawInterval.isListed filter sessionStart
            ⟨start, stop, .offCpu stack wakerTid wakerUserStack⟩ = true := by
          simp [RawInterval.isListed, hlisted]
        have hsucc : toU64 (events.length + 1) = toU64 events.length + toU64 1 :=
          map_add (Sat.ofNatHom u64Max) _ 1
        rw [List.filter_singleton, hkeep]
        show _ = toU64 (events ++ [_]).length ∧ _
        rw [List.length_append, List.length_singleton, hsucc, ← hcount]
        unfold IntervalList.add
        dsimp only
        rw [if_pos hlisted.1, if_neg hlisted.2]
        refine ⟨?_, ?_⟩
        · split <;> rfl
        · have hoffer := @forall₂_offer _ _ _ drilldownEntryCap events list.entries hentries
            (t, ⟨start, stop, .offCpu stack wakerTid wakerUserStack⟩)
            { tid := t
              startNs := start - sessionStart
              durationNs := stop - start
              reason := offCpuReasonOf binaries stack
              wakerTid := wakerTid
              wakerAddress := (wakerOf binaries wakerTid wakerUserStack list.interner).1.1
              wakerFunctionName := (wakerOf binaries wakerTid wakerUserStack list.interner).1.2.1
              wakerBinary := (wakerOf binaries wakerTid wakerUserStack list.interner).1.2.2 }
            ⟨rfl, rfl, rfl, stack, wakerTid, wakerUserStack, rfl, rfl, rfl,
              wakerAddress_wakerOf binaries wakerTid wakerUserStack list.interner⟩
          -- the list that is full stays as it is, and so do the first events
          by_cases hroom : list.entries.length < drilldownEntryCap
          · rw [if_pos hroom] at hoffer ⊢
            exact hoffer
          · rw [if_neg hroom] at hoffer ⊢
            exact hoffer
      · have hnot : RawInterval.isListed filter sessionStart
            ⟨start, stop, .offCpu stack wakerTid wakerUserStack⟩ = false := by
          rw [Bool.eq_false_iff]
          simpa [RawInterval.isListed] using hlisted
        rw [hskip hnot]
        unfold IntervalList.add
        dsimp only
        -- left out because of the range, or because it took no time
        by_cases hrange : filter.inRange sessionStart start = true
        · have hzero : stop - start = 0 := by
            by_contra hne
            exact hlisted ⟨hrange, hne⟩
          rw [if_pos hrange, if_pos hzero]
          exact ⟨hcount, hentries⟩
        · rw [if_neg hrange]
          exact ⟨hcount, hentries⟩

/-- The list has an entry for each of the first intervals that match, and counts all of them. -/
theorem entries_foldl_add (es : List (Tid × RawInterval)) :
    let list := es.foldl (IntervalList.add binaries filter sessionStart) {}
    let events := es.filter fun e => e.2.isListed filter sessionStart
    list.totalIntervals = toU64 events.length ∧
      List.Forall₂ (IntervalEntry.Shows binaries sessionStart) (events.take drilldownEntryCap)
        list.entries := by
  induction es using List.reverseRecOn with
  | nil => exact ⟨(map_zero (Sat.ofNatHom u64Max)).symm, List.Forall₂.nil⟩
  | append_singleton es e ih =>
      dsimp only
      rw [List.foldl_concat, List.filter_append]
      exact entries_add ih.1 ih.2 e

end Fill

namespace Aggregator

/-- The interval list is the most recent intervals exactly when none that is walked beyond the cap
starts later than one before. -/
theorem intervals_recent_iff (agg : Aggregator) (binaries : BinaryRegistry) (tid : Option Tid)
    (filter : LiveFilter) :
    ShowsGreatest (fun e : Tid × RawInterval => e.2.startNs - agg.sessionStartNs.getD 0)
        (IntervalEntry.Shows binaries (agg.sessionStartNs.getD 0))
        (min drilldownEntryCap (buildIntervalsUpdate agg binaries tid filter).totalIntervals.val)
        (agg.listedIntervals tid filter) (buildIntervalsUpdate agg binaries tid filter).entries ↔
      ∀ a ∈ (agg.listedIntervals tid filter).take drilldownEntryCap,
        ∀ b ∈ (agg.listedIntervals tid filter).drop drilldownEntryCap,
          b.2.startNs - agg.sessionStartNs.getD 0 ≤ a.2.startNs - agg.sessionStartNs.getD 0 := by
  obtain ⟨hcount, hentries⟩ := @entries_foldl_add binaries filter (agg.sessionStartNs.getD 0)
    (agg.iterIntervals tid)
  have htotal : min drilldownEntryCap
      (buildIntervalsUpdate agg binaries tid filter).totalIntervals.val =
        min drilldownEntryCap (agg.listedIntervals tid filter).length := by
    have hcap : drilldownEntryCap ≤ u64Max := by decide
    have hval := congrArg Sat.val hcount
    rw [Sat.val_ofNat] at hval
    change (buildIntervalsUpdate agg binaries tid filter).totalIntervals.val =
      min (agg.listedIntervals tid filter).length u64Max at hval
    omega
  rw [htotal]
  exact showsGreatest_iff (fun _ _ h => h.startNs) hentries

/-- So is the sample list. -/
theorem samples_recent_iff (agg : Aggregator) (tid : Option Tid) (filter : LiveFilter) :
    ShowsGreatest (fun e : Tid × PetSample => e.2.timestampNs - agg.sessionStartNs.getD 0)
        (fun e entry => entry = PetSampleEntry.of (agg.sessionStartNs.getD 0) e)
        (min drilldownEntryCap (buildPetSamplesUpdate agg tid filter).totalSamples.val)
        (agg.listedSamples tid filter) (buildPetSamplesUpdate agg tid filter).entries ↔
      ∀ a ∈ (agg.listedSamples tid filter).take drilldownEntryCap,
        ∀ b ∈ (agg.listedSamples tid filter).drop drilldownEntryCap,
          b.2.timestampNs - agg.sessionStartNs.getD 0 ≤
            a.2.timestampNs - agg.sessionStartNs.getD 0 := by
  have htotal : min drilldownEntryCap (buildPetSamplesUpdate agg tid filter).totalSamples.val =
      min drilldownEntryCap (agg.listedSamples tid filter).length := by
    have hcap : drilldownEntryCap ≤ u64Max := by decide
    have hval := congrArg Sat.val (totalSamples_eq agg tid filter)
    rw [Sat.val_ofNat, List.countP_eq_length_filter] at hval
    change (buildPetSamplesUpdate agg tid filter).totalSamples.val =
      min (agg.listedSamples tid filter).length u64Max at hval
    omega
  rw [htotal]
  refine showsGreatest_iff (fun _ _ h => by rw [h]; rfl) ?_
  unfold listedSamples
  induction agg.iterPetSamples tid using List.reverseRecOn with
  | nil => exact List.Forall₂.nil
  | append_singleton es e ih =>
      rw [List.foldl_concat, List.filter_append, List.filter_singleton]
      split
      · rename_i hrange
        rw [hrange]
        exact forall₂_offer ih rfl
      · rename_i hrange
        rw [Bool.eq_false_iff.mpr hrange]
        show List.Forall₂ _ ((_ ++ []).take _) _
        rw [List.append_nil]
        exact ih

/-- The lists show the most recent events exactly when the walk comes to no later ones once they are
full.  For every aggregator, registry, selection and filter: both lists are the matching events with
the latest times since the session start, as many as the cap allows, exactly when no interval, and
no sample, that is walked after the cap's worth is later than one of these. -/
theorem lists_most_recent_iff (agg : Aggregator) (binaries : BinaryRegistry) (tid : Option Tid)
    (filter : LiveFilter) :
    agg.ListsMostRecent binaries tid filter ↔
      (∀ a ∈ (agg.listedIntervals tid filter).take drilldownEntryCap,
        ∀ b ∈ (agg.listedIntervals tid filter).drop drilldownEntryCap,
          b.2.startNs - agg.sessionStartNs.getD 0 ≤ a.2.startNs - agg.sessionStartNs.getD 0) ∧
      ∀ a ∈ (agg.listedSamples tid filter).take drilldownEntryCap,
        ∀ b ∈ (agg.listedSamples tid filter).drop drilldownEntryCap,
          b.2.timestampNs - agg.sessionStartNs.getD 0 ≤
            a.2.timestampNs - agg.sessionStartNs.getD 0 := by
  rw [← intervals_recent_iff agg binaries tid filter, ← samples_recent_iff agg tid filter]
  constructor
  · intro h
    exact ⟨h.intervals, h.samples⟩
  · rintro ⟨hintervals, hsamples⟩
    exact ⟨hintervals, hsamples⟩

/-! ## A thread with more samples than the cap -/

/-- The samples of a thread that has recorded nothing else and not too many of them. -/
theorem lookup_replay_petSamples (tid : Tid) {samples : List PetSample} (hne : samples ≠ [])
    (hfits : samples.length ≤ maxEventsPerThread) :
    (replay (samples.map (Event.petSample tid))).threads.lookup tid =
      some { petSamples := samples } := by
  have hthreads (self : Aggregator) (sample : PetSample) :
      (self.record (.petSample tid sample)).threads = self.threads.insert tid
        { (self.threads.lookup tid).getD {} with
          petSamples := pushBounded ((self.threads.lookup tid).getD {}).petSamples sample } := by
    show (AList.insert tid _ (self.noteTimestamp sample.timestampNs).threads) = _
    unfold noteTimestamp
    split <;> rfl
  induction samples using List.reverseRecOn with
  | nil => exact absurd rfl hne
  | append_singleton samples sample ih =>
      rw [List.length_append, List.length_singleton] at hfits
      rw [List.map_append, List.map_singleton, replay, List.foldl_concat, ← replay, hthreads,
        AList.lookup_insert]
      rcases eq_or_ne samples [] with rfl | hsamples
      · rfl
      · rw [ih hsamples (by omega)]
        show some ({ petSamples := pushBounded samples sample } : ThreadStats) = _
        rw [pushBounded, if_neg (by omega)]

/-- One sample more than the list shows, in the order of their times. -/
def lateSample : List PetSample :=
  (List.range (drilldownEntryCap + 1)).map fun n => { timestampNs := n + 1, stack := [] }

/-- The last sample of a thread is missing from its list. -/
theorem lateSample_left_out : ¬ (replay (lateSample.map (Event.petSample 1))).ListsMostRecent
    (fun _ => none) (some 1) {} := by
  intro h
  have hrecent := (samples_recent_iff _ _ _).mp h.samples
  generalize hagg : replay (lateSample.map (Event.petSample 1)) = agg at hrecent
  set sample : ℕ → Tid × PetSample := fun n => (1, { timestampNs := n + 1, stack := [] })
    with hsample
  have hcount : lateSample.length = drilldownEntryCap + 1 := by
    rw [lateSample, List.length_map, List.length_range]
  have hlookup : agg.threads.lookup 1 = some { petSamples := lateSample } := by
    rw [← hagg]
    apply lookup_replay_petSamples 1 (List.ne_nil_of_length_eq_add_one hcount)
    rw [hcount]
    decide
  have hlisted : agg.listedSamples (some 1) {} =
      (List.range drilldownEntryCap).map sample ++ [sample drilldownEntryCap] := by
    have hselected : agg.selected (some 1) = [1] :=
      if_pos (AList.lookup_isSome.mp (by rw [hlookup]; rfl))
    have hall : agg.listedSamples (some 1) {} = agg.iterPetSamples (some 1) :=
      List.filter_eq_self.mpr fun _ _ => rfl
    have hsamples : lateSample.map (Prod.mk (1 : Tid)) =
        (List.range drilldownEntryCap).map sample ++ [sample drilldownEntryCap] := by
      rw [lateSample, List.map_map, List.range_succ, List.map_append, List.map_singleton]
      rfl
    rw [hall, iterPetSamples, hselected, List.flatMap_singleton, hlookup, Option.getD_some,
      hsamples]
  have hstart : agg.sessionStartNs = some 1 := by
    rw [← hagg, sessionStartNs_replay, List.head?_map, lateSample, List.head?_map, List.head?_range]
    · simp [Event.startTime, drilldownEntryCap]
    · intro event hevent
      obtain ⟨s, hs, rfl⟩ := List.mem_map.mp hevent
      obtain ⟨n, -, rfl⟩ := List.mem_map.mp hs
      exact Nat.succ_ne_zero n
  have hlength : ((List.range drilldownEntryCap).map sample).length = drilldownEntryCap := by
    rw [List.length_map, List.length_range]
  rw [hlisted, List.take_left' hlength, List.drop_left' hlength, hstart] at hrecent
  have hfirst : sample 0 ∈ (List.range drilldownEntryCap).map sample :=
    List.mem_map_of_mem (List.mem_range.mpr (by decide))
  have hle := hrecent _ hfirst _ (List.mem_singleton_self _)
  exact absurd hle (by decide)

end Aggregator

end Stax.Live
