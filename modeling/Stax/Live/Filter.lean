/-
# Stax.Live.Filter — aggregating under a filter.

A filter drops samples and intervals before their time is attributed: by their timestamp, an
interval's being its start, and by the symbols on their stack.  It decides for each event as a
whole.  So dropping one of an interval's samples leaves its time to the others, who are credited
more than before unless none of them is left or the division hides it; and an interval that is kept
counts in full, also where it reaches out of the time range.
-/
import Stax.Live.AddressTable
import Stax.Live.Attribution

namespace Stax.Live

open Stax.Lib

/-! ## The model -/

/-- A range of times since the session start, end-exclusive. -/
structure TimeRange where
  startNs : ℕ
  endNs : ℕ
  deriving DecidableEq, Repr

/-- A symbol as a filter names it, by its function and its binary. -/
structure SymbolRef where
  functionName : Option String
  binary : Option String
  deriving DecidableEq, Repr

/-- What a viewer asks to see: a range of time, and symbols whose stacks are left out. -/
structure LiveFilter where
  timeRange : Option TimeRange := none
  excludeSymbols : List SymbolRef := []
  deriving DecidableEq, Repr

/-- The filter lets everything through. -/
def isFilterEmpty (filter : LiveFilter) : Bool :=
  filter.timeRange.isNone && filter.excludeSymbols.isEmpty

/-- What a filter compares an address by; an unresolved one is `none` twice. -/
def symbolRefOf (binaries : BinaryRegistry) (addr : Addr) : SymbolRef :=
  match binaries addr with
  | some r => ⟨some r.functionName, some r.binary⟩
  | none => ⟨none, none⟩

/-- The time an event is filtered by. -/
def EventCtx.timestamp : EventCtx → ℕ
  | .petSample _ sample => sample.timestampNs
  | .interval _ iv => iv.startNs

/-- The stack an event is filtered by. -/
def EventCtx.stack : EventCtx → List Addr
  | .petSample _ sample => sample.stack
  | .interval _ iv =>
    match iv.kind with
    | .onCpu => []
    | .offCpu stack _ _ => stack

/-- Whether a time lies in a range of times since the session start. -/
def TimeRange.holds (range : TimeRange) (sessionStartNs timestamp : ℕ) : Bool :=
  let rel := timestamp - sessionStartNs
  !(rel < range.startNs || range.endNs ≤ rel)

/-- An event is kept when its time lies in the range and no frame of its stack is of an excluded
symbol. -/
def makePredicate (filter : LiveFilter) (sessionStartNs : ℕ) (binaries : BinaryRegistry)
    (ctx : EventCtx) : Bool :=
  (match filter.timeRange with
    | some range => range.holds sessionStartNs ctx.timestamp
    | none => true) &&
  (filter.excludeSymbols.isEmpty ||
    !ctx.stack.any fun addr => symbolRefOf binaries addr ∈ filter.excludeSymbols)

/-- The aggregation of what the filter lets through; an empty filter needs no predicate. -/
def aggregateWithFilter (agg : Aggregator) (binaries : BinaryRegistry) (tid : Option Tid)
    (filter : LiveFilter) : Aggregation :=
  if isFilterEmpty filter then agg.aggregate tid binaries fun _ => true
  else agg.aggregate tid binaries (makePredicate filter (agg.sessionStartNs.getD 0) binaries)

/-- The predicate of a filter, the empty one included. -/
def Aggregator.passes (self : Aggregator) (binaries : BinaryRegistry) (filter : LiveFilter) :
    EventCtx → Bool :=
  makePredicate filter (self.sessionStartNs.getD 0) binaries

/-- The short cut for the empty filter makes no difference. -/
theorem aggregateWithFilter_eq (agg : Aggregator) (binaries : BinaryRegistry) (tid : Option Tid)
    (filter : LiveFilter) :
    aggregateWithFilter agg binaries tid filter =
      agg.aggregate tid binaries (agg.passes binaries filter) := by
  obtain ⟨timeRange, excludeSymbols⟩ := filter
  unfold aggregateWithFilter isFilterEmpty
  split
  · rename_i hempty
    rw [Bool.and_eq_true, Option.isNone_iff_eq_none, List.isEmpty_iff] at hempty
    obtain ⟨rfl, rfl⟩ := hempty
    rfl
  · rfl

/-! ## What a filter takes away -/

section Removal

variable (binaries : BinaryRegistry) (predicate : EventCtx → Bool) (now : ℕ) (tid : Tid)

/-- How many samples an interval is handed. -/
def handedCount (samples : List PetSample) (prior : List RawInterval) (iv : RawInterval) : ℕ :=
  (handed now samples prior iv).length

/-- How many of them pass. -/
def passingCount (samples : List PetSample) (prior : List RawInterval) (iv : RawInterval) : ℕ :=
  ((handed now samples prior iv).filter fun s => predicate (.petSample tid s)).length

/-- Leaving out the samples that do not pass does not change what is left for the others: no sample
is left, or the smaller divisor gives the same share. -/
def KeepsShares (stats : ThreadStats) : Prop :=
  Stepwise (fun prior iv => iv.ran now = true →
    passingCount predicate now tid stats.petSamples prior iv = 0 ∨
      iv.durationAt now / passingCount predicate now tid stats.petSamples prior iv =
        iv.durationAt now / handedCount now stats.petSamples prior iv) stats.intervals

/-- As long as the share stays, the samples that pass keep the credits they had. -/
theorem credits_chargeOnCpu_sublist {durationNs : ℕ} {inside : List PetSample}
    {pass : PetSample → Bool}
    (h : (inside.filter pass).length = 0 ∨
      durationNs / (inside.filter pass).length = durationNs / inside.length) :
    ((chargeOnCpu durationNs (inside.filter pass)).flatMap Charge.credits).Sublist
      ((chargeOnCpu durationNs inside).flatMap Charge.credits) := by
  rcases h with hzero | hshare
  · rw [List.length_eq_zero_iff.mp hzero]
    exact List.nil_sublist _
  · unfold chargeOnCpu
    rw [hshare]
    by_cases hnone : inside.filter pass = []
    · rw [if_pos hnone]
      exact List.nil_sublist _
    · have hsome : inside ≠ [] := by
        rintro rfl
        exact hnone rfl
      rw [if_neg hnone, if_neg hsome]
      split
      · exact List.Sublist.refl _
      · simp only [List.flatMap_cons, List.flatMap_nil, List.append_nil, Charge.credits]
        exact List.filter_sublist.map _

/-- Where its share stays the same, an interval that is filtered is charged for no other samples
than it would be. -/
theorem credits_intervalCharges_sublist {interval : RawInterval} {inside : List PetSample}
    (h : interval.ran now = true →
      (inside.filter fun s => predicate (.petSample tid s)).length = 0 ∨
        interval.durationAt now / (inside.filter fun s => predicate (.petSample tid s)).length =
          interval.durationAt now / inside.length) :
    ((intervalCharges binaries predicate now tid interval inside).flatMap Charge.credits).Sublist
      ((intervalCharges binaries (fun _ => true) now tid interval inside).flatMap
        Charge.credits) := by
  obtain ⟨start, stop, kind⟩ := interval
  unfold intervalCharges
  split
  · exact List.Sublist.refl _
  · rename_i hduration
    cases kind with
    | onCpu =>
        dsimp only
        rw [List.filter_true]
        exact credits_chargeOnCpu_sublist
          (h (by simp [RawInterval.ran, RawInterval.isOnCpu, hduration]))
    | offCpu stack wakerTid wakerUserStack =>
        dsimp only
        rw [if_pos rfl]
        split
        · exact List.Sublist.refl _
        · exact List.nil_sublist _

/-- A thread whose shares stay is credited a part of what it is credited without the filter. -/
theorem credits_outputs_sublist {stats : ThreadStats}
    (h : KeepsShares predicate now tid stats) :
    (((attribution binaries predicate now tid).outputs stats.petSamples stats.intervals).flatMap
      Charge.credits).Sublist
    (((attribution binaries (fun _ => true) now tid).outputs stats.petSamples
      stats.intervals).flatMap Charge.credits) := by
  rw [attribution_outputs, attribution_outputs, Transducer.flatMap_outputs_observe,
    Transducer.flatMap_outputs_observe]
  refine Transducer.outputs_observe_sublist fun prior iv post hsplit => ?_
  exact credits_intervalCharges_sublist binaries predicate now tid (h prior iv post hsplit)

/-- Where the shares do not stay, some sample that passes is credited more than its share of all the
samples. -/
theorem exists_grown_share {stats : ThreadStats} (h : ¬ KeepsShares predicate now tid stats) :
    ∃ prior iv post, stats.intervals = prior ++ iv :: post ∧
      ∃ s ∈ handed now stats.petSamples prior iv, ∃ share,
        (s, share) ∈ ((attribution binaries predicate now tid).outputs stats.petSamples
          stats.intervals).flatMap Charge.shares ∧
        iv.durationAt now / handedCount now stats.petSamples prior iv < share := by
  unfold KeepsShares Stepwise at h
  push Not at h
  obtain ⟨prior, iv, post, hsplit, hran, hcount, hshare⟩ := h
  refine ⟨prior, iv, post, hsplit, ?_⟩
  set inside := handed now stats.petSamples prior iv with hinside
  set kept := inside.filter fun s => predicate (.petSample tid s) with hkept
  have hpassing : passingCount predicate now tid stats.petSamples prior iv = kept.length := rfl
  have hhanded : handedCount now stats.petSamples prior iv = inside.length := rfl
  rw [hpassing] at hcount hshare
  rw [hhanded] at hshare ⊢
  have hgrown : iv.durationAt now / inside.length < iv.durationAt now / kept.length :=
    lt_of_le_of_ne (Nat.div_le_div_left (List.length_filter_le _ _) (Nat.pos_of_ne_zero hcount))
      (Ne.symm hshare)
  obtain ⟨s, hs⟩ := List.exists_mem_of_length_pos (Nat.pos_of_ne_zero hcount)
  refine ⟨s, (List.mem_filter.mp hs).1, iv.durationAt now / kept.length, ?_, hgrown⟩
  rw [List.mem_flatMap]
  refine ⟨.onCpu (iv.durationAt now) (iv.durationAt now / kept.length) kept, ?_,
    List.mem_map.mpr ⟨s, hs, rfl⟩⟩
  rw [attribution_outputs, Transducer.mem_outputs]
  refine ⟨prior, iv, post, hsplit, ?_⟩
  rw [Transducer.run_observe, List.nil_append]
  show _ ∈ intervalCharges binaries predicate now tid iv inside
  obtain ⟨hkind, hpos⟩ := RawInterval.ran_iff.mp hran
  have hduration : ¬ iv.durationAt now = 0 := by
    unfold RawInterval.durationAt
    omega
  rw [intervalCharges, if_neg hduration, hkind]
  exact mem_chargeOnCpu.mpr
    ⟨List.ne_nil_of_length_pos (Nat.pos_of_ne_zero hcount), Nat.ne_zero_of_lt hgrown, rfl⟩

end Removal

namespace Aggregation

/-- Fewer credits leave no address's counters larger. -/
theorem stats_le_of_sublist {chs chs' : List Charge}
    (h : (creditsOf chs).Sublist (creditsOf chs')) (x : Addr) (k : Counter) :
    (((ofCharges chs).byAddress.stats x).self.get k).val ≤
        (((ofCharges chs').byAddress.stats x).self.get k).val ∧
      (((ofCharges chs).byAddress.stats x).total.get k).val ≤
        (((ofCharges chs').byAddress.stats x).total.get k).val := by
  rw [get_self_stats, get_self_stats, get_total_stats, get_total_stats]
  exact ⟨Sat.val_sum_sublist_le (h.map _), Sat.val_sum_sublist_le (h.map _)⟩

end Aggregation

namespace Aggregator

open Aggregation

/-- No counter of an address is larger under the filter than without one. -/
def OnlyRemoves (self : Aggregator) (tid : Option Tid) (binaries : BinaryRegistry)
    (filter : LiveFilter) : Prop :=
  ∀ x k,
    (((aggregateWithFilter self binaries tid filter).byAddress.stats x).self.get k).val ≤
        (((aggregateWithFilter self binaries tid {}).byAddress.stats x).self.get k).val ∧
      (((aggregateWithFilter self binaries tid filter).byAddress.stats x).total.get k).val ≤
        (((aggregateWithFilter self binaries tid {}).byAddress.stats x).total.get k).val

/-- In no selected thread does dropping samples raise the share of those left. -/
def KeepsShares (self : Aggregator) (tid : Option Tid) (binaries : BinaryRegistry)
    (filter : LiveFilter) : Prop :=
  ∀ t ∈ self.selected tid, ∀ stats, self.threads.lookup t = some stats →
    Stax.Live.KeepsShares (self.passes binaries filter) self.now t stats

/-- A filter only removes as long as the samples left in each on-CPU interval keep their share; and
where they do not, some sample that passes is credited more than its share of the interval among
all the samples. -/
theorem filtering_only_removes (self : Aggregator) (tid : Option Tid) (binaries : BinaryRegistry)
    (filter : LiveFilter) :
    (self.KeepsShares tid binaries filter → self.OnlyRemoves tid binaries filter) ∧
    (¬ self.KeepsShares tid binaries filter →
      ∃ t ∈ self.selected tid, ∃ stats, self.threads.lookup t = some stats ∧
        ∃ prior iv post, stats.intervals = prior ++ iv :: post ∧
          ∃ s ∈ handed self.now stats.petSamples prior iv, ∃ share,
            (s, share) ∈ (self.threadCharges binaries (self.passes binaries filter) t).flatMap
              Charge.shares ∧
            iv.durationAt self.now / handedCount self.now stats.petSamples prior iv < share) := by
  constructor
  · intro hkeeps x k
    rw [aggregateWithFilter_eq, aggregateWithFilter_eq]
    have hempty : self.passes binaries {} = fun _ => true := rfl
    rw [hempty]
    refine stats_le_of_sublist ?_ x k
    unfold charges creditsOf
    rw [List.flatMap_assoc, List.flatMap_assoc]
    refine List.Sublist.flatMap_right _ fun t ht => ?_
    unfold threadCharges
    cases hstats : self.threads.lookup t with
    | none => exact List.Sublist.refl _
    | some stats =>
        exact credits_outputs_sublist binaries _ self.now t (hkeeps t ht stats hstats)
  · intro hnot
    unfold KeepsShares at hnot
    push Not at hnot
    obtain ⟨t, ht, stats, hstats, hnot⟩ := hnot
    obtain ⟨prior, iv, post, hsplit, s, hs, share, hshare, hgrown⟩ :=
      exists_grown_share binaries _ self.now t hnot
    refine ⟨t, ht, stats, hstats, prior, iv, post, hsplit, s, hs, share, ?_, hgrown⟩
    rw [threadCharges, hstats]
    exact hshare

/-- Two samples share ten nanoseconds: one of `0xa0`, one of `0xb0`. -/
def sharedSlice : Aggregator := replay
  [.petSample 1 { timestampNs := 12, stack := [0xa0] },
    .petSample 1 { timestampNs := 15, stack := [0xb0] },
    .interval 1 { startNs := 10, endNs := 20, kind := .onCpu }]

/-- A registry that knows `0xb0` only. -/
def onlyB : BinaryRegistry := fun addr =>
  if addr = 0xb0 then
    some { functionName := "b", binary := "app", isMain := true, language := .c }
  else none

/-- With `b` excluded the other sample is credited the whole interval. -/
theorem sharedSlice_grows :
    ¬ sharedSlice.OnlyRemoves (some 1) onlyB { excludeSymbols := [⟨some "b", some "app"⟩] } := by
  intro h
  have hself := (h 0xa0 .onCpuNs).1
  revert hself
  decide +kernel

end Aggregator

end Stax.Live
