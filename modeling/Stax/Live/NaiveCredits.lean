/-
# Stax.Live.NaiveCredits — the aggregation counts what the naive attribution credits.

In a log in time order, each sample that passes the predicate asks the one on-CPU interval it lies in
for its share.  What the aggregation shows of an address, at a node of the stack tree and in the
headline is counted from these shares alone: a sample counts once at each address of its stack, at
its leaf once more, and at each node along the reversed stack.  A sample without a stack has its
share, but no address at which it is counted.
-/
import Stax.Live.StackCounts
import Stax.Live.ThreadMerge

namespace Stax.Live

open Stax.Lib

/-! ## The naive credits -/

/-- The passing samples whose timestamp lies in the interval. -/
def passingIn (predicate : EventCtx → Bool) (now : ℕ) (tid : Tid) (stats : ThreadStats)
    (interval : RawInterval) : List PetSample :=
  (samplesIn now stats.petSamples interval).filter fun s => predicate (.petSample tid s)

/-- What the samples of a thread are credited, each with its share. -/
def naiveShares (predicate : EventCtx → Bool) (now : ℕ) (tid : Tid) (stats : ThreadStats) :
    List (PetSample × ℕ) :=
  stats.petSamples.filterMap fun s => (naiveShare predicate now tid stats s).map (s, ·)

/-- The time of the on-CPU intervals whose passing samples get a share. -/
def sharedNs (predicate : EventCtx → Bool) (now : ℕ) (tid : Tid) (stats : ThreadStats) : ℕ :=
  ((stats.intervals.filter fun iv => iv.ran now &&
      (shareOf (iv.durationAt now) (passingIn predicate now tid stats iv).length).isSome).map
    fun iv => iv.durationAt now).sum

/-- The shares of the samples whose stack satisfies `p`, in a counter. -/
def creditedNs (p : List Addr → Bool) (credited : List (PetSample × ℕ)) : U64 :=
  toU64 ((credited.filter fun c => p c.1.stack).map Prod.snd).sum

/-- How many samples with such a stack have a share. -/
def creditedCount (p : List Addr → Bool) (credited : List (PetSample × ℕ)) : U64 :=
  toU64 (credited.countP fun c => p c.1.stack)

/-- The counters of a node, zero where there is none. -/
def StackNode.countersAt (self : StackNode) (path : List Addr) : Counters :=
  WithZero.lift (AddHom.id Counters) (self.at path)

namespace Aggregator

/-- Every sample that is credited, with its share, read off the kept events without a cursor. -/
def naiveCredits (self : Aggregator) (predicate : EventCtx → Bool) (tid : Option Tid) :
    List (PetSample × ℕ) :=
  (self.selected tid).flatMap fun t =>
    (self.threads.lookup t).toList.flatMap (naiveShares predicate self.now t)

end Aggregator

/-! ## The naive charges -/

section Naive

variable (binaries : BinaryRegistry) (predicate : EventCtx → Bool) {now : ℕ} (tid : Tid)
  {stats : ThreadStats}

/-- The interval that a sample finds is the only on-CPU interval it lies in. -/
theorem naiveShare_eq (h : TimeOrdered now stats) {iv : RawInterval} (hiv : iv ∈ stats.intervals)
    (hran : iv.ran now = true) {s : PetSample} (hs : (iv.span now).Contains s.timestampNs) :
    naiveShare predicate now tid stats s =
      if predicate (.petSample tid s) then
        shareOf (iv.durationAt now) (passingIn predicate now tid stats iv).length
      else none := by
  have hfind : stats.intervals.find?
      (fun iv => iv.ran now && (iv.span now).Contains s.timestampNs) = some iv := by
    obtain ⟨before, after, hsplit⟩ := List.append_of_mem hiv
    have hintervals := h.intervals
    rw [hsplit, List.filter_append, List.filter_cons_of_pos (by exact hran),
      List.pairwise_append] at hintervals
    rw [List.find?_eq_some_iff_append]
    refine ⟨by simpa [hran] using hs, before, after, hsplit, fun iv' hiv' => ?_⟩
    -- an earlier interval has ended where this one starts
    by_cases hran' : iv'.ran now = true
    · have hend := hintervals.2.2 iv' (List.mem_filter.mpr ⟨hiv', hran'⟩) iv List.mem_cons_self
      have hnot : ¬ (iv'.span now).Contains s.timestampNs := fun hin =>
        absurd (hin.2.trans_le (hend.trans hs.1)) (lt_irrefl _)
      simpa [hran'] using hnot
    · simp [hran']
  rw [naiveShare, hfind]
  rfl

/-- What an interval's samples are credited together is its share times their number. -/
theorem sum_naiveShares (h : TimeOrdered now stats) {iv : RawInterval}
    (hiv : iv ∈ stats.intervals) (hran : iv.ran now = true) :
    (((naiveShares predicate now tid stats).filter fun c =>
        (iv.span now).Contains c.1.timestampNs).map Prod.snd).sum =
      iv.durationAt now / (passingIn predicate now tid stats iv).length *
        (passingIn predicate now tid stats iv).length := by
  set k := (passingIn predicate now tid stats iv).length with hk
  have hinside : (naiveShares predicate now tid stats).filter
      (fun c => (iv.span now).Contains c.1.timestampNs) =
        (passingIn predicate now tid stats iv).filterMap fun s =>
          (shareOf (iv.durationAt now) k).map (s, ·) := by
    rw [naiveShares, passingIn, samplesIn, List.filter_filter, List.filterMap_filter,
      List.filter_filterMap]
    refine List.filterMap_congr fun s _ => ?_
    by_cases hs : (iv.span now).Contains s.timestampNs
    · rw [naiveShare_eq predicate tid h hiv hran hs]
      by_cases hpass : predicate (.petSample tid s) = true
      · cases shareOf (iv.durationAt now) k <;> simp [hpass, hs]
      · simp [hpass]
    · cases naiveShare predicate now tid stats s <;> simp [hs]
  rw [hinside, shareOf]
  split
  · rename_i hzero
    simp [hzero]
  · have hmap : (passingIn predicate now tid stats iv).filterMap
        (fun s => (some (iv.durationAt now / k)).map (s, ·)) =
          (passingIn predicate now tid stats iv).map fun s => (s, iv.durationAt now / k) :=
      congrFun List.filterMap_eq_map' _
    rw [hmap, List.map_map]
    simp [Function.comp_def, ← hk, Nat.mul_comm]

/-- An interval is charged in full when its samples get a share, and not at all otherwise. -/
theorem onCpuDuration_naive (iv : RawInterval) :
    ((naiveCharges binaries predicate now tid stats.petSamples iv).map Charge.onCpuDuration).sum =
      (iv.ran now && (shareOf (iv.durationAt now)
        (passingIn predicate now tid stats iv).length).isSome).toNat * iv.durationAt now := by
  obtain ⟨start, stop, kind⟩ := iv
  unfold naiveCharges intervalCharges
  by_cases hzero : RawInterval.durationAt ⟨start, stop, kind⟩ now = 0
  · simp [hzero]
  · rw [if_neg hzero]
    cases kind with
    | onCpu =>
        have hran : RawInterval.ran ⟨start, stop, .onCpu⟩ now = true := by
          simp [RawInterval.ran, RawInterval.isOnCpu, hzero]
        rw [hran, Bool.true_and, shareOf]
        show ((chargeOnCpu _ (passingIn predicate now tid stats ⟨start, stop, .onCpu⟩)).map
          Charge.onCpuDuration).sum = _
        unfold chargeOnCpu
        split
        · rename_i hnil
          simp [hnil]
        · split <;> simp [Charge.onCpuDuration]
    | offCpu stack wakerTid wakerUserStack =>
        have hran : RawInterval.ran ⟨start, stop, .offCpu stack wakerTid wakerUserStack⟩ now =
            false := by
          simp [RawInterval.ran, RawInterval.isOnCpu]
        rw [hran, Bool.false_and, Bool.toNat_false, Nat.zero_mul]
        dsimp only
        split <;> rfl

theorem sum_onCpuDuration_naive :
    ((stats.intervals.flatMap (naiveCharges binaries predicate now tid stats.petSamples)).map
        Charge.onCpuDuration).sum = sharedNs predicate now tid stats := by
  rw [sharedNs, sum_filter_eq, List.map_flatMap, List.flatMap_def, List.sum_flatten, List.map_map]
  exact congrArg List.sum (List.map_congr_left fun iv _ =>
    onCpuDuration_naive binaries predicate tid iv)

end Naive

/-! ## Counting the credits -/

namespace Aggregation

theorem once_smul {M : Type*} [AddCommMonoid M] (p : List Addr → Bool) (stack : List Addr) (m : M) :
    once p stack • m = if p stack = true then m else 0 := by
  unfold once
  cases p stack <;> simp

/-- An address's totals count every credit whose stack passes it. -/
theorem get_total_eq_countedSum (chs : List Charge) (x : Addr) (k : Counter) :
    ((ofCharges chs).byAddress.stats x).total.get k = countedSum (once (x ∈ ·)) chs k := by
  rw [get_total_stats, countedSum]
  simp only [once_smul, decide_eq_true_eq]

/-- Its own counters count every credit whose stack ends in it. -/
theorem get_self_eq_countedSum (chs : List Charge) (x : Addr) (k : Counter) :
    ((ofCharges chs).byAddress.stats x).self.get k =
      countedSum (once (·.head? = some x)) chs k := by
  rw [get_self_stats, countedSum]
  simp only [once_smul, decide_eq_true_eq]

/-- A node's counters count every credit whose reversed stack leads through it. -/
theorem get_countersAt_eq_countedSum (chs : List Charge) {path : List Addr} (hpath : path ≠ [])
    (k : Counter) :
    ((ofCharges chs).flameRoot.countersAt path).get k =
      countedSum (once (path <+: ·.reverse)) chs k := by
  have hhom := map_list_sum ((Counters.getHom k).comp (WithZero.lift (AddHom.id Counters)))
    ((creditsOf chs).map fun c => Trie.creditAt path c.stack.reverse c.delta)
  rw [List.map_map] at hhom
  rw [StackNode.countersAt, at_flameRoot_ofCharges chs hpath, countedSum]
  refine hhom.trans (congrArg List.sum (List.map_congr_left fun c _ => ?_))
  show (WithZero.lift (AddHom.id Counters)
    (Trie.creditAt path c.stack.reverse c.delta)).get k = _
  rw [once_smul, Trie.creditAt]
  by_cases hprefix : path <+: c.stack.reverse
  · rw [if_pos ⟨hpath, hprefix⟩, if_pos (decide_eq_true hprefix), WithZero.lift_coe]
    rfl
  · rw [if_neg fun h => hprefix h.2, if_neg (by simpa using hprefix), map_zero]
    exact Counters.get_zero k

end Aggregation

namespace Aggregator

open Aggregation

variable {self : Aggregator} {tid : Option Tid} (binaries : BinaryRegistry)
  (predicate : EventCtx → Bool)

/-- In a log in time order the walk charges each interval for the samples inside it. -/
theorem charges_eq_naive (hordered : ∀ t ∈ self.selected tid, ∀ stats,
      self.threads.lookup t = some stats → TimeOrdered self.now stats) :
    self.charges binaries predicate (self.selected tid) =
      (self.selected tid).flatMap fun t => (self.threads.lookup t).toList.flatMap fun stats =>
        stats.intervals.flatMap (naiveCharges binaries predicate self.now t stats.petSamples) := by
  rw [charges]
  refine List.flatMap_congr fun t ht => ?_
  unfold threadCharges
  cases hstats : self.threads.lookup t with
  | none => rfl
  | some stats =>
      rw [Option.toList_some, List.flatMap_singleton]
      exact attribution_outputs_eq_naive binaries predicate t (hordered t ht stats hstats)

theorem creditedSamples_charges (hordered : ∀ t ∈ self.selected tid, ∀ stats,
      self.threads.lookup t = some stats → TimeOrdered self.now stats) :
    creditedSamples (self.charges binaries predicate (self.selected tid)) =
      self.naiveCredits predicate tid := by
  rw [charges_eq_naive binaries predicate hordered, creditedSamples, naiveCredits,
    List.flatMap_assoc]
  refine List.flatMap_congr fun t ht => ?_
  cases hstats : self.threads.lookup t with
  | none => rfl
  | some stats =>
      rw [Option.toList_some, List.flatMap_singleton, List.flatMap_singleton]
      exact shares_naive binaries predicate t (hordered t ht stats hstats)

/-- The headline has the duration of every interval whose samples get a share. -/
theorem totalOnCpuNs_eq_naive (hordered : ∀ t ∈ self.selected tid, ∀ stats,
      self.threads.lookup t = some stats → TimeOrdered self.now stats) :
    (self.aggregate tid binaries predicate).totalOnCpuNs =
      toU64 ((self.selected tid).map fun t => ((self.threads.lookup t).toList.map
        (sharedNs predicate self.now t)).sum).sum := by
  have hhom := map_list_sum (Sat.ofNatHom u64Max)
    ((self.charges binaries predicate (self.selected tid)).map Charge.onCpuDuration)
  rw [List.map_map] at hhom
  refine (totalOnCpuNs_ofCharges _).trans (hhom.symm.trans (congrArg toU64 ?_))
  rw [charges_eq_naive binaries predicate hordered, List.map_flatMap, List.flatMap_def,
    List.sum_flatten, List.map_map]
  refine congrArg List.sum (List.map_congr_left fun t _ => ?_)
  show (((self.threads.lookup t).toList.flatMap fun stats => _).map Charge.onCpuDuration).sum = _
  cases self.threads.lookup t with
  | none => rfl
  | some stats =>
      rw [Option.toList_some, List.flatMap_singleton, List.map_singleton, List.sum_singleton]
      exact sum_onCpuDuration_naive binaries predicate t

/-- The aggregation of a log whose selected threads have their samples in time order and their
on-CPU intervals one after the other counts what the naive attribution credits.  An address's totals
are the shares and the number of the samples whose stack passes it, its own counters those of the
samples whose stack ends in it, a node's those of the samples whose reversed stack leads through it.
The headline has the duration of every interval whose samples get a share.  Together the samples in
an interval are credited its share times their number: never more than its duration, and less than
one nanosecond a sample short of it. -/
theorem aggregate_eq_naive (self : Aggregator) (tid : Option Tid) (binaries : BinaryRegistry)
    (predicate : EventCtx → Bool)
    (hordered : ∀ t ∈ self.selected tid, ∀ stats, self.threads.lookup t = some stats →
      TimeOrdered self.now stats) :
    let agg := self.aggregate tid binaries predicate
    let credited := self.naiveCredits predicate tid
    (∀ x, (agg.byAddress.stats x).total.onCpuNs = creditedNs (x ∈ ·) credited ∧
      (agg.byAddress.stats x).total.petSamples = creditedCount (x ∈ ·) credited ∧
      (agg.byAddress.stats x).self.onCpuNs = creditedNs (·.head? = some x) credited ∧
      (agg.byAddress.stats x).self.petSamples = creditedCount (·.head? = some x) credited) ∧
    (∀ path, path ≠ [] →
      (agg.flameRoot.countersAt path).onCpuNs = creditedNs (path <+: ·.reverse) credited ∧
      (agg.flameRoot.countersAt path).petSamples = creditedCount (path <+: ·.reverse) credited) ∧
    agg.totalOnCpuNs = toU64 ((self.selected tid).map fun t => ((self.threads.lookup t).toList.map
      (sharedNs predicate self.now t)).sum).sum ∧
    ∀ t ∈ self.selected tid, ∀ stats, self.threads.lookup t = some stats →
      ∀ iv ∈ stats.intervals, iv.ran self.now = true →
        let k := (passingIn predicate self.now t stats iv).length
        let ns := (((naiveShares predicate self.now t stats).filter fun c =>
          (iv.span self.now).Contains c.1.timestampNs).map Prod.snd).sum
        ns = iv.durationAt self.now / k * k ∧ ns ≤ iv.durationAt self.now ∧
          (0 < k → iv.durationAt self.now < ns + k) := by
  intro agg credited
  have hcredited := creditedSamples_charges binaries predicate hordered
  have hns (p : List Addr → Bool) :
      countedSum (once p) (self.charges binaries predicate (self.selected tid)) .onCpuNs =
        creditedNs p credited := by
    rw [countedSum_onCpuNs, ← sampleTime_eq, sampleTime, hcredited]
    rfl
  have hcount (p : List Addr → Bool) :
      countedSum (once p) (self.charges binaries predicate (self.selected tid)) .petSamples =
        creditedCount p credited := by
    rw [countedSum_petSamples, ← sampleCount_eq, sampleCount, hcredited]
    rfl
  refine ⟨fun x => ⟨?_, ?_, ?_, ?_⟩, fun path hpath => ⟨?_, ?_⟩,
    totalOnCpuNs_eq_naive binaries predicate hordered, ?_⟩
  · exact (get_total_eq_countedSum _ x .onCpuNs).trans (hns _)
  · exact (get_total_eq_countedSum _ x .petSamples).trans (hcount _)
  · exact (get_self_eq_countedSum _ x .onCpuNs).trans (hns _)
  · exact (get_self_eq_countedSum _ x .petSamples).trans (hcount _)
  · exact (get_countersAt_eq_countedSum _ hpath .onCpuNs).trans (hns _)
  · exact (get_countersAt_eq_countedSum _ hpath .petSamples).trans (hcount _)
  · intro t ht stats hstats iv hiv hran k ns
    have hsum : ns = iv.durationAt self.now / k * k :=
      sum_naiveShares predicate t (hordered t ht stats hstats) hiv hran
    refine ⟨hsum, hsum ▸ Nat.div_mul_le_self _ k, fun hk => ?_⟩
    rw [hsum]
    exact Nat.lt_div_mul_add hk

/-- Two on-CPU intervals that meet at 20 with a parked stretch listed between them: the sample at 20
belongs to the second, the one at 40 to none. -/
def adjacentIntervals : Aggregator := replay
  [.petSample 1 { timestampNs := 15, stack := [0xa0, 0xd0] },
    .petSample 1 { timestampNs := 20, stack := [0xb0, 0xd0] },
    .petSample 1 { timestampNs := 29, stack := [0xb0, 0xb0] },
    .petSample 1 { timestampNs := 40, stack := [0xa0, 0xd0] },
    .interval 1 { startNs := 10, endNs := 20, kind := .onCpu },
    .interval 1 { startNs := 5, endNs := 8, kind := .offCpu [] none none },
    .interval 1 { startNs := 20, endNs := 31, kind := .onCpu }]

/-- The recursive stack counts once at its address, and at both nodes along it. -/
theorem aggregate_eq_naive_adjacentIntervals :
    let agg := adjacentIntervals.aggregate (some 1) (fun _ => none) fun _ => true
    ((agg.byAddress.stats 0xd0).total.onCpuNs = toU64 15 ∧
      (agg.byAddress.stats 0xd0).total.petSamples = toU64 2 ∧
      (agg.byAddress.stats 0xb0).total.onCpuNs = toU64 10 ∧
      (agg.byAddress.stats 0xb0).self.petSamples = toU64 2) ∧
    (agg.flameRoot.countersAt [0xb0, 0xb0]).onCpuNs = toU64 5 ∧
    agg.totalOnCpuNs = toU64 21 := by
  have hordered : ∀ t ∈ adjacentIntervals.selected (some 1), ∀ stats,
      adjacentIntervals.threads.lookup t = some stats →
        TimeOrdered adjacentIntervals.now stats := by
    intro t ht stats hstats
    obtain rfl : t = 1 := by
      have hmem : t ∈ ([1] : List Tid) := ht
      simpa using hmem
    cases hstats
    exact ⟨by decide, by decide⟩
  intro agg
  obtain ⟨haddress, hnode, htotal, -⟩ :=
    aggregate_eq_naive adjacentIntervals (some 1) (fun _ => none) (fun _ => true) hordered
  refine ⟨⟨?_, ?_, ?_, ?_⟩, ?_, ?_⟩
  · exact (haddress 0xd0).1.trans (by decide)
  · exact (haddress 0xd0).2.1.trans (by decide)
  · exact (haddress 0xb0).1.trans (by decide)
  · exact (haddress 0xb0).2.2.2.trans (by decide)
  · exact (hnode [0xb0, 0xb0] (by simp)).1.trans (by decide)
  · exact htotal.trans (by decide)

end Aggregator

end Stax.Live
