/-
# Stax.Live.Wakers — who woke a thread.

The panel goes through a thread's wakeups and counts them for each waker and leaf address, keeps the
fifty largest groups, and only then asks which function a leaf is in.  So a function that woke the
thread from two places is in the panel twice, and what is in the groups beyond the fiftieth is in
no entry and not in the total.
-/
import Stax.Lib.Capped
import Stax.Lib.Grouping
import Stax.Live.FlameQuotient
import Stax.Live.TopEntries

namespace Stax.Live

open Stax.Lib

/-! ## The model -/

/-- How often a thread has woken the other from one address. -/
structure RawWakerEntry where
  wakerTid : Tid
  wakerLeafAddress : Addr
  count : ℕ
  deriving DecidableEq, Repr

/-- A row of wakers as it is sent, its address resolved. -/
structure WakerEntry where
  wakerTid : Tid
  wakerAddress : Addr
  wakerFunctionName : Option String
  wakerBinary : Option String
  language : String
  count : ℕ
  deriving DecidableEq, Repr

/-- The wakers of a thread as they are sent, with the sum over the rows that are listed. -/
structure WakersUpdate where
  wakeeTid : Tid
  totalWakeups : ℕ
  entries : List WakerEntry
  deriving DecidableEq, Repr

/-- The leaf of a wakeup: of the user stack, or else of the kernel stack, or zero. -/
def RawWakeup.leaf (w : RawWakeup) : Addr :=
  (w.wakerUserStack.head?.or w.wakerKernelStack.head?).getD 0

/-- What a wakeup is counted under. -/
def RawWakeup.key (w : RawWakeup) : Tid × Addr := (w.wakerTid, w.leaf)

/-- The groups of a ledger. -/
def wakerGroups (wakeups : List RawWakeup) : List ((Tid × Addr) × RawWakerEntry) :=
  wakeups.foldl (fun groups w => Grouping.modifyOrInsert w.key
    (fun e => { e with count := e.count + 1 })
    { wakerTid := w.wakerTid, wakerLeafAddress := w.leaf, count := 1 } groups) []

/-- The wakeups a thread's ledger holds. -/
def Aggregator.wakeups (self : Aggregator) (wakeeTid : Tid) : List RawWakeup :=
  ((self.threads.lookup wakeeTid).getD {}).wakeups

/-- An order in which the map of groups may be gone through. -/
structure WakerIteration (wakeups : List RawWakeup) where
  rows : List RawWakerEntry
  perm : rows.Perm ((wakerGroups wakeups).map Prod.snd)

/-- The wakers that woke a thread most often, grouped by thread and leaf address. -/
def Aggregator.topWakers (self : Aggregator) (wakeeTid : Tid)
    (iteration : WakerIteration (self.wakeups wakeeTid)) (limit : ℕ) : List RawWakerEntry :=
  match self.threads.lookup wakeeTid with
  | none => []
  | some _ => (iteration.rows.insertionSort fun a b => b.count ≤ a.count).take limit

/-- A row with the names that the registry has for its address. -/
def RawWakerEntry.resolve (binaries : BinaryRegistry) (w : RawWakerEntry) : WakerEntry :=
  let resolved := Resolved.of (binaries w.wakerLeafAddress)
  { wakerTid := w.wakerTid
    wakerAddress := w.wakerLeafAddress
    wakerFunctionName := resolved.key.1
    wakerBinary := resolved.key.2
    language := resolved.language.asStr
    count := w.count }

/-- The fifty most frequent wakers of a thread, as they are sent to a viewer. -/
def buildWakersUpdate (agg : Aggregator) (binaries : BinaryRegistry) (wakeeTid : Tid)
    (iteration : WakerIteration (agg.wakeups wakeeTid)) : WakersUpdate :=
  let raw := agg.topWakers wakeeTid iteration 50
  { wakeeTid
    totalWakeups := (raw.map RawWakerEntry.count).sum
    entries := raw.map (RawWakerEntry.resolve binaries) }

/-! ## What the panel is to say -/

/-- The waker and the symbol of an entry. -/
def WakerEntry.symbol (e : WakerEntry) : Tid × SymbolKey :=
  (e.wakerTid, e.wakerFunctionName, e.wakerBinary)

/-- The waker and the symbol of a wakeup. -/
def RawWakeup.symbol (binaries : BinaryRegistry) (w : RawWakeup) : Tid × SymbolKey :=
  (w.wakerTid, symbolOf binaries w.leaf)

/-- The entries split up the ledger by waker and function, the largest part first. -/
structure WakersUpdate.PartitionsLedger (update : WakersUpdate) (binaries : BinaryRegistry)
    (wakeups : List RawWakeup) : Prop where
  distinct : (update.entries.map WakerEntry.symbol).Nodup
  counts : ∀ e ∈ update.entries,
    e.count = wakeups.countP fun w => w.symbol binaries = e.symbol
  sorted : update.entries.Pairwise fun a b => b.count ≤ a.count
  total : update.totalWakeups = wakeups.length

/-! ## The groups -/

section Groups

variable {wakeups : List RawWakeup}

theorem wakerGroups_eq (wakeups : List RawWakeup) :
    wakerGroups wakeups = Grouping.group RawWakeup.key
      (fun w => { wakerTid := w.wakerTid, wakerLeafAddress := w.leaf, count := 0 })
      (fun e _ => { e with count := e.count + 1 }) wakeups := by
  unfold wakerGroups Grouping.group
  congr 1
  funext groups w
  exact Grouping.modifyOrInsert_eq_upsert w.key (fun e => { e with count := e.count + 1 })
    { wakerTid := w.wakerTid, wakerLeafAddress := w.leaf, count := 0 } groups

theorem foldl_count (ws : List RawWakeup) (e : RawWakerEntry) :
    ws.foldl (fun e _ => { e with count := e.count + 1 }) e =
      { e with count := e.count + ws.length } := by
  induction ws generalizing e with
  | nil => rfl
  | cons w ws ih =>
      rw [List.foldl_cons, ih, List.length_cons]
      congr 1
      show e.count + 1 + ws.length = e.count + (ws.length + 1)
      omega

/-- A group counts the wakeups of its key. -/
theorem mem_wakerGroups {g : (Tid × Addr) × RawWakerEntry} :
    g ∈ wakerGroups wakeups ↔ (∃ w ∈ wakeups, w.key = g.1) ∧
      g.2 = { wakerTid := g.1.1
              wakerLeafAddress := g.1.2
              count := wakeups.countP fun w => w.key = g.1 } := by
  rw [wakerGroups_eq, Grouping.mem_group]
  simp only [foldl_count, Nat.zero_add]
  have hlength : (Grouping.members RawWakeup.key g.1 wakeups).length =
      wakeups.countP fun w => w.key = g.1 := List.countP_eq_length_filter.symm
  have hkey (w : RawWakeup) (hw : w ∈ Grouping.members RawWakeup.key g.1 wakeups) :
      w ∈ wakeups ∧ w.key = g.1 := by
    obtain ⟨hw, hkey⟩ := List.mem_filter.mp hw
    exact ⟨hw, of_decide_eq_true hkey⟩
  rw [← hlength]
  constructor
  · rintro ⟨w, rest, hmembers, hentry⟩
    obtain ⟨hw, hg⟩ := hkey w (hmembers ▸ List.mem_cons_self)
    refine ⟨⟨w, hw, hg⟩, ?_⟩
    rw [hentry, hmembers, ← hg]
    rfl
  · rintro ⟨⟨w, hw, hg⟩, hentry⟩
    have hmem : w ∈ Grouping.members RawWakeup.key g.1 wakeups :=
      List.mem_filter.mpr ⟨hw, decide_eq_true hg⟩
    obtain ⟨w', rest, hmembers⟩ := List.exists_cons_of_ne_nil (List.ne_nil_of_mem hmem)
    obtain ⟨-, hg'⟩ := hkey w' (hmembers ▸ List.mem_cons_self)
    refine ⟨w', rest, hmembers, ?_⟩
    rw [hentry, hmembers, ← hg']
    rfl

theorem nodup_wakerGroups : ((wakerGroups wakeups).map Prod.fst).Nodup := by
  rw [wakerGroups_eq]
  exact Grouping.nodup_group wakeups

theorem mem_keys_wakerGroups {k : Tid × Addr} :
    k ∈ (wakerGroups wakeups).map Prod.fst ↔ ∃ w ∈ wakeups, w.key = k := by
  rw [List.mem_map]
  constructor
  · rintro ⟨g, hg, rfl⟩
    exact (mem_wakerGroups.mp hg).1
  · intro h
    refine ⟨(k, { wakerTid := k.1
                  wakerLeafAddress := k.2
                  count := wakeups.countP fun w => w.key = k }), ?_, rfl⟩
    exact mem_wakerGroups.mpr ⟨h, rfl⟩

/-- There are as many groups as different wakers and leaves. -/
theorem length_wakerGroups (wakeups : List RawWakeup) :
    (wakerGroups wakeups).length = (wakeups.map RawWakeup.key).dedup.length := by
  rw [← List.length_map Prod.fst]
  apply List.Perm.length_eq
  refine (List.perm_ext_iff_of_nodup nodup_wakerGroups (List.nodup_dedup _)).mpr fun k => ?_
  rw [mem_keys_wakerGroups, List.mem_dedup, List.mem_map]

/-- The groups together count every wakeup. -/
theorem sum_count_wakerGroups (wakeups : List RawWakeup) :
    ((wakerGroups wakeups).map fun g => g.2.count).sum = wakeups.length := by
  have hsum := Grouping.sum_members (fun _ : RawWakeup => 1) (@nodup_wakerGroups wakeups)
    (fun w hw => mem_keys_wakerGroups.mpr ⟨w, hw, rfl⟩)
  rw [List.map_const', List.sum_replicate, smul_eq_mul, mul_one] at hsum
  rw [← hsum, List.map_map]
  congr 1
  apply List.map_congr_left
  intro g hg
  rw [(mem_wakerGroups.mp hg).2, Function.comp_apply, List.map_const', List.sum_replicate,
    smul_eq_mul, mul_one]
  exact List.countP_eq_length_filter

end Groups

/-! ## The panel -/

section Panel

variable {agg : Aggregator} {wakeeTid : Tid} (iteration : WakerIteration (agg.wakeups wakeeTid))

/-- The groups of the ledger, the largest first. -/
def WakerIteration.sorted {wakeups : List RawWakeup} (iteration : WakerIteration wakeups) :
    List RawWakerEntry :=
  iteration.rows.insertionSort fun a b => b.count ≤ a.count

theorem sorted_perm {wakeups : List RawWakeup} (iteration : WakerIteration wakeups) :
    iteration.sorted.Perm ((wakerGroups wakeups).map Prod.snd) :=
  (List.perm_insertionSort _ _).trans iteration.perm

theorem topWakers_eq (limit : ℕ) :
    agg.topWakers wakeeTid iteration limit = iteration.sorted.take limit := by
  unfold Aggregator.topWakers
  cases hthread : agg.threads.lookup wakeeTid with
  | some stats => rfl
  | none =>
      have hempty : agg.wakeups wakeeTid = [] := by
        unfold Aggregator.wakeups
        rw [hthread]
        rfl
      have hgroups : wakerGroups (agg.wakeups wakeeTid) = [] := by
        rw [hempty]
        rfl
      have hsorted := sorted_perm iteration
      rw [hgroups, List.map_nil] at hsorted
      rw [hsorted.eq_nil, List.take_nil]

/-- The panel's total is the whole ledger exactly when all groups are in it. -/
theorem total_eq_iff {wakeups : List RawWakeup} (iteration : WakerIteration wakeups) (limit : ℕ) :
    ((iteration.sorted.take limit).map RawWakerEntry.count).sum = wakeups.length ↔
      (wakeups.map RawWakeup.key).dedup.length ≤ limit := by
  have hlength : iteration.sorted.length = (wakeups.map RawWakeup.key).dedup.length := by
    rw [(sorted_perm iteration).length_eq, List.length_map, length_wakerGroups]
  have hall : (iteration.sorted.map RawWakerEntry.count).sum = wakeups.length := by
    rw [← sum_count_wakerGroups, ((sorted_perm iteration).map _).sum_eq, List.map_map]
    rfl
  constructor
  · intro hsum
    by_contra hmore
    -- a group that is left out has a wakeup
    have hdropped : iteration.sorted.drop limit ≠ [] := by
      rw [Ne, List.drop_eq_nil_iff]
      omega
    obtain ⟨e, he⟩ := List.exists_mem_of_ne_nil _ hdropped
    have hpos : 0 < e.count := by
      obtain ⟨g, hg, rfl⟩ := List.mem_map.mp
        ((sorted_perm iteration).mem_iff.mp (List.mem_of_mem_drop he))
      obtain ⟨⟨w, hw, hkey⟩, hentry⟩ := mem_wakerGroups.mp hg
      rw [hentry]
      exact List.countP_pos_iff.mpr ⟨w, hw, decide_eq_true hkey⟩
    have hle := List.single_le_sum (fun _ _ => Nat.zero_le _) _
      (List.mem_map_of_mem (f := RawWakerEntry.count) he)
    rw [← List.take_append_drop limit iteration.sorted, List.map_append, List.sum_append] at hall
    omega
  · intro hfew
    rw [List.take_of_length_le (by omega), hall]

end Panel

section Resolved

variable {binaries : BinaryRegistry} {wakeups : List RawWakeup}

/-- No waker has two leaves with one symbol. -/
def LeavesTold (binaries : BinaryRegistry) (wakeups : List RawWakeup) : Prop :=
  ∀ w ∈ wakeups, ∀ w' ∈ wakeups, w.wakerTid = w'.wakerTid →
    symbolOf binaries w.leaf = symbolOf binaries w'.leaf → w.leaf = w'.leaf

/-- All groups together have different symbols exactly when leaves are told apart by them. -/
theorem nodup_symbols_iff (iteration : WakerIteration wakeups) :
    ((iteration.sorted.map (RawWakerEntry.resolve binaries)).map WakerEntry.symbol).Nodup ↔
      LeavesTold binaries wakeups := by
  have hperm : ((iteration.sorted.map (RawWakerEntry.resolve binaries)).map
      WakerEntry.symbol).Perm (((wakerGroups wakeups).map Prod.fst).map fun k =>
        (k.1, symbolOf binaries k.2)) := by
    refine (((sorted_perm iteration).map _).map _).trans (List.Perm.of_eq ?_)
    rw [List.map_map, List.map_map, List.map_map]
    apply List.map_congr_left
    intro g hg
    show (RawWakerEntry.resolve binaries g.2).symbol = _
    rw [(mem_wakerGroups.mp hg).2]
    rfl
  rw [hperm.nodup_iff, List.nodup_map_iff_inj_on nodup_wakerGroups]
  constructor
  · intro hinj w hw w' hw' htid hsymbol
    have hkeys := hinj _ (mem_keys_wakerGroups.mpr ⟨w, hw, rfl⟩) _
      (mem_keys_wakerGroups.mpr ⟨w', hw', rfl⟩) (Prod.ext htid hsymbol)
    exact congrArg Prod.snd hkeys
  · intro htold k hk k' hk' heq
    obtain ⟨w, hw, rfl⟩ := mem_keys_wakerGroups.mp hk
    obtain ⟨w', hw', rfl⟩ := mem_keys_wakerGroups.mp hk'
    have htid := congrArg Prod.fst heq
    exact Prod.ext htid (htold w hw w' hw' htid (congrArg Prod.snd heq))

/-- Then an entry counts all wakeups of its waker and symbol. -/
theorem count_resolve (htold : LeavesTold binaries wakeups) (iteration : WakerIteration wakeups)
    {e : RawWakerEntry} (he : e ∈ iteration.sorted) :
    e.count = wakeups.countP fun w => w.symbol binaries = (e.resolve binaries).symbol := by
  obtain ⟨g, hg, rfl⟩ := List.mem_map.mp ((sorted_perm iteration).mem_iff.mp he)
  obtain ⟨⟨w₀, hw₀, hkey₀⟩, hentry⟩ := mem_wakerGroups.mp hg
  rw [hentry]
  apply List.countP_congr
  intro w hw
  rw [decide_eq_true_iff, decide_eq_true_iff, ← hkey₀]
  constructor
  · intro hkey
    have htid : w.wakerTid = w₀.wakerTid := congrArg Prod.fst hkey
    have hleaf : w.leaf = w₀.leaf := congrArg Prod.snd hkey
    exact Prod.ext htid (congrArg (symbolOf binaries) hleaf)
  · intro hsymbol
    have htid : w.wakerTid = w₀.wakerTid := congrArg Prod.fst hsymbol
    have hleaf : symbolOf binaries w.leaf = symbolOf binaries w₀.leaf := congrArg Prod.snd hsymbol
    exact Prod.ext htid (htold w hw w₀ hw₀ htid hleaf)

theorem sorted_resolve (iteration : WakerIteration wakeups) (limit : ℕ) :
    ((iteration.sorted.take limit).map (RawWakerEntry.resolve binaries)).Pairwise
      fun a b => b.count ≤ a.count := by
  rw [List.pairwise_map]
  exact (Capped.sorted_insertionSort RawWakerEntry.count iteration.rows).sublist
    (List.take_sublist _ _)

end Resolved

/-- The panel partitions the ledger exactly when there are few groups and each has a symbol of its
own.  For every aggregator, registry, thread and order of the map: the entries have different wakers
or functions, each counts the wakeups of its waker and function, the counts descend and the total is
the number of wakeups exactly when the ledger has at most fifty different pairs of a waker and a
leaf, and no waker has two leaves that resolve to the same symbol (or both to none). -/
theorem wakers_partition_iff (agg : Aggregator) (binaries : BinaryRegistry) (wakeeTid : Tid)
    (iteration : WakerIteration (agg.wakeups wakeeTid)) :
    (buildWakersUpdate agg binaries wakeeTid iteration).PartitionsLedger binaries
        (agg.wakeups wakeeTid) ↔
      ((agg.wakeups wakeeTid).map RawWakeup.key).dedup.length ≤ 50 ∧
        ∀ w ∈ agg.wakeups wakeeTid, ∀ w' ∈ agg.wakeups wakeeTid, w.wakerTid = w'.wakerTid →
          symbolOf binaries w.leaf = symbolOf binaries w'.leaf → w.leaf = w'.leaf := by
  have hupdate : buildWakersUpdate agg binaries wakeeTid iteration =
      { wakeeTid
        totalWakeups := ((iteration.sorted.take 50).map RawWakerEntry.count).sum
        entries := (iteration.sorted.take 50).map (RawWakerEntry.resolve binaries) } := by
    unfold buildWakersUpdate
    rw [topWakers_eq]
  have hlength : iteration.sorted.length =
      ((agg.wakeups wakeeTid).map RawWakeup.key).dedup.length := by
    rw [(sorted_perm iteration).length_eq, List.length_map, length_wakerGroups]
  rw [hupdate]
  constructor
  · intro h
    have hfew := (total_eq_iff iteration 50).mp h.total
    have hdistinct := h.distinct
    dsimp only at hdistinct
    rw [List.take_of_length_le (by omega)] at hdistinct
    exact ⟨hfew, (nodup_symbols_iff iteration).mp hdistinct⟩
  · rintro ⟨hfew, htold⟩
    have hall : iteration.sorted.take 50 = iteration.sorted := List.take_of_length_le (by omega)
    constructor
    · dsimp only
      rw [hall]
      exact (nodup_symbols_iff iteration).mpr htold
    · intro e he
      obtain ⟨raw, hraw, rfl⟩ := List.mem_map.mp he
      exact count_resolve htold iteration (List.mem_of_mem_take hraw)
    · exact sorted_resolve iteration 50
    · exact (total_eq_iff iteration 50).mpr hfew

/-- A thread that is woken twice by another, from two places in `f`. -/
def wokenTwice : Aggregator := Aggregator.replay
  [.wakeup 1 { timestampNs := 5, wakerTid := 7, wakerUserStack := [0xa0], wakerKernelStack := [] },
    .wakeup 1 { timestampNs := 6, wakerTid := 7, wakerUserStack := [0xa1], wakerKernelStack := [] }]

/-- Its panel has `f` twice. -/
theorem wokenTwice_listed_twice :
    ¬ (buildWakersUpdate wokenTwice callSites 1 ⟨_, List.Perm.refl _⟩).PartitionsLedger callSites
      (wokenTwice.wakeups 1) := by
  intro h
  have hdistinct := h.distinct
  revert hdistinct
  decide +kernel

end Stax.Live
