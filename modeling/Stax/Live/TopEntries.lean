/-
# Stax.Live.TopEntries — the table of the hottest symbols.

The table has a row for each symbol: the entries of the addresses that resolve to it, added up.  An
address that does not resolve has a row of its own.  An address's total counts a stack once, however
often the address is on it; a row adds up its addresses, so it counts a stack as often as the stack
has different addresses of the row.
-/
import Stax.Live.StackCounts
import Stax.Binaries.Registry
import Stax.Lib.RunningMax

namespace Stax.Live

open Stax.Lib
open Stax.Binaries (hex)

/-! ## The model -/

/-- By which counters rows are sorted, those of leaves or those of whole stacks. -/
inductive TopSort
  | bySelf
  | byTotal
  deriving DecidableEq, Repr

/-- A row of the table of functions as it is sent. -/
structure TopEntry where
  address : Addr
  functionName : Option String
  binary : Option String
  isMain : Bool
  language : String
  stats : AddressStats
  deriving DecidableEq, Repr

/-- The symbol of an address. -/
def symbolOf (binaries : BinaryRegistry) (address : Addr) : SymbolKey :=
  (Resolved.of (binaries address)).key

/-- What an address is grouped by: its symbol, or itself when it has none. -/
def rowKey (binaries : BinaryRegistry) (address : Addr) : String × String :=
  match symbolOf binaries address with
  | (some n, some b) => (n, b)
  | _ => (hex address, "")

/-- A row under construction. -/
structure Agg where
  address : Addr
  representativeSelfNs : U64
  stats : AddressStats
  functionName : Option String
  binary : Option String
  isMain : Bool
  language : Language
  deriving DecidableEq, Repr

/-- A row's first address. -/
def Agg.insert (binaries : BinaryRegistry) (row : Addr × AddressStats) : Agg :=
  let resolved := Resolved.of (binaries row.1)
  { address := row.1
    representativeSelfNs := row.2.self.onCpuNs
    stats := row.2
    functionName := resolved.key.1
    binary := resolved.key.2
    isMain := resolved.isMain
    language := resolved.language }

/-- A row's further addresses. -/
def Agg.modify (g : Agg) (row : Addr × AddressStats) : Agg :=
  let g := { g with stats := g.stats + row.2 }
  if g.representativeSelfNs.val < row.2.self.onCpuNs.val then
    { g with address := row.1, representativeSelfNs := row.2.self.onCpuNs }
  else g

/-- The row of a group, without the share by which its representative was picked. -/
def Agg.entry (g : Agg) : TopEntry where
  address := g.address
  functionName := g.functionName
  binary := g.binary
  isMain := g.isMain
  language := g.language.asStr
  stats := g.stats

/-- The loop over the addresses. -/
def groupRows (binaries : BinaryRegistry) (rows : List (Addr × AddressStats)) :
    List ((String × String) × Agg) :=
  rows.foldl (fun groups row =>
    Grouping.modifyOrInsert (rowKey binaries row.1) (fun g => g.modify row)
      (Agg.insert binaries row) groups) []

/-- Time as a leaf, on and off the CPU. -/
def TopEntry.selfNs (e : TopEntry) : U64 := e.stats.self.durationNs

/-- Time anywhere on the stack. -/
def TopEntry.totalNs (e : TopEntry) : U64 := e.stats.total.durationNs

/-- Longest first by one of the times, then by the other, then by name and address. -/
def compareTop (sort : TopSort) (a b : TopEntry) : Ordering :=
  (match sort with
    | .bySelf => (compare b.selfNs.val a.selfNs.val).then (compare b.totalNs.val a.totalNs.val)
    | .byTotal => (compare b.totalNs.val a.totalNs.val).then (compare b.selfNs.val a.selfNs.val)).then
  ((compare a.functionName b.functionName).then
    ((compare a.binary b.binary).then (compare a.address.toNat b.address.toNat)))

/-- All rows in order. -/
def sortedRows (binaries : BinaryRegistry) (sort : TopSort) (rows : List (Addr × AddressStats)) :
    List TopEntry :=
  ((groupRows binaries rows).map fun g => g.2.entry).insertionSort
    fun a b => (compareTop sort a b).isLE

/-- The addresses of a table with their counters. -/
def ByAddress.rows (table : ByAddress) : List (Addr × AddressStats) :=
  table.entries.map fun e => (e.1, e.2)

/-- An order in which the map may be gone through. -/
structure ByAddress.Iteration (table : ByAddress) where
  rows : List (Addr × AddressStats)
  perm : rows.Perm table.rows

/-- The first rows of the table of functions: addresses grouped by function, and sorted. -/
def groupTopEntries (aggregation : Aggregation) (iteration : aggregation.byAddress.Iteration)
    (binaries : BinaryRegistry) (sort : TopSort) (limit : ℕ) : List TopEntry :=
  (sortedRows binaries sort iteration.rows).take limit

/-! ## Rows and their addresses -/

section Rows

variable {binaries : BinaryRegistry} {rows : List (Addr × AddressStats)}

/-- The entries of the addresses of a row. -/
def rowMembers (binaries : BinaryRegistry) (rows : List (Addr × AddressStats))
    (key : String × String) : List (Addr × AddressStats) :=
  Grouping.members (fun row : Addr × AddressStats => rowKey binaries row.1) key rows

/-- A row before its first address is added. -/
def Agg.start (binaries : BinaryRegistry) (row : Addr × AddressStats) : Agg :=
  { Agg.insert binaries row with representativeSelfNs := 0, stats := 0 }

theorem modify_start (row : Addr × AddressStats) :
    (Agg.start binaries row).modify row = Agg.insert binaries row := by
  unfold Agg.modify Agg.start Agg.insert
  dsimp only
  rw [zero_add, Sat.val_zero]
  split
  · rfl
  · rename_i hzero
    have hself : row.2.self.onCpuNs = 0 := by
      ext
      exact Nat.eq_zero_of_not_pos hzero
    rw [hself]

theorem groupRows_eq (rows : List (Addr × AddressStats)) :
    groupRows binaries rows =
      Grouping.group (fun row : Addr × AddressStats => rowKey binaries row.1)
        (Agg.start binaries) Agg.modify rows := by
  unfold groupRows Grouping.group
  congr 1
  funext groups row
  rw [← modify_start, Grouping.modifyOrInsert_eq_upsert]

/-- A row is made of its addresses in the order they come. -/
theorem mem_groupRows {e : (String × String) × Agg} :
    e ∈ groupRows binaries rows ↔
      ∃ first rest, rowMembers binaries rows e.1 = first :: rest ∧
        e.2 = rest.foldl Agg.modify (Agg.insert binaries first) := by
  rw [groupRows_eq, Grouping.mem_group]
  refine exists_congr fun first => exists_congr fun rest => and_congr_right fun _ => ?_
  rw [List.foldl_cons, modify_start]

theorem mem_sortedRows {sort : TopSort} {e : TopEntry} :
    e ∈ sortedRows binaries sort rows ↔ ∃ g ∈ groupRows binaries rows, g.2.entry = e := by
  unfold sortedRows
  rw [List.mem_insertionSort, List.mem_map]

theorem mem_rowMembers {key : String × String} {row : Addr × AddressStats} :
    row ∈ rowMembers binaries rows key ↔ row ∈ rows ∧ rowKey binaries row.1 = key := by
  unfold rowMembers Grouping.members
  rw [List.mem_filter, decide_eq_true_iff]

/-! ### What a row has added up -/

theorem stats_modify (g : Agg) (row : Addr × AddressStats) :
    (g.modify row).stats = g.stats + row.2 := by
  unfold Agg.modify
  dsimp only
  split <;> rfl

theorem stats_foldl_modify (rest : List (Addr × AddressStats)) (g : Agg) :
    (rest.foldl Agg.modify g).stats = g.stats + (rest.map Prod.snd).sum := by
  induction rest generalizing g with
  | nil => simp
  | cons row rest ih =>
      rw [List.foldl_cons, ih, stats_modify, List.map_cons, List.sum_cons, add_assoc]

/-- A row's counters are the sums of its addresses'. -/
theorem stats_eq_sum {g : (String × String) × Agg} (hg : g ∈ groupRows binaries rows) :
    g.2.stats = ((rowMembers binaries rows g.1).map Prod.snd).sum := by
  obtain ⟨first, rest, hmembers, hagg⟩ := mem_groupRows.mp hg
  rw [hmembers, hagg, stats_foldl_modify, List.map_cons, List.sum_cons]
  rfl

/-! ### The address a row shows -/

/-- An address with its time as a leaf. -/
def candidate (row : Addr × AddressStats) : Addr × U64 := (row.1, row.2.self.onCpuNs)

/-- The time of a candidate. -/
def leafTime (c : Addr × U64) : ℕ := c.2.val

/-- The address a row shows and its time. -/
def Agg.representative (g : Agg) : Addr × U64 := (g.address, g.representativeSelfNs)

theorem representative_foldl_modify (rest : List (Addr × AddressStats)) (g : Agg) :
    (rest.foldl Agg.modify g).representative =
      RunningMax.leader leafTime g.representative (rest.map candidate) := by
  induction rest generalizing g with
  | nil => rfl
  | cons row rest ih =>
      rw [List.foldl_cons, ih, List.map_cons]
      show _ = RunningMax.leader leafTime
        (RunningMax.challenge leafTime g.representative (candidate row)) _
      congr 1
      unfold Agg.modify RunningMax.challenge
      dsimp only
      split <;> split <;> first | rfl | contradiction

/-- A row shows the address that has most time as a leaf, the first of several. -/
theorem representative_eq_leader {g : (String × String) × Agg}
    {first : Addr × AddressStats} {rest : List (Addr × AddressStats)}
    (hagg : g.2 = rest.foldl Agg.modify (Agg.insert binaries first)) :
    g.2.representative = RunningMax.leader leafTime (candidate first) (rest.map candidate) := by
  rw [hagg, representative_foldl_modify]
  rfl

/-- The address a row shows is one of the row's, and none has more time as a leaf. -/
theorem representative_spec {g : (String × String) × Agg} (hg : g ∈ groupRows binaries rows) :
    (∃ row ∈ rowMembers binaries rows g.1, candidate row = g.2.representative) ∧
      ∀ row ∈ rowMembers binaries rows g.1, row.2.self.onCpuNs.val ≤ leafTime g.2.representative := by
  obtain ⟨first, rest, hmembers, hagg⟩ := mem_groupRows.mp hg
  rw [representative_eq_leader hagg, hmembers]
  constructor
  · have hmem : RunningMax.leader leafTime (candidate first) (rest.map candidate) ∈
        (first :: rest).map candidate := RunningMax.leader_mem_cons
    exact List.mem_map.mp hmem
  · intro row hrow
    show leafTime (candidate row) ≤ _
    rcases List.mem_cons.mp hrow with rfl | hrow
    · exact RunningMax.start_le_leader
    · exact RunningMax.le_leader _ (List.mem_map_of_mem hrow)

/-- The address a row shows is of the row. -/
theorem rowKey_address {g : (String × String) × Agg} (hg : g ∈ groupRows binaries rows) :
    rowKey binaries g.2.entry.address = g.1 := by
  obtain ⟨⟨row, hrow, hrep⟩, -⟩ := representative_spec hg
  have haddress : row.1 = g.2.address := congrArg Prod.fst hrep
  show rowKey binaries g.2.address = g.1
  rw [← haddress]
  exact (mem_rowMembers.mp hrow).2

/-! ### The names a row shows -/

/-- A group keeps the names of its first address whatever is added to it. -/
theorem names_foldl_modify (rest : List (Addr × AddressStats)) (g : Agg) :
    (rest.foldl Agg.modify g).functionName = g.functionName ∧
      (rest.foldl Agg.modify g).binary = g.binary ∧
      (rest.foldl Agg.modify g).isMain = g.isMain ∧
      (rest.foldl Agg.modify g).language = g.language := by
  induction rest generalizing g with
  | nil => exact ⟨rfl, rfl, rfl, rfl⟩
  | cons row rest ih =>
      have hone : (g.modify row).functionName = g.functionName ∧
          (g.modify row).binary = g.binary ∧ (g.modify row).isMain = g.isMain ∧
          (g.modify row).language = g.language := by
        unfold Agg.modify
        dsimp only
        split <;> exact ⟨rfl, rfl, rfl, rfl⟩
      obtain ⟨hname, hbinary, hmain, hlanguage⟩ := ih (g.modify row)
      rw [List.foldl_cons]
      exact ⟨hname.trans hone.1, hbinary.trans hone.2.1, hmain.trans hone.2.2.1,
        hlanguage.trans hone.2.2.2⟩

/-- What a row says its code is. -/
def Agg.shown (g : Agg) : Resolved := ⟨(g.functionName, g.binary), g.isMain, g.language⟩

/-- A row says what its first address resolves to. -/
theorem shown_eq {g : (String × String) × Agg} {first : Addr × AddressStats}
    {rest : List (Addr × AddressStats)}
    (hagg : g.2 = rest.foldl Agg.modify (Agg.insert binaries first)) :
    g.2.shown = Resolved.of (binaries first.1) := by
  obtain ⟨hname, hbinary, hmain, hlanguage⟩ :=
    names_foldl_modify rest (Agg.insert binaries first)
  rw [hagg, Agg.shown, hname, hbinary, hmain, hlanguage]
  rfl

/-- The first address of a row in the order of the entries. -/
def firstOfRow (binaries : BinaryRegistry) (rows : List (Addr × AddressStats))
    (key : String × String) : Option Addr :=
  (rowMembers binaries rows key).head?.map Prod.fst

end Rows

/-! ## How often a row counts a stack -/

/-- The different addresses of a row on a stack. -/
def framesOf (binaries : BinaryRegistry) (key : String × String) (stack : List Addr) : List Addr :=
  stack.dedup.filter fun x => rowKey binaries x = key

theorem mem_framesOf {binaries : BinaryRegistry} {key : String × String} {stack : List Addr}
    {x : Addr} : x ∈ framesOf binaries key stack ↔ x ∈ stack ∧ rowKey binaries x = key := by
  unfold framesOf
  rw [List.mem_filter, List.mem_dedup, decide_eq_true_iff]

section Counting

variable {binaries : BinaryRegistry} {chs : List Charge} {rows : List (Addr × AddressStats)}

open Aggregation

/-- The entries of the aggregation are the entries of its addresses. -/
theorem mem_rows_iff {table : ByAddress} {row : Addr × AddressStats} :
    row ∈ table.rows ↔ row.1 ∈ table ∧ row.2 = table.stats row.1 := by
  obtain ⟨x, stats⟩ := row
  have hlookup : (x, stats) ∈ table.rows ↔ table.lookup x = some stats := by
    unfold ByAddress.rows
    rw [List.mem_map]
    constructor
    · rintro ⟨⟨y, t⟩, hmem, heq⟩
      obtain ⟨rfl, rfl⟩ := Prod.mk.inj heq
      exact AList.mem_lookup_iff.mpr hmem
    · intro hmem
      exact ⟨⟨x, stats⟩, AList.mem_lookup_iff.mp hmem, rfl⟩
  rw [hlookup, ByAddress.stats]
  constructor
  · intro h
    refine ⟨AList.lookup_isSome.mp (by rw [h]; rfl), ?_⟩
    rw [h]
    rfl
  · rintro ⟨hmem, hstats⟩
    obtain ⟨s, hs⟩ := Option.isSome_iff_exists.mp (AList.lookup_isSome.mpr hmem)
    dsimp only at hstats
    rw [hs] at hstats
    rw [hstats, hs]
    rfl

theorem nodup_rows (table : ByAddress) : (table.rows.map Prod.fst).Nodup := by
  have hkeys : table.rows.map Prod.fst = table.keys := by
    unfold ByAddress.rows
    rw [List.map_map]
    rfl
  rw [hkeys]
  exact table.keys_nodup

/-- A row's total counts every credit as often as its stack has different addresses of the row. -/
theorem get_total_eq (hrows : rows.Perm (ofCharges chs).byAddress.rows)
    {g : (String × String) × Agg} (hg : g ∈ groupRows binaries rows) (k : Counter) :
    g.2.stats.total.get k =
      countedSum (fun stack => (framesOf binaries g.1 stack).length) chs k := by
  set table := (ofCharges chs).byAddress with htable
  set addresses := (rowMembers binaries rows g.1).map Prod.fst with haddresses
  have hnodup : addresses.Nodup := by
    have hall : (rows.map Prod.fst).Nodup := (hrows.map Prod.fst).nodup_iff.mpr (nodup_rows table)
    exact hall.sublist (List.filter_sublist.map Prod.fst)
  have hmem (x : Addr) : x ∈ addresses ↔ x ∈ table ∧ rowKey binaries x = g.1 := by
    rw [haddresses, List.mem_map]
    constructor
    · rintro ⟨row, hrow, rfl⟩
      obtain ⟨hrow, hkey⟩ := mem_rowMembers.mp hrow
      exact ⟨(mem_rows_iff.mp (hrows.mem_iff.mp hrow)).1, hkey⟩
    · rintro ⟨hx, hkey⟩
      refine ⟨(x, table.stats x), mem_rowMembers.mpr ⟨hrows.mem_iff.mpr ?_, hkey⟩, rfl⟩
      exact mem_rows_iff.mpr ⟨hx, rfl⟩
  -- on a stack, the row's addresses are those of the table
  have hframes : ∀ c ∈ creditsOf chs,
      (addresses.map fun x => if x ∈ c.stack then c.delta.get k else 0).sum =
        (framesOf binaries g.1 c.stack).length • c.delta.get k := by
    intro c hc
    have hframes : (framesOf binaries g.1 c.stack).Nodup := (List.nodup_dedup _).filter _
    have hperm : (addresses.filter fun x => x ∈ c.stack).Perm (framesOf binaries g.1 c.stack) := by
      refine (List.perm_ext_iff_of_nodup (hnodup.filter _) hframes).mpr fun x => ?_
      rw [List.mem_filter, hmem, decide_eq_true_iff, mem_framesOf]
      constructor
      · rintro ⟨⟨-, hkey⟩, hx⟩
        exact ⟨hx, hkey⟩
      · rintro ⟨hx, hkey⟩
        exact ⟨⟨mem_byAddress_of_credit hc hx, hkey⟩, hx⟩
    rw [← hperm.length_eq, ← sum_ite_smul]
    simp only [decide_eq_true_eq]
  have hstats : g.2.stats.total.get k =
      (addresses.map fun x => (table.stats x).total.get k).sum := by
    have hhom := map_list_sum ((Counters.getHom k).comp AddressStats.totalHom)
      ((rowMembers binaries rows g.1).map Prod.snd)
    rw [← stats_eq_sum hg, List.map_map] at hhom
    rw [haddresses, List.map_map]
    refine hhom.trans (congrArg List.sum (List.map_congr_left fun row hrow => ?_))
    have hrow := (mem_rows_iff.mp (hrows.mem_iff.mp (mem_rowMembers.mp hrow).1)).2
    show row.2.total.get k = (table.stats row.1).total.get k
    rw [hrow]
  have hswap := Multiset.sum_map_sum_map (addresses : Multiset Addr)
    (creditsOf chs : Multiset Credit)
    (f := fun x c => if x ∈ c.stack then c.delta.get k else 0)
  simp only [Multiset.map_coe, Multiset.sum_coe] at hswap
  rw [hstats, List.map_congr_left fun x _ => get_total_stats chs x k, hswap]
  exact congrArg List.sum (List.map_congr_left hframes)

/-! ## Counting once -/

/-- Whether a stack has a frame that resolves to what a row shows.  An address without a symbol has a
row of its own, so the frame is also one of the row. -/
def TopEntry.isOn (binaries : BinaryRegistry) (e : TopEntry) (stack : List Addr) : Bool :=
  stack.any fun x =>
    symbolOf binaries x = (e.functionName, e.binary) ∧ rowKey binaries x = rowKey binaries e.address

/-- A row's totals are those of the credited samples with a frame of the row, each counted once, up
to what a counter holds, and no more than the on-CPU total. -/
structure TopEntry.CountsOnce (binaries : BinaryRegistry) (chs : List Charge) (e : TopEntry) :
    Prop where
  samples : e.stats.total.petSamples.val = min (sampleCount (e.isOn binaries) chs) u64Max
  onCpu : e.stats.total.onCpuNs.val = min (sampleTime (e.isOn binaries) chs) u64Max
  bounded : e.stats.total.onCpuNs.val ≤ (ofCharges chs).totalOnCpuNs.val

/-- Whether a stack has a frame of a row that resolves to what the row's first address does. -/
def rowIsOn (binaries : BinaryRegistry) (rows : List (Addr × AddressStats))
    (key : String × String) (stack : List Addr) : Bool :=
  stack.any fun x => rowKey binaries x = key ∧
    (firstOfRow binaries rows key).map (symbolOf binaries) = some (symbolOf binaries x)

/-- A stack has at most one address of a row, and that resolves to what the row's first address
does. -/
def MeetsOnce (binaries : BinaryRegistry) (rows : List (Addr × AddressStats))
    (key : String × String) (stack : List Addr) : Prop :=
  ∀ x ∈ stack, rowKey binaries x = key →
    (firstOfRow binaries rows key).map (symbolOf binaries) = some (symbolOf binaries x) ∧
      ∀ y ∈ stack, rowKey binaries y = key → y = x

theorem isOn_eq_rowIsOn {g : (String × String) × Agg} (hg : g ∈ groupRows binaries rows) :
    g.2.entry.isOn binaries = rowIsOn binaries rows g.1 := by
  obtain ⟨first, rest, hmembers, hagg⟩ := mem_groupRows.mp hg
  have hshown : symbolOf binaries first.1 = (g.2.entry.functionName, g.2.entry.binary) :=
    (congrArg Resolved.key (shown_eq hagg)).symm
  funext stack
  unfold TopEntry.isOn rowIsOn firstOfRow
  rw [rowKey_address hg, ← hshown, hmembers]
  congr 1
  funext x
  rw [decide_eq_decide, and_comm, List.head?_cons, Option.map_some, Option.map_some,
    Option.some.injEq]
  exact and_congr_right fun _ => eq_comm

/-- A row meets a stack as often as it should exactly when it meets it at most once, in an address
that resolves to what the row shows. -/
theorem frames_eq_once_iff (key : String × String) (stack : List Addr) :
    (framesOf binaries key stack).length = once (rowIsOn binaries rows key) stack ↔
      MeetsOnce binaries rows key stack := by
  have hnodup : (framesOf binaries key stack).Nodup := (List.nodup_dedup _).filter _
  have hon : rowIsOn binaries rows key stack = true ↔ ∃ x ∈ framesOf binaries key stack,
      (firstOfRow binaries rows key).map (symbolOf binaries) = some (symbolOf binaries x) := by
    unfold rowIsOn
    simp only [List.any_eq_true, decide_eq_true_eq, mem_framesOf, and_assoc]
  have hmeets : MeetsOnce binaries rows key stack ↔ ∀ x ∈ framesOf binaries key stack,
      (firstOfRow binaries rows key).map (symbolOf binaries) = some (symbolOf binaries x) ∧
        ∀ y ∈ framesOf binaries key stack, y = x := by
    unfold MeetsOnce
    simp only [mem_framesOf, and_imp]
  rw [hmeets, once]
  generalize rowIsOn binaries rows key stack = shown at hon ⊢
  generalize framesOf binaries key stack = frames at hnodup hon ⊢
  rcases frames with _ | ⟨x, _ | ⟨y, frames⟩⟩
  · cases shown
    · simp
    · simp at hon
  · cases shown
    · simpa using hon
    · simpa using hon
  · have hne : y ≠ x := by
      rintro rfl
      simp at hnodup
    have hle : shown.toNat ≤ 1 := Bool.toNat_le shown
    constructor
    · intro hlength
      simp only [List.length_cons] at hlength
      omega
    · intro hall
      exact absurd ((hall x List.mem_cons_self).2 y (by simp)) hne

theorem once_le_frames (key : String × String) (stack : List Addr) :
    once (rowIsOn binaries rows key) stack ≤ (framesOf binaries key stack).length := by
  unfold once
  cases hon : rowIsOn binaries rows key stack with
  | false => exact Nat.zero_le _
  | true =>
      unfold rowIsOn at hon
      obtain ⟨x, hx, hrow⟩ := List.any_eq_true.mp hon
      exact List.length_pos_of_mem (mem_framesOf.mpr ⟨hx, (of_decide_eq_true hrow).1⟩)

/-- A row counts every stack once exactly when every credited sample meets it at most once, or its
counters are full. -/
theorem countsOnce_iff (hpos : ∀ ch ∈ chs, ch.Positive) (hshared : ∀ ch ∈ chs, ch.Shared)
    (hrows : rows.Perm (ofCharges chs).byAddress.rows)
    {g : (String × String) × Agg} (hg : g ∈ groupRows binaries rows) :
    g.2.entry.CountsOnce binaries chs ↔
      (∀ s ∈ creditedSamples chs, MeetsOnce binaries rows g.1 s.1.stack) ∨
        u64Max ≤ sampleCount (rowIsOn binaries rows g.1) chs := by
  have hsamples : g.2.entry.stats.total.petSamples = _ := get_total_eq hrows hg .petSamples
  have honCpu : g.2.entry.stats.total.onCpuNs = _ := get_total_eq hrows hg .onCpuNs
  have honce := @samples_once_iff (rowIsOn binaries rows g.1)
    (fun stack => (framesOf binaries g.1 stack).length) chs hpos
    fun s _ => once_le_frames g.1 s.1.stack
  simp only [frames_eq_once_iff] at honce
  rw [← honce, ← hsamples, ← honCpu, ← isOn_eq_rowIsOn hg]
  constructor
  · rintro ⟨hcount, htime, -⟩
    exact ⟨hcount, htime⟩
  · rintro ⟨hcount, htime⟩
    refine ⟨hcount, htime, ?_⟩
    rw [htime]
    exact sampleTime_le_totalOnCpuNs hshared

end Counting

namespace Aggregator

open Aggregation

/-- Top-table totals count each stack once per symbol exactly when no stack has a symbol twice.  For
every log, selection, filter, registry and order of the table: the rows of every list count every
credited sample once, however the list is sorted and cut, exactly when for every row each credited
sample has at most one address of the row on its stack, and that address resolves to what the row
shows, or the row has so many samples that its counters are full. -/
theorem top_totals_iff (self : Aggregator) (tid : Option Tid) (filter : LiveFilter)
    (binaries : BinaryRegistry)
    (iteration : (aggregateWithFilter self binaries tid filter).byAddress.Iteration) :
    let chs := self.charges binaries (self.passes binaries filter) (self.selected tid)
    (∀ sort limit, ∀ e ∈ groupTopEntries (aggregateWithFilter self binaries tid filter) iteration
        binaries sort limit, e.CountsOnce binaries chs) ↔
      ∀ key, (∀ s ∈ creditedSamples chs, MeetsOnce binaries iteration.rows key s.1.stack) ∨
        u64Max ≤ sampleCount (rowIsOn binaries iteration.rows key) chs := by
  intro chs
  have hpos : ∀ ch ∈ chs, ch.Positive := self.charges_positive binaries _ _
  have hshared : ∀ ch ∈ chs, ch.Shared := self.charges_shared binaries _ _
  have hrows : iteration.rows.Perm (ofCharges chs).byAddress.rows := by
    have hagg : aggregateWithFilter self binaries tid filter = ofCharges chs :=
      aggregateWithFilter_eq self binaries tid filter
    rw [← hagg]
    exact iteration.perm
  constructor
  · intro h key
    cases hmembers : rowMembers binaries iteration.rows key with
    | nil =>
        -- no stack has an address of a row that is not there
        left
        intro s hs x hx hkey
        obtain ⟨c, hc, hstack⟩ := exists_credit_of_mem_creditedSamples hs
        rw [← hstack] at hx
        have hmem : (x, (ofCharges chs).byAddress.stats x) ∈
            rowMembers binaries iteration.rows key := by
          refine mem_rowMembers.mpr ⟨hrows.mem_iff.mpr ?_, hkey⟩
          exact mem_rows_iff.mpr ⟨mem_byAddress_of_credit hc hx, rfl⟩
        rw [hmembers] at hmem
        cases hmem
    | cons first rest =>
        have hg : (key, rest.foldl Agg.modify (Agg.insert binaries first)) ∈
            groupRows binaries iteration.rows :=
          mem_groupRows.mpr ⟨first, rest, hmembers, rfl⟩
        refine (countsOnce_iff hpos hshared hrows hg).mp (h .bySelf
          (sortedRows binaries .bySelf iteration.rows).length _ ?_)
        rw [groupTopEntries, List.take_length]
        exact mem_sortedRows.mpr ⟨_, hg, rfl⟩
  · intro h sort limit e he
    obtain ⟨g, hg, rfl⟩ := mem_sortedRows.mp (List.mem_of_mem_take he)
    exact (countsOnce_iff hpos hshared hrows hg).mpr (h g.1)

/-- `f` calls itself from another place and is counted twice: its row shows more on-CPU time than
there is. -/
theorem recursiveSample_counted_twice :
    ¬ ∀ sort limit, ∀ e ∈ groupTopEntries
        (aggregateWithFilter recursiveSample callSites none {}) ⟨_, List.Perm.refl _⟩ callSites
        sort limit,
      e.CountsOnce callSites (recursiveSample.charges callSites
        (recursiveSample.passes callSites {}) (recursiveSample.selected none)) := by
  intro h
  have hbounded := fun e he => (h .bySelf 2 e he).bounded
  revert hbounded
  decide +kernel

end Aggregator

end Stax.Live
