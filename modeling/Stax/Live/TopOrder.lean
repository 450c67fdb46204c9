/-
# Stax.Live.TopOrder — the table and the order in which the addresses come.

The addresses come out of a map in any order.  A row's counters are sums, and the rows are told
apart by their names, or by their address where they have none, so neither the rows nor their order
depend on it.  A row's address is decided unless two of its addresses tie.  What a row says of its
code is that of the address that came first, tie or not.
-/
import Stax.Live.TopEntries
import Stax.Lib.GroupTree

namespace Stax.Live

open Stax.Lib
open Stax.Binaries (hex hex_injective)

/-! ## The order of rows -/

theorem compareTop_bySelf :
    compareTop .bySelf = compareLex
      (compareLex (fun a b => compareOn (fun e : TopEntry => e.selfNs.val) b a)
        (fun a b => compareOn (fun e : TopEntry => e.totalNs.val) b a))
      (compareLex (compareOn fun e => e.functionName)
        (compareLex (compareOn fun e => e.binary) (compareOn fun e => e.address.toNat))) :=
  rfl

theorem compareTop_byTotal :
    compareTop .byTotal = compareLex
      (compareLex (fun a b => compareOn (fun e : TopEntry => e.totalNs.val) b a)
        (fun a b => compareOn (fun e : TopEntry => e.selfNs.val) b a))
      (compareLex (compareOn fun e => e.functionName)
        (compareLex (compareOn fun e => e.binary) (compareOn fun e => e.address.toNat))) :=
  rfl

instance (sort : TopSort) : Std.TransCmp (compareTop sort) := by
  cases sort with
  | bySelf =>
      rw [compareTop_bySelf]
      infer_instance
  | byTotal =>
      rw [compareTop_byTotal]
      infer_instance

/-- Rows of different names or addresses are told apart. -/
theorem eq_of_compareTop {sort : TopSort} {a b : TopEntry} (h : compareTop sort a b = .eq) :
    (a.functionName = b.functionName ∧ a.binary = b.binary) ∧ a.address = b.address := by
  obtain ⟨-, hnames⟩ := Ordering.then_eq_eq.mp h
  obtain ⟨hname, hrest⟩ := Ordering.then_eq_eq.mp hnames
  obtain ⟨hbinary, haddress⟩ := Ordering.then_eq_eq.mp hrest
  exact ⟨⟨Std.compare_eq_iff_eq.mp hname, Std.compare_eq_iff_eq.mp hbinary⟩,
    UInt64.toNat_inj.mp (Std.compare_eq_iff_eq.mp haddress)⟩

/-- The addresses count only where the names are the same. -/
theorem compareTop_congr {sort : TopSort} {a b a' b' : TopEntry}
    (ha : a.functionName = a'.functionName ∧ a.binary = a'.binary ∧ a.stats = a'.stats)
    (hb : b.functionName = b'.functionName ∧ b.binary = b'.binary ∧ b.stats = b'.stats)
    (haddress : a.functionName = b.functionName → a.binary = b.binary →
      compare a.address.toNat b.address.toNat = compare a'.address.toNat b'.address.toNat) :
    compareTop sort a b = compareTop sort a' b' := by
  obtain ⟨hname, hbinary, hstats⟩ := ha
  obtain ⟨hname', hbinary', hstats'⟩ := hb
  have hself : a.selfNs = a'.selfNs ∧ a.totalNs = a'.totalNs := by
    unfold TopEntry.selfNs TopEntry.totalNs
    rw [hstats]
    exact ⟨rfl, rfl⟩
  have hself' : b.selfNs = b'.selfNs ∧ b.totalNs = b'.totalNs := by
    unfold TopEntry.selfNs TopEntry.totalNs
    rw [hstats']
    exact ⟨rfl, rfl⟩
  have hnames : (compare a.functionName b.functionName).then
        ((compare a.binary b.binary).then (compare a.address.toNat b.address.toNat)) =
      (compare a.functionName b.functionName).then
        ((compare a.binary b.binary).then (compare a'.address.toNat b'.address.toNat)) := by
    by_cases hf : a.functionName = b.functionName
    · by_cases hb : a.binary = b.binary
      · rw [haddress hf hb]
      · cases hcmp : compare a.binary b.binary with
        | eq => exact absurd (Std.compare_eq_iff_eq.mp hcmp) hb
        | lt => rfl
        | gt => rfl
    · cases hcmp : compare a.functionName b.functionName with
      | eq => exact absurd (Std.compare_eq_iff_eq.mp hcmp) hf
      | lt => rfl
      | gt => rfl
  unfold compareTop
  rw [hnames, hself.1, hself.2, hself'.1, hself'.2, hname, hbinary, hname', hbinary']

/-! ## What an address is grouped by -/

section Keys

variable {binaries : BinaryRegistry}

/-- Every binary has a name. -/
def BinariesNamed (binaries : BinaryRegistry) : Prop :=
  ∀ addr r, binaries addr = some r → r.binary ≠ ""

variable (binaries) in
/-- An address with a symbol is grouped by it, one without by itself. -/
theorem rowKey_cases (x : Addr) :
    (∃ n b, symbolOf binaries x = (some n, some b) ∧ rowKey binaries x = (n, b) ∧
        (BinariesNamed binaries → b ≠ "")) ∨
      symbolOf binaries x = (none, none) ∧ rowKey binaries x = (hex x, "") := by
  unfold rowKey symbolOf
  cases h : binaries x with
  | none => exact Or.inr ⟨rfl, rfl⟩
  | some r => exact Or.inl ⟨r.functionName, r.binary, rfl, rfl, fun hnamed => hnamed x r h⟩

/-- Addresses of one row have one symbol, and are one address when they have none. -/
theorem alike_of_rowKey (hnamed : BinariesNamed binaries) {x y : Addr}
    (h : rowKey binaries x = rowKey binaries y) :
    symbolOf binaries x = symbolOf binaries y ∧ (symbolOf binaries x = (none, none) → x = y) := by
  rcases rowKey_cases binaries x with ⟨n, b, hx, hkx, hbx⟩ | ⟨hx, hkx⟩
  · rcases rowKey_cases binaries y with ⟨m, c, hy, hky, -⟩ | ⟨hy, hky⟩
    · rw [hkx, hky] at h
      obtain ⟨rfl, rfl⟩ := Prod.mk.inj h
      rw [hx, hy]
      exact ⟨rfl, fun hnone => by cases hnone⟩
    · rw [hkx, hky] at h
      exact absurd (Prod.mk.inj h).2 (hbx hnamed)
  · rcases rowKey_cases binaries y with ⟨m, c, hy, hky, hby⟩ | ⟨hy, hky⟩
    · rw [hkx, hky] at h
      exact absurd (Prod.mk.inj h).2.symm (hby hnamed)
    · rw [hkx, hky] at h
      rw [hx, hy]
      exact ⟨rfl, fun _ => hex_injective (Prod.mk.inj h).1⟩

/-- The symbol decides the row, but where there is none. -/
theorem rowKey_of_symbol {x y : Addr} (h : symbolOf binaries x = symbolOf binaries y)
    (hsome : symbolOf binaries x ≠ (none, none)) : rowKey binaries x = rowKey binaries y := by
  unfold rowKey
  rw [← h]
  rcases rowKey_cases binaries x with ⟨n, b, hx, -, -⟩ | ⟨hx, -⟩
  · rw [hx]
  · exact absurd hx hsome

end Keys

/-! ## The same row in two orders -/

section Rows

variable {binaries : BinaryRegistry} {rows rows' : List (Addr × AddressStats)}

/-- Two addresses of a row tie for most time as a leaf. -/
def RowTied (binaries : BinaryRegistry) (rows : List (Addr × AddressStats))
    (key : String × String) : Prop :=
  RunningMax.Tied leafTime ((rowMembers binaries rows key).map candidate)

theorem rowMembers_perm (hperm : rows.Perm rows') (key : String × String) :
    (rowMembers binaries rows key).Perm (rowMembers binaries rows' key) :=
  hperm.filter _

theorem rowTied_perm (hperm : rows.Perm rows') (key : String × String) :
    RowTied binaries rows key ↔ RowTied binaries rows' key :=
  RunningMax.tied_perm ((rowMembers_perm hperm key).map candidate)

/-- A row shows the names of any of its addresses. -/
theorem names_of_member (hnamed : BinariesNamed binaries) {g : (String × String) × Agg}
    (hg : g ∈ groupRows binaries rows) {row : Addr × AddressStats}
    (hrow : row ∈ rowMembers binaries rows g.1) :
    (g.2.functionName, g.2.binary) = symbolOf binaries row.1 := by
  obtain ⟨first, rest, hmembers, hagg⟩ := mem_groupRows.mp hg
  have hfirst : first ∈ rowMembers binaries rows g.1 := by
    rw [hmembers]
    exact List.mem_cons_self
  have hsame : rowKey binaries first.1 = rowKey binaries row.1 :=
    (mem_rowMembers.mp hfirst).2.trans (mem_rowMembers.mp hrow).2.symm
  exact (congrArg Resolved.key (shown_eq hagg)).trans (alike_of_rowKey hnamed hsame).1

/-- The rows of a key have the same counters and names in both orders, the same address when no two
tie, and the same address anyway when they have no names. -/
theorem row_of_perm (hnamed : BinariesNamed binaries) (hperm : rows.Perm rows')
    {g g' : (String × String) × Agg} (hg : g ∈ groupRows binaries rows)
    (hg' : g' ∈ groupRows binaries rows') (hkey : g.1 = g'.1) :
    g.2.stats = g'.2.stats ∧ g.2.functionName = g'.2.functionName ∧ g.2.binary = g'.2.binary ∧
      (¬ RowTied binaries rows g.1 → g.2.address = g'.2.address) ∧
      ((g.2.functionName, g.2.binary) = (none, none) → g.2.address = g'.2.address) := by
  have hmembers := @rowMembers_perm binaries _ _ hperm g.1
  obtain ⟨⟨row, hrow, hrep⟩, hmax⟩ := representative_spec hg
  obtain ⟨⟨row', hrow', hrep'⟩, hmax'⟩ := representative_spec hg'
  rw [← hkey] at hrow' hmax'
  have hin : row' ∈ rowMembers binaries rows g.1 := hmembers.mem_iff.mpr hrow'
  have hnames : (g.2.functionName, g.2.binary) = (g'.2.functionName, g'.2.binary) := by
    rw [names_of_member hnamed hg hin]
    rw [hkey] at hrow'
    exact (names_of_member hnamed hg' hrow').symm
  have haddress : row.1 = g.2.address := congrArg Prod.fst hrep
  have haddress' : row'.1 = g'.2.address := congrArg Prod.fst hrep'
  refine ⟨?_, congrArg Prod.fst hnames, congrArg Prod.snd hnames, fun htied => ?_, fun hnone => ?_⟩
  · rw [stats_eq_sum hg, stats_eq_sum hg', ← hkey]
    exact (hmembers.map Prod.snd).sum_eq
  · -- both representatives have most time, and only one address has
    have hcandidates : ∀ c ∈ (rowMembers binaries rows g.1).map candidate,
        leafTime c ≤ leafTime (candidate row) ∧ leafTime c ≤ leafTime (candidate row') := by
      intro c hc
      obtain ⟨r, hr, rfl⟩ := List.mem_map.mp hc
      rw [hrep, hrep']
      exact ⟨hmax r hr, hmax' r (hmembers.mem_iff.mp hr)⟩
    have heq := RunningMax.eq_of_not_tied htied (List.mem_map_of_mem hrow)
      (List.mem_map_of_mem hin) (fun c hc => (hcandidates c hc).1) fun c hc => (hcandidates c hc).2
    rw [← haddress, ← haddress']
    show (candidate row).1 = (candidate row').1
    rw [heq]
  · have hsame : rowKey binaries row.1 = rowKey binaries row'.1 :=
      (mem_rowMembers.mp hrow).2.trans (mem_rowMembers.mp hin).2.symm
    rw [← haddress, ← haddress']
    apply (alike_of_rowKey hnamed hsame).2
    rw [← names_of_member hnamed hg hrow]
    exact hnone

theorem nodup_groupRows (rows : List (Addr × AddressStats)) :
    ((groupRows binaries rows).map Prod.fst).Nodup := by
  rw [groupRows_eq]
  exact Grouping.nodup_group rows

/-- There is a row for each key that occurs. -/
theorem mem_keys_groupRows {key : String × String} :
    key ∈ (groupRows binaries rows).map Prod.fst ↔ rowMembers binaries rows key ≠ [] := by
  rw [groupRows_eq]
  exact Grouping.mem_keys_group

theorem keys_groupRows_perm (hperm : rows.Perm rows') :
    ((groupRows binaries rows).map Prod.fst).Perm ((groupRows binaries rows').map Prod.fst) := by
  refine (List.perm_ext_iff_of_nodup (nodup_groupRows rows) (nodup_groupRows rows')).mpr
    fun key => ?_
  have hmembers := @rowMembers_perm binaries _ _ hperm key
  rw [mem_keys_groupRows, mem_keys_groupRows]
  constructor
  · exact fun hne hnil => hne (hnil ▸ hmembers).eq_nil
  · exact fun hne hnil => hne (hnil ▸ hmembers).symm.eq_nil

theorem eq_of_key {g h : (String × String) × Agg} (hg : g ∈ groupRows binaries rows)
    (hh : h ∈ groupRows binaries rows) (hkey : g.1 = h.1) : g = h :=
  List.inj_on_of_nodup_map (nodup_groupRows rows) hg hh hkey

/-- Rows of one name are one row. -/
theorem key_of_names (hnamed : BinariesNamed binaries) {g h : (String × String) × Agg}
    (hg : g ∈ groupRows binaries rows) (hh : h ∈ groupRows binaries rows')
    (hnames : (g.2.functionName, g.2.binary) = (h.2.functionName, h.2.binary))
    (hsome : (g.2.functionName, g.2.binary) ≠ (none, none)) : g.1 = h.1 := by
  obtain ⟨⟨row, hrow, -⟩, -⟩ := representative_spec hg
  obtain ⟨⟨row', hrow', -⟩, -⟩ := representative_spec hh
  have hsymbol := names_of_member hnamed hg hrow
  have hsymbol' := names_of_member hnamed hh hrow'
  rw [hsymbol] at hnames hsome
  rw [hsymbol'] at hnames
  rw [← (mem_rowMembers.mp hrow).2, ← (mem_rowMembers.mp hrow').2]
  exact rowKey_of_symbol hnames hsome

/-- The rows that have one key correspond. -/
def SameKey (g g' : (String × String) × Agg) : Prop := g.1 = g'.1

/-- The rows stand in the same order. -/
theorem sortedRows_forall₂ (hnamed : BinariesNamed binaries) (hperm : rows.Perm rows')
    (sort : TopSort) :
    ∃ gs gs', List.Forall₂ SameKey gs gs' ∧
      gs.Perm (groupRows binaries rows) ∧ gs'.Perm (groupRows binaries rows') ∧
      sortedRows binaries sort rows = gs.map (fun g => g.2.entry) ∧
      sortedRows binaries sort rows' = gs'.map fun g => g.2.entry := by
  set byEntry := fun a b : (String × String) × Agg => compareTop sort a.2.entry b.2.entry
    with hbyEntry
  have hsorted (rows : List (Addr × AddressStats)) : sortedRows binaries sort rows =
      (sortBy byEntry (groupRows binaries rows)).map fun g => g.2.entry := by
    symm
    apply map_sortBy
    intro a _ b _
    rfl
  have htrans : Std.TransCmp byEntry :=
    { eq_swap := fun {a b} =>
        (Std.OrientedCmp.eq_swap : compareTop sort a.2.entry b.2.entry = _)
      isLE_trans := fun {a b c} => (Std.TransCmp.isLE_trans :
        (compareTop sort a.2.entry b.2.entry).isLE → (compareTop sort b.2.entry c.2.entry).isLE →
          (compareTop sort a.2.entry c.2.entry).isLE) }
  -- the rows in the one order, listed as those in the other
  have hself : List.Forall₂ (fun k (g : (String × String) × Agg) => k = g.1)
      ((groupRows binaries rows').map Prod.fst) (groupRows binaries rows') := by
    rw [List.forall₂_map_left_iff, List.forall₂_same]
    exact fun g _ => rfl
  obtain ⟨aligned, hkeys, haligned⟩ :=
    List.perm_comp_forall₂ (@keys_groupRows_perm binaries _ _ hperm) hself
  rw [List.forall₂_map_left_iff] at hkeys
  refine ⟨_, _, forall₂_sortBy hkeys haligned ?_ ?_, sortBy_perm _, sortBy_perm _, hsorted rows,
    hsorted rows'⟩
  · intro a ha b hb a' ha' b' hb' haa' hbb'
    have hrow := row_of_perm hnamed hperm ha (haligned.mem_iff.mp ha') haa'
    have hrow' := row_of_perm hnamed hperm hb (haligned.mem_iff.mp hb') hbb'
    refine compareTop_congr ⟨hrow.2.1, hrow.2.2.1, hrow.1⟩ ⟨hrow'.2.1, hrow'.2.2.1, hrow'.1⟩
      fun hname hbinary => ?_
    have hnames : (a.2.functionName, a.2.binary) = (b.2.functionName, b.2.binary) :=
      Prod.ext hname hbinary
    show compare a.2.address.toNat b.2.address.toNat = compare a'.2.address.toNat b'.2.address.toNat
    by_cases hnone : (a.2.functionName, a.2.binary) = (none, none)
    · rw [hrow.2.2.2.2 hnone, hrow'.2.2.2.2 (hnames ▸ hnone)]
    · have hkey : a.1 = b.1 := key_of_names hnamed ha hb hnames hnone
      have hkey' : a'.1 = b'.1 := haa'.symm.trans (hkey.trans hbb')
      rw [eq_of_key ha hb hkey,
        eq_of_key (haligned.mem_iff.mp ha') (haligned.mem_iff.mp hb') hkey',
        Std.compare_eq_iff_eq.mpr rfl, Std.compare_eq_iff_eq.mpr rfl]
  · intro a ha b hb hab
    have ha' := haligned.mem_iff.mp ha
    have hb' := haligned.mem_iff.mp hb
    apply eq_of_key ha' hb'
    rw [← rowKey_address ha', ← rowKey_address hb', (eq_of_compareTop hab).2]

/-! ## What may differ -/

/-- Two lists show one row: the names and the counters are the same, and so are the address and what
the row says of its code, unless two of its addresses tie. -/
structure SameRow (binaries : BinaryRegistry) (rows : List (Addr × AddressStats))
    (e e' : TopEntry) : Prop where
  functionName : e.functionName = e'.functionName
  binary : e.binary = e'.binary
  stats : e.stats = e'.stats
  shown : (e.address = e'.address ∧ e.isMain = e'.isMain ∧ e.language = e'.language) ∨
    RowTied binaries rows (rowKey binaries e.address)

/-- All addresses of a row resolve alike. -/
def RowUniform (binaries : BinaryRegistry) (rows : List (Addr × AddressStats))
    (key : String × String) : Prop :=
  ∀ r ∈ rowMembers binaries rows key, ∀ r' ∈ rowMembers binaries rows key,
    Resolved.of (binaries r.1) = Resolved.of (binaries r'.1)

theorem rowUniform_perm (hperm : rows.Perm rows') (key : String × String) :
    RowUniform binaries rows key ↔ RowUniform binaries rows' key := by
  unfold RowUniform
  simp only [(rowMembers_perm hperm key).mem_iff]

theorem SameRow.perm {e e' : TopEntry} (h : SameRow binaries rows e e') (hperm : rows.Perm rows') :
    SameRow binaries rows' e e' :=
  { h with shown := h.shown.imp id (rowTied_perm hperm _).mp }

/-- What a row says of its code is what its first address resolves to. -/
theorem exists_shown {g : (String × String) × Agg} (hg : g ∈ groupRows binaries rows) :
    ∃ first ∈ rowMembers binaries rows g.1, g.2.shown = Resolved.of (binaries first.1) := by
  obtain ⟨first, rest, hmembers, hagg⟩ := mem_groupRows.mp hg
  refine ⟨first, ?_, shown_eq hagg⟩
  rw [hmembers]
  exact List.mem_cons_self

/-- In two orders of the addresses the rows are the same, where every row without a tie has
addresses that resolve alike. -/
theorem sameRows_of_uniform (hnamed : BinariesNamed binaries) (hperm : rows.Perm rows')
    (h : ∀ key, RowTied binaries rows key ∨ RowUniform binaries rows key) (sort : TopSort) :
    List.Forall₂ (SameRow binaries rows) (sortedRows binaries sort rows)
      (sortedRows binaries sort rows') := by
  obtain ⟨gs, gs', hkeys, hgs, hgs', hrows, hrows'⟩ := sortedRows_forall₂ hnamed hperm sort
  rw [hrows, hrows', List.forall₂_map_left_iff, List.forall₂_map_right_iff]
  obtain ⟨hlength, hzip⟩ := List.forall₂_iff_zip.mp hkeys
  refine List.forall₂_iff_zip.mpr ⟨hlength, fun {g g'} hmem => ?_⟩
  have hg := hgs.mem_iff.mp (List.of_mem_zip hmem).1
  have hg' := hgs'.mem_iff.mp (List.of_mem_zip hmem).2
  have hkey : g.1 = g'.1 := hzip hmem
  obtain ⟨hstats, hname, hbinary, haddress, -⟩ := row_of_perm hnamed hperm hg hg' hkey
  refine ⟨hname, hbinary, hstats, ?_⟩
  rw [rowKey_address hg]
  by_cases htied : RowTied binaries rows g.1
  · exact Or.inr htied
  · left
    obtain ⟨first, hfirst, hshown⟩ := exists_shown hg
    obtain ⟨first', hfirst', hshown'⟩ := exists_shown hg'
    rw [← hkey] at hfirst'
    have hin := (rowMembers_perm hperm g.1).mem_iff.mpr hfirst'
    have heq : g.2.shown = g'.2.shown := by
      rw [hshown, hshown']
      exact (h g.1).resolve_left htied first hfirst first' hin
    exact ⟨haddress htied, congrArg Resolved.isMain heq,
      congrArg (fun r => r.language.asStr) heq⟩

/-- An order in which an address comes first. -/
theorem exists_order_from {row : Addr × AddressStats} (hrow : row ∈ rows) :
    ∃ rest, (row :: rest).Perm rows := by
  obtain ⟨pre, post, rfl⟩ := List.append_of_mem hrow
  exact ⟨pre ++ post, List.perm_middle.symm⟩

/-- Where the rows are the same in all orders, every row without a tie has addresses that resolve
alike. -/
theorem uniform_of_sameRows (hnamed : BinariesNamed binaries) (sort : TopSort)
    (h : ∀ order order', order.Perm rows → order'.Perm rows →
      List.Forall₂ (SameRow binaries rows) (sortedRows binaries sort order)
        (sortedRows binaries sort order'))
    (key : String × String) : RowTied binaries rows key ∨ RowUniform binaries rows key := by
  refine or_iff_not_imp_left.mpr fun htied r hr r' hr' => ?_
  obtain ⟨hr, hkey⟩ := mem_rowMembers.mp hr
  obtain ⟨hr', hkey'⟩ := mem_rowMembers.mp hr'
  have hsame : rowKey binaries r.1 = rowKey binaries r'.1 := hkey.trans hkey'.symm
  by_cases hnone : symbolOf binaries r.1 = (none, none)
  · rw [(alike_of_rowKey hnamed hsame).2 hnone]
  -- the row in an order that starts with one of the addresses
  have hstart (r : Addr × AddressStats) (hkey : rowKey binaries r.1 = key) {rest}
      (horder : (r :: rest).Perm rows) :
      ∃ g ∈ groupRows binaries (r :: rest), g.1 = key ∧ g.2.shown = Resolved.of (binaries r.1) := by
    have hmembers : rowMembers binaries (r :: rest) key = r :: rowMembers binaries rest key := by
      unfold rowMembers Grouping.members
      rw [List.filter_cons, if_pos (decide_eq_true hkey)]
    refine ⟨(key, _), mem_groupRows.mpr ⟨r, _, hmembers, rfl⟩, rfl, ?_⟩
    exact shown_eq (g := (key, (rowMembers binaries rest key).foldl Agg.modify
      (Agg.insert binaries r))) rfl
  obtain ⟨rest, horder⟩ := exists_order_from hr
  obtain ⟨rest', horder'⟩ := exists_order_from hr'
  obtain ⟨g, hg, hgkey, hshown⟩ := hstart r hkey horder
  obtain ⟨g', hg', hgkey', hshown'⟩ := hstart r' hkey' horder'
  obtain ⟨e', he', hrow⟩ := exists_of_forall₂ (h _ _ horder horder') (mem_sortedRows.mpr ⟨g, hg, rfl⟩)
  -- the row that stands there in the other order is the one of the same key
  obtain ⟨g'', hg'', rfl⟩ := mem_sortedRows.mp he'
  have hsymbol : (g.2.functionName, g.2.binary) = symbolOf binaries r.1 :=
    congrArg Resolved.key hshown
  have hgg'' : g.1 = g''.1 := by
    refine key_of_names hnamed hg hg'' (Prod.ext hrow.functionName hrow.binary) ?_
    rw [hsymbol]
    exact hnone
  obtain rfl : g'' = g' := eq_of_key hg'' hg' (hgg''.symm.trans (hgkey.trans hgkey'.symm))
  rcases hrow.shown with ⟨-, hmain, hlanguage⟩ | hrowTied
  · rw [← hshown, ← hshown']
    unfold Agg.shown
    have hname : g.2.functionName = g''.2.functionName := hrow.functionName
    have hbinary : g.2.binary = g''.2.binary := hrow.binary
    have hmain : g.2.isMain = g''.2.isMain := hmain
    have hlanguage : g.2.language = g''.2.language := Language.asStr_injective hlanguage
    rw [hname, hbinary, hmain, hlanguage]
  · rw [rowKey_address hg, hgkey] at hrowTied
    exact absurd hrowTied htied

/-! ## What never depends on the order -/

/-- A shorter table is a prefix of the whole. -/
theorem groupTopEntries_take (aggregation : Aggregation)
    (iteration : aggregation.byAddress.Iteration) (sort : TopSort) (limit : ℕ) :
    groupTopEntries aggregation iteration binaries sort limit =
      (sortedRows binaries sort iteration.rows).take limit :=
  rfl

/-- The self on-CPU time of the rows is that of the addresses, as long as no row's is cut off. -/
theorem sum_selfOnCpu (sort : TopSort)
    (hfits : ∀ key, ((rowMembers binaries rows key).map fun row => row.2.self.onCpuNs.val).sum ≤
      u64Max) :
    ((sortedRows binaries sort rows).map fun e => e.stats.self.onCpuNs.val).sum =
      (rows.map fun row => row.2.self.onCpuNs.val).sum := by
  have hrow : ∀ g ∈ groupRows binaries rows, g.2.entry.stats.self.onCpuNs.val =
      ((rowMembers binaries rows g.1).map fun row => row.2.self.onCpuNs.val).sum := by
    intro g hg
    have hhom := map_list_sum ((Counters.getHom .onCpuNs).comp AddressStats.selfHom)
      ((rowMembers binaries rows g.1).map Prod.snd)
    rw [← stats_eq_sum hg, List.map_map] at hhom
    have hvals : (((rowMembers binaries rows g.1).map fun row => row.2.self.onCpuNs).map
        Sat.val).sum = ((rowMembers binaries rows g.1).map
          fun row => row.2.self.onCpuNs.val).sum := by
      rw [List.map_map]
      rfl
    have hstats : g.2.stats.self.onCpuNs =
        ((rowMembers binaries rows g.1).map fun row => row.2.self.onCpuNs).sum := hhom
    show g.2.stats.self.onCpuNs.val = _
    rw [hstats, Sat.val_sum_eq (hvals ▸ hfits g.1), hvals]
  have hkeys : ∀ row ∈ rows, rowKey binaries row.1 ∈ (groupRows binaries rows).map Prod.fst :=
    fun row hmem => mem_keys_groupRows.mpr
      (List.ne_nil_of_mem (mem_rowMembers.mpr ⟨hmem, rfl⟩))
  have hsum := Grouping.sum_members (fun row : Addr × AddressStats => row.2.self.onCpuNs.val)
    (nodup_groupRows rows) hkeys
  rw [← hsum, List.map_map]
  unfold sortedRows
  rw [((List.perm_insertionSort _ _).map _).sum_eq, List.map_map]
  exact congrArg List.sum (List.map_congr_left hrow)

end Rows

end Stax.Live
