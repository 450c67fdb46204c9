/-
# Stax.Live.ClickThrough — whether a node opens the code it names.

A node carries an address, and a click on it looks that address up.  In the flame graph a group
takes over an address together with what it resolves to, so its node always shows what its address
is.  A group of the neighbours starts from an empty node and takes over an entry only when it has
on-CPU time, and a row of the table takes over an address without what it resolves to: so a group
that was only waited in carries no address at all, and a row may show its first address's language
over another address.
-/
import Stax.Live.SentTrees

namespace Stax.Live

open Stax.Lib Stax.Lib.Rose
open Aggregation

/-! ## Faithful nodes and rows -/

/-- The address of a node is on a credited stack and resolves to what the node shows through a
string table. -/
structure FlameData.Faithful (binaries : BinaryRegistry) (chs : List Charge)
    (strings : List String) (d : FlameData) : Prop where
  occurs : ∃ c ∈ creditsOf chs, d.address ∈ c.stack
  names : d.Reads strings (classify d.address binaries)
  isMain : d.isMain = (classify d.address binaries).isMain

/-- The address of a row is on a credited stack and resolves to what the row shows. -/
structure TopEntry.Faithful (binaries : BinaryRegistry) (chs : List Charge) (e : TopEntry) :
    Prop where
  occurs : ∃ c ∈ creditsOf chs, e.address ∈ c.stack
  symbol : (e.functionName, e.binary) = (classify e.address binaries).key
  isMain : e.isMain = (classify e.address binaries).isMain
  language : e.language = (classify e.address binaries).language.asStr

/-- Every node of both updates below their roots is faithful, and so is every row of every table. -/
structure ClickThrough (chs : List Charge) (binaries : BinaryRegistry) (targetAddress : Addr)
    (iteration : (ofCharges chs).byAddress.Iteration) : Prop where
  flame : let update := computeFlameUpdate (ofCharges chs) binaries
    ∀ n ∈ nodes update.root.children, n.label.Faithful binaries chs update.strings
  family : let update := computeNeighborsUpdate (ofCharges chs).flameRoot binaries targetAddress
    ∀ n ∈ nodes (update.callersTree.children ++ update.calleesTree.children),
      n.label.Faithful binaries chs update.strings
  rows : ∀ sort limit, ∀ e ∈ groupTopEntries (ofCharges chs) iteration binaries sort limit,
    e.Faithful binaries chs

/-! ## The condition -/

/-- A row's address with most time as a leaf resolves to what the row's first address does. -/
def RowAgrees (binaries : BinaryRegistry) (rows : List (Addr × AddressStats))
    (key : String × String) : Prop :=
  ∀ first rest, rowMembers binaries rows key = first :: rest →
    classify (RunningMax.leader leafTime (candidate first) (rest.map candidate)).1 binaries =
      classify first.1 binaries

/-- A group has on-CPU time in some entry. -/
def HasOnCpu (e : SymbolKey × List (Addr × Counters)) : Prop := ∃ a ∈ e.2, onCpuOf a ≠ 0

/-- Where the addresses of a row resolve alike, the row agrees. -/
theorem rowAgrees_of_alike {binaries : BinaryRegistry} {rows : List (Addr × AddressStats)}
    (h : ∀ r ∈ rows, ∀ r' ∈ rows, rowKey binaries r.1 = rowKey binaries r'.1 →
      classify r.1 binaries = classify r'.1 binaries) (key : String × String) :
    RowAgrees binaries rows key := by
  intro first rest hmembers
  have hmem : RunningMax.leader leafTime (candidate first) (rest.map candidate) ∈
      (first :: rest).map candidate := RunningMax.leader_mem_cons
  obtain ⟨row, hrow, hleader⟩ := List.mem_map.mp hmem
  rw [← hleader]
  have hof : ∀ r ∈ first :: rest, r ∈ rows ∧ rowKey binaries r.1 = key := by
    intro r hr
    rw [← hmembers] at hr
    exact mem_rowMembers.mp hr
  obtain ⟨hrow, hkey⟩ := hof row hrow
  obtain ⟨hfirst, hkey'⟩ := hof first List.mem_cons_self
  exact h row hrow first hfirst (hkey.trans hkey'.symm)

section ClickThrough

variable {chs : List Charge} {binaries : BinaryRegistry} {targetAddress : Addr}

/-- The frames of the stack tree are those of the credited stacks. -/
theorem occurs_of_mem_nodes {n : Rose (Addr × Counters)}
    (hn : n ∈ nodes (ofCharges chs).flameRoot.children) :
    ∃ c ∈ creditsOf chs, n.label.1 ∈ c.stack := by
  rw [flameRoot_ofCharges] at hn
  refine Trie.forall_keys_credit (P := fun x => ∃ c ∈ creditsOf chs, x ∈ c.stack) ?_ (by simp) n hn
  intro e he x hx
  obtain ⟨c, hc, rfl⟩ := List.mem_map.mp he
  exact ⟨c, hc, List.mem_reverse.mp hx⟩

/-! ## The flame graph -/

/-- The nodes of the flame graph are faithful. -/
theorem faithful_flame (hfit : NamesFit binaries (ofCharges chs).flameRoot targetAddress)
    {n : FlameNode} (hn : n ∈ nodes (computeFlameUpdate (ofCharges chs) binaries).root.children) :
    n.label.Faithful binaries chs (computeFlameUpdate (ofCharges chs) binaries).strings := by
  rw [flame_children] at hn
  obtain ⟨m, hm, hlabel⟩ := label_of_mem_fold hn
  rw [nodes_mapForest] at hm
  obtain ⟨q, hq, rfl⟩ := List.mem_map.mp hm
  obtain ⟨t, ht, haddr, hresolved⟩ := representative_quotient hq
  have hclassify : classify (flameData (flameTable (ofCharges chs).flameRoot binaries)
      q.label).address binaries = ⟨q.label.1, q.label.2.isMain, q.label.2.language⟩ := by
    rw [← hresolved, ← haddr]
    rfl
  have hfits : (flameTable (ofCharges chs).flameRoot binaries).Fits :=
    fits_of_updateNames flameTable_wf flameTable_names hfit
  rw [label_map] at hlabel
  rw [← hlabel]
  refine ⟨?_, ?_, ?_⟩
  · show ∃ c ∈ creditsOf chs, q.label.2.repAddr ∈ c.stack
    rw [haddr]
    exact occurs_of_mem_nodes ht
  · rw [hclassify]
    exact reads_flameData flameTable_wf hfits fun s hs => mem_flameTable.mpr (Or.inl ⟨q, hq, hs⟩)
  · rw [hclassify]
    rfl

/-! ## The neighbours -/

/-- What is sent of a group of the neighbours. -/
theorem mem_neighbors_children {n : FlameNode}
    (hn : n ∈ nodes
      ((computeNeighborsUpdate (ofCharges chs).flameRoot binaries targetAddress).callersTree.children ++
        (computeNeighborsUpdate (ofCharges chs).flameRoot binaries
          targetAddress).calleesTree.children)) :
    ∃ q ∈ nodes (callerGroups (ofCharges chs).flameRoot binaries targetAddress ++
        calleeGroups (ofCharges chs).flameRoot binaries targetAddress),
      n.label = flameData (neighborsTable (ofCharges chs).flameRoot binaries targetAddress)
        (neighborEntry binaries q.label) := by
  rw [neighbors_children, nodes_mapForest] at hn
  obtain ⟨q, hq, rfl⟩ := List.mem_map.mp hn
  exact ⟨q, hq, label_map _ q⟩

/-- A group with on-CPU time is faithful. -/
theorem faithful_of_hasOnCpu
    (hfit : NamesFit binaries (ofCharges chs).flameRoot targetAddress)
    {q : Rose (SymbolKey × List (Addr × Counters))}
    (hq : q ∈ nodes (callerGroups (ofCharges chs).flameRoot binaries targetAddress ++
      calleeGroups (ofCharges chs).flameRoot binaries targetAddress)) (htime : HasOnCpu q.label) :
    (flameData (neighborsTable (ofCharges chs).flameRoot binaries targetAddress)
        (neighborEntry binaries q.label)).Faithful binaries chs
      (neighborsTable (ofCharges chs).flameRoot binaries targetAddress).strings := by
  obtain ⟨a, ha, hpos⟩ := htime
  obtain ⟨hshown, htime⟩ := shownEntry_mem ha hpos
  obtain ⟨-, hmembers⟩ := members_neighborGroups hq
  obtain ⟨hkey, m, hm, haddr⟩ := hmembers _ hshown
  have hclassify : classify (shownEntry q.label.2).1 binaries =
      ⟨q.label.1, (neighborEntry binaries q.label).2.isMain,
        (neighborEntry binaries q.label).2.language⟩ := by
    have hcode : shownCode binaries q.label.2 =
        ((classify (shownEntry q.label.2).1 binaries).isMain,
          (classify (shownEntry q.label.2).1 binaries).language) := if_neg htime
    show _ = Resolved.mk _ (shownCode binaries q.label.2).1 (shownCode binaries q.label.2).2
    rw [hcode, ← hkey]
    rfl
  have hfits : (neighborsTable (ofCharges chs).flameRoot binaries targetAddress).Fits :=
    fits_of_updateNames neighborsTable_wf neighborsTable_names hfit
  refine ⟨?_, ?_, ?_⟩
  · obtain ⟨c, hc, hx⟩ := occurs_of_mem_nodes hm
    rw [haddr] at hx
    exact ⟨c, hc, hx⟩
  · show FlameData.Reads _ _ (classify (shownEntry q.label.2).1 binaries)
    rw [hclassify]
    exact reads_flameData neighborsTable_wf hfits (names_subset_neighborsTable hq)
  · show _ = (classify (shownEntry q.label.2).1 binaries).isMain
    rw [hclassify]
    rfl

/-- A group without on-CPU time carries the address zero. -/
theorem hasOnCpu_of_occurs (hframes : ∀ c ∈ creditsOf chs, 0 ∉ c.stack) {table : StringInterner}
    {e : SymbolKey × List (Addr × Counters)}
    (h : ∃ c ∈ creditsOf chs, (flameData table (neighborEntry binaries e)).address ∈ c.stack) :
    HasOnCpu e := by
  by_contra hnone
  unfold HasOnCpu at hnone
  push Not at hnone
  obtain ⟨c, hc, hx⟩ := h
  have hshown : shownEntry e.2 = noEntry := shownEntry_eq_noEntry hnone
  have hzero : (flameData table (neighborEntry binaries e)).address = 0 :=
    congrArg Prod.fst hshown
  rw [hzero] at hx
  exact hframes c hc hx

/-! ## The rows -/

/-- A row is faithful exactly when it agrees. -/
theorem faithful_row_iff {rows : List (Addr × AddressStats)}
    (hrows : rows.Perm (ofCharges chs).byAddress.rows) {g : (String × String) × Agg}
    (hg : g ∈ groupRows binaries rows) :
    g.2.entry.Faithful binaries chs ↔ RowAgrees binaries rows g.1 := by
  obtain ⟨⟨row, hrow, hrep⟩, -⟩ := representative_spec hg
  obtain ⟨first, rest, hmembers, hagg⟩ := mem_groupRows.mp hg
  have hshown : g.2.shown = classify first.1 binaries := shown_eq hagg
  have hleader := representative_eq_leader hagg
  -- the row agrees when its representative is shown as its first address is
  have hagrees : RowAgrees binaries rows g.1 ↔
      classify g.2.entry.address binaries = g.2.shown := by
    have haddress : g.2.entry.address =
        (RunningMax.leader leafTime (candidate first) (rest.map candidate)).1 :=
      congrArg Prod.fst hleader
    rw [haddress, hshown]
    constructor
    · exact fun h => h first rest hmembers
    · intro h first' rest' hmembers'
      obtain ⟨rfl, rfl⟩ := List.cons.inj (hmembers.symm.trans hmembers')
      exact h
  -- the representative is an address that some stack goes through
  have hoccurs : ∃ c ∈ creditsOf chs, g.2.entry.address ∈ c.stack := by
    have haddress : row.1 = g.2.entry.address := congrArg Prod.fst hrep
    rw [← haddress]
    exact exists_credit_of_mem_byAddress
      (mem_rows_iff.mp (hrows.mem_iff.mp (mem_rowMembers.mp hrow).1)).1
  rw [hagrees]
  constructor
  · rintro ⟨-, hsymbol, hmain, hlanguage⟩
    have hlanguage' := Language.asStr_injective hlanguage
    rw [Agg.shown]
    generalize classify g.2.entry.address binaries = resolved at *
    obtain ⟨key, isMain, language⟩ := resolved
    rw [Resolved.mk.injEq]
    exact ⟨hsymbol.symm, hmain.symm, hlanguage'.symm⟩
  · intro h
    refine ⟨hoccurs, ?_, ?_, ?_⟩
    · rw [h]
      rfl
    · rw [h]
      rfl
    · rw [h]
      rfl

end ClickThrough

/-! ## When every click opens what it names -/

/-- Click-through addresses are faithful only when every group of the neighbours that is sent has
on-CPU time and every row agrees, and then they are, as long as there are indices for all names.
For every aggregation of stacks without frames at the address zero, every registry, target and
order of the table. -/
theorem click_through_iff (chs : List Charge) (binaries : BinaryRegistry) (targetAddress : Addr)
    (iteration : (ofCharges chs).byAddress.Iteration)
    (hframes : ∀ c ∈ creditsOf chs, 0 ∉ c.stack) :
    let flameRoot := (ofCharges chs).flameRoot
    let agrees := (∀ n ∈ nodes (callerGroups flameRoot binaries targetAddress ++
        calleeGroups flameRoot binaries targetAddress), HasOnCpu n.label) ∧
      ∀ key, RowAgrees binaries iteration.rows key
    (ClickThrough chs binaries targetAddress iteration → agrees) ∧
      (NamesFit binaries flameRoot targetAddress → agrees →
        ClickThrough chs binaries targetAddress iteration) := by
  intro flameRoot agrees
  constructor
  · intro h
    refine ⟨fun q hq => ?_, fun key => ?_⟩
    · -- the node of the group is among those that are sent
      have hsent : (q.map fun e => flameData (neighborsTable flameRoot binaries targetAddress)
          (neighborEntry binaries e)) ∈ nodes
            ((computeNeighborsUpdate flameRoot binaries targetAddress).callersTree.children ++
              (computeNeighborsUpdate flameRoot binaries targetAddress).calleesTree.children) := by
        rw [neighbors_children, nodes_mapForest]
        exact List.mem_map_of_mem hq
      have hoccurs := (h.family _ hsent).occurs
      rw [label_map] at hoccurs
      exact hasOnCpu_of_occurs hframes hoccurs
    · intro first rest hmembers
      have hg : (key, rest.foldl Agg.modify (Agg.insert binaries first)) ∈
          groupRows binaries iteration.rows := mem_groupRows.mpr ⟨first, rest, hmembers, rfl⟩
      refine (faithful_row_iff iteration.perm hg).mp (h.rows .bySelf
        (sortedRows binaries .bySelf iteration.rows).length _ ?_) first rest hmembers
      rw [groupTopEntries, List.take_length]
      exact mem_sortedRows.mpr ⟨_, hg, rfl⟩
  · rintro hfit ⟨hgroups, hrows⟩
    refine ⟨fun n hn => faithful_flame hfit hn, fun n hn => ?_, fun sort limit e he => ?_⟩
    · obtain ⟨q, hq, hlabel⟩ := mem_neighbors_children hn
      rw [hlabel]
      exact faithful_of_hasOnCpu hfit hq (hgroups q hq)
    · obtain ⟨g, hg, rfl⟩ := mem_sortedRows.mp (List.mem_of_mem_take he)
      exact (faithful_row_iff iteration.perm hg).mpr (hrows g.1)

namespace Aggregator

/-- `f` waits for a lock in `g`. -/
def waitingSample : Aggregator := replay
  [.interval 1 { startNs := 10, endNs := 30, kind := .offCpu [0xb0, 0xa0] none none }]

/-- The charges of a log without a filter. -/
def allCharges (self : Aggregator) (binaries : BinaryRegistry) : List Charge :=
  self.charges binaries (self.passes binaries {}) (self.selected none)

/-- The callee that was only waited in opens nothing. -/
theorem waitingSample_opens_nothing :
    ¬ ClickThrough (waitingSample.allCharges callSites) callSites 0xa0 ⟨_, List.Perm.refl _⟩ := by
  intro h
  have hzero : ∀ n ∈ nodes
      ((computeNeighborsUpdate (ofCharges (waitingSample.allCharges callSites)).flameRoot callSites
          0xa0).callersTree.children ++
        (computeNeighborsUpdate (ofCharges (waitingSample.allCharges callSites)).flameRoot callSites
          0xa0).calleesTree.children),
      ∃ c ∈ creditsOf (waitingSample.allCharges callSites), n.label.address ∈ c.stack :=
    fun n hn => (h.family n hn).occurs
  revert hzero
  decide +kernel

/-- All addresses of `f` are of one language and all of its neighbours were on the CPU. -/
theorem click_through_recursiveSample :
    ClickThrough (recursiveSample.allCharges callSites) callSites 0xa0 ⟨_, List.Perm.refl _⟩ := by
  refine (click_through_iff _ callSites 0xa0 ⟨_, List.Perm.refl _⟩ (by decide +kernel)).2 ?_
    ⟨?_, fun key => rowAgrees_of_alike ?_ key⟩
  · unfold NamesFit
    decide +kernel
  · unfold HasOnCpu
    decide +kernel
  · decide +kernel

end Aggregator

end Stax.Live
