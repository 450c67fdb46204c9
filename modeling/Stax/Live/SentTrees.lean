/-
# Stax.Live.SentTrees — the trees of an update and the table they are read through.

Both updates send the groups of their trees by the indices of one string table.  The table of the
neighbours starts with the target's names and then has those of the callers and of the callees; the
table of the flame graph has the names of its groups and then the two of the synthetic root.  As
long as the target and the addresses of the stack tree have no more names than there are indices,
every node reads back what its group shows.
-/
import Stax.Live.SymbolTrees
import Stax.Live.TopEntries

namespace Stax.Live

open Stax.Lib Stax.Lib.Rose

/-! ## Names -/

theorem mem_names {r : Resolved} {s : String} :
    s ∈ r.names ↔ r.key.1 = some s ∨ r.key.2 = some s ∨ s = r.language.asStr := by
  unfold Resolved.names
  rw [List.mem_append, List.mem_append, List.mem_singleton, Option.mem_toList, Option.mem_toList,
    or_assoc]

/-- Every string the updates for a stack tree and a target may send. -/
def updateNames (binaries : BinaryRegistry) (flameRoot : StackNode) (targetAddress : Addr) :
    List String :=
  (classify targetAddress binaries).names ++ tableNames binaries flameRoot.children ++
    [Language.unknown.asStr, "(all)"]

/-- There are indices for all of them. -/
def NamesFit (binaries : BinaryRegistry) (flameRoot : StackNode) (targetAddress : Addr) : Prop :=
  (updateNames binaries flameRoot targetAddress).toFinset.card ≤ 2 ^ 32

section Names

variable {binaries : BinaryRegistry} {flameRoot : StackNode} {targetAddress : Addr}

theorem mem_updateNames_unknown :
    Language.unknown.asStr ∈ updateNames binaries flameRoot targetAddress :=
  List.mem_append_right _ List.mem_cons_self

theorem mem_updateNames_of_target {s : String} (hs : s ∈ (classify targetAddress binaries).names) :
    s ∈ updateNames binaries flameRoot targetAddress :=
  List.mem_append_left _ (List.mem_append_left _ hs)

/-- The names of an address of the tree. -/
theorem mem_updateNames_of_node {m : Rose (Addr × Counters)} (hm : m ∈ nodes flameRoot.children)
    {s : String} (hs : s ∈ (classify m.label.1 binaries).names) :
    s ∈ updateNames binaries flameRoot targetAddress := by
  apply List.mem_append_left
  apply List.mem_append_right
  exact List.mem_flatMap.mpr ⟨m, hm, hs⟩

/-- A table of such names fits. -/
theorem fits_of_updateNames {table : StringInterner} (hwf : table.WF)
    (hnames : ∀ s ∈ table.strings, s ∈ updateNames binaries flameRoot targetAddress)
    (hfit : NamesFit binaries flameRoot targetAddress) : table.Fits := by
  rw [StringInterner.Fits, ← List.toFinset_card_of_nodup hwf.nodup]
  refine (Finset.card_le_card fun s hs => ?_).trans hfit
  rw [List.mem_toFinset] at hs ⊢
  exact hnames s hs

end Names

/-! ## The neighbours -/

section Neighbors

variable (flameRoot : StackNode) (binaries : BinaryRegistry) (targetAddress : Addr)

/-- The groups of callers that are sent. -/
def callerGroups : List (Rose (SymbolKey × List (Addr × Counters))) :=
  neighborGroups binaries (neighborsOf flameRoot binaries targetAddress).threshold
    (callerForest binaries (symbolOf binaries targetAddress) [] flameRoot.children)

/-- The groups of callees that are sent. -/
def calleeGroups : List (Rose (SymbolKey × List (Addr × Counters))) :=
  neighborGroups binaries (neighborsOf flameRoot binaries targetAddress).threshold
    (calleeForest binaries (symbolOf binaries targetAddress) flameRoot.children)

/-- The root of both trees. -/
def targetEntry : SymbolKey × Acc :=
  (symbolOf binaries targetAddress,
    ((neighborsOf flameRoot binaries targetAddress).target binaries targetAddress).acc)

/-- Both trees. -/
def neighborTrees : List (Rose (SymbolKey × Acc)) :=
  [node (targetEntry flameRoot binaries targetAddress)
      (mapForest (neighborEntry binaries) (callerGroups flameRoot binaries targetAddress)),
    node (targetEntry flameRoot binaries targetAddress)
      (mapForest (neighborEntry binaries) (calleeGroups flameRoot binaries targetAddress))]

/-- The table with the target's names. -/
def targetTable : StringInterner :=
  (StringInterner.internData {} (symbolOf binaries targetAddress)
    (targetEntry flameRoot binaries targetAddress).2).2

/-- The table of the update. -/
def neighborsTable : StringInterner :=
  let st := neighborsOf flameRoot binaries targetAddress
  let rootNode := st.target binaries targetAddress
  let key := symbolOf binaries targetAddress
  let callers := toFlameNode st.threshold (node (key, rootNode) st.callers)
    (targetTable flameRoot binaries targetAddress)
  (toFlameNode st.threshold (node (key, rootNode) st.callees) callers.2).2

variable {flameRoot binaries targetAddress}

theorem wf_toFlameNode {threshold : ℕ} {key : SymbolKey} {sn : SymbolNode}
    {f : List (Rose (Addr × Counters))} {interner : StringInterner} (hwf : interner.WF) :
    (toFlameNode threshold (node (key, sn) (mergeDescendants binaries [] f)) interner).2.WF := by
  have hbelow : Built binaries _ _ _ := built_toFlameNodes threshold f interner hwf
  rw [toFlameNode]
  exact (internData_spec hbelow.wf key sn.acc).1

/-- A symbol's tree is built from its neighbours and then its own names. -/
theorem built_toFlameNode {threshold : ℕ} {key : SymbolKey} {sn : SymbolNode}
    {f : List (Rose (Addr × Counters))} {interner : StringInterner} (hwf : interner.WF)
    {groups : List (Rose (SymbolKey × Acc))} {rest : List FlameNode × BuildState}
    (hrest : Built binaries groups
      { interner :=
          (toFlameNode threshold (node (key, sn) (mergeDescendants binaries [] f)) interner).2 }
      rest) :
    Built binaries
      (node (key, sn.acc)
        (mapForest (neighborEntry binaries) (neighborGroups binaries threshold f)) :: groups)
      { interner }
      ((toFlameNode threshold (node (key, sn) (mergeDescendants binaries [] f)) interner).1 ::
        rest.1, rest.2) := by
  have hbelow : Built binaries _ _ _ := built_toFlameNodes threshold f interner hwf
  rw [toFlameNode] at hrest ⊢
  exact hbelow.cons hrest

/-- Both trees are built in one table. -/
theorem built_neighbors :
    Built binaries (neighborTrees flameRoot binaries targetAddress)
      { interner := targetTable flameRoot binaries targetAddress }
      ([(computeNeighborsUpdate flameRoot binaries targetAddress).callersTree,
          (computeNeighborsUpdate flameRoot binaries targetAddress).calleesTree],
        { interner := neighborsTable flameRoot binaries targetAddress }) := by
  have hwf : (targetTable flameRoot binaries targetAddress).WF :=
    (internData_spec StringInterner.wf_new _ _).1
  have hcallers : (neighborsOf flameRoot binaries targetAddress).callers =
      mergeDescendants binaries []
        (callerForest binaries (symbolOf binaries targetAddress) [] flameRoot.children) :=
    congrArg Neighbors.callers (neighborsOf_eq flameRoot binaries targetAddress)
  have hcallees : (neighborsOf flameRoot binaries targetAddress).callees =
      mergeDescendants binaries []
        (calleeForest binaries (symbolOf binaries targetAddress) flameRoot.children) :=
    congrArg Neighbors.callees (neighborsOf_eq flameRoot binaries targetAddress)
  show Built binaries _ _
    ([(toFlameNode _ (node (_, (neighborsOf flameRoot binaries targetAddress).target binaries
          targetAddress) (neighborsOf flameRoot binaries targetAddress).callers) _).1,
        (toFlameNode _ (node _ (neighborsOf flameRoot binaries targetAddress).callees) _).1],
      { interner := (toFlameNode _ (node _ (neighborsOf flameRoot binaries
          targetAddress).callees) _).2 })
  rw [hcallers, hcallees]
  exact built_toFlameNode hwf (built_toFlameNode (wf_toFlameNode hwf)
    (Built.nil (cacheSound_none binaries _) (wf_toFlameNode (wf_toFlameNode hwf))))

/-- The trees of the update are both trees by the indices of the table. -/
theorem neighborTrees_sent :
    [(computeNeighborsUpdate flameRoot binaries targetAddress).callersTree,
        (computeNeighborsUpdate flameRoot binaries targetAddress).calleesTree] =
      mapForest (flameData (neighborsTable flameRoot binaries targetAddress))
        (neighborTrees flameRoot binaries targetAddress) :=
  built_neighbors.labels _ (StringInterner.Extends.refl _)

theorem callersTree_eq :
    (computeNeighborsUpdate flameRoot binaries targetAddress).callersTree =
      node (flameData (neighborsTable flameRoot binaries targetAddress)
          (targetEntry flameRoot binaries targetAddress))
        (mapForest (fun e => flameData (neighborsTable flameRoot binaries targetAddress)
          (neighborEntry binaries e)) (callerGroups flameRoot binaries targetAddress)) := by
  have htrees := @neighborTrees_sent flameRoot binaries targetAddress
  rw [neighborTrees, mapForest_cons, mapForest_mapForest] at htrees
  exact (List.cons.inj htrees).1

theorem calleesTree_eq :
    (computeNeighborsUpdate flameRoot binaries targetAddress).calleesTree =
      node (flameData (neighborsTable flameRoot binaries targetAddress)
          (targetEntry flameRoot binaries targetAddress))
        (mapForest (fun e => flameData (neighborsTable flameRoot binaries targetAddress)
          (neighborEntry binaries e)) (calleeGroups flameRoot binaries targetAddress)) := by
  have htrees := @neighborTrees_sent flameRoot binaries targetAddress
  rw [neighborTrees, mapForest_cons, mapForest_cons, mapForest_mapForest,
    mapForest_mapForest] at htrees
  exact (List.cons.inj (List.cons.inj htrees).2).1

/-- Below their roots they are the groups. -/
theorem neighbors_children :
    (computeNeighborsUpdate flameRoot binaries targetAddress).callersTree.children ++
        (computeNeighborsUpdate flameRoot binaries targetAddress).calleesTree.children =
      mapForest (fun e => flameData (neighborsTable flameRoot binaries targetAddress)
          (neighborEntry binaries e))
        (callerGroups flameRoot binaries targetAddress ++
          calleeGroups flameRoot binaries targetAddress) := by
  rw [callersTree_eq, calleesTree_eq, children_node, children_node, mapForest_eq_map,
    mapForest_eq_map, mapForest_eq_map, List.map_append]

/-! ### The entries of the groups -/

/-- An ancestor is a frame of the tree. -/
theorem address_callerForest {P : Addr → Prop} {targetKey : SymbolKey} {ancestors : List Addr}
    {f : List (Rose (Addr × Counters))} (hancestors : ∀ x ∈ ancestors, P x)
    (hframes : ∀ n ∈ nodes f, P n.label.1) :
    ∀ n ∈ nodes (callerForest binaries targetKey ancestors f), P n.label.1 := by
  have hchain (src : Counters) (ancestors : List Addr) (hancestors : ∀ x ∈ ancestors, P x) :
      ∀ n ∈ nodes (chain src ancestors), P n.label.1 := by
    induction ancestors with
    | nil => simp [chain]
    | cons x ancestors ih =>
        rw [List.forall_mem_cons] at hancestors
        rw [chain]
        exact forall_nodes_cons.mpr ⟨hancestors.1, ih hancestors.2, by simp⟩
  induction f using forest_induction generalizing ancestors with
  | nil => simp
  | cons a cs ts ihc iht =>
      obtain ⟨ha, hcs, hts⟩ := forall_nodes_cons.mp hframes
      have hpush : ∀ x ∈ push a.1 ancestors, P x := by
        unfold push
        split
        · exact List.forall_mem_cons.mpr ⟨ha, hancestors⟩
        · exact hancestors
      rw [callerForest_cons, forall_nodes_append, forall_nodes_append]
      refine ⟨⟨?_, ihc hpush hcs⟩, iht hancestors hts⟩
      split
      · exact hchain a.2 ancestors hancestors
      · simp

/-- What a node has below it is of the tree. -/
theorem mem_nodes_calleeForest {targetKey : SymbolKey} {f : List (Rose (Addr × Counters))}
    {n : Rose (Addr × Counters)} (hn : n ∈ nodes (calleeForest binaries targetKey f)) :
    n ∈ nodes f := by
  induction f using forest_induction with
  | nil => simp [calleeForest] at hn
  | cons a cs ts ihc iht =>
      rw [calleeForest_cons, nodes_append, nodes_append, List.mem_append, List.mem_append] at hn
      rw [nodes_cons, List.mem_cons, List.mem_append]
      rcases hn with (hn | hn) | hn
      · split at hn
        · exact Or.inr (Or.inl hn)
        · simp at hn
      · exact Or.inr (Or.inl (ihc hn))
      · exact Or.inr (Or.inr (iht hn))

/-- The entries of a group have its symbol and addresses of the tree. -/
theorem members_neighborGroups {n : Rose (SymbolKey × List (Addr × Counters))}
    (hn : n ∈ nodes (callerGroups flameRoot binaries targetAddress ++
      calleeGroups flameRoot binaries targetAddress)) :
    n.label.2 ≠ [] ∧ ∀ a ∈ n.label.2, keyOf binaries a = n.label.1 ∧
      ∃ m ∈ nodes flameRoot.children, m.label.1 = a.1 := by
  rw [nodes_append, List.mem_append] at hn
  rcases hn with hn | hn
  · obtain ⟨hne, hmembers⟩ := (isGroup_of_mem_groupTree hn).members
    refine ⟨hne, fun a ha => ?_⟩
    obtain ⟨hkey, m, hm, rfl⟩ := hmembers a ha
    refine ⟨hkey, ?_⟩
    exact address_callerForest (P := fun x => ∃ m ∈ nodes flameRoot.children, m.label.1 = x)
      (by simp) (fun n hn => ⟨n, hn, rfl⟩) m hm
  · obtain ⟨hne, hmembers⟩ := (isGroup_of_mem_groupTree hn).members
    refine ⟨hne, fun a ha => ?_⟩
    obtain ⟨hkey, m, hm, rfl⟩ := hmembers a ha
    exact ⟨hkey, m, mem_nodes_calleeForest hm, rfl⟩

/-! ### The names of the table -/

/-- A group of the neighbours has the names of its entries. -/
theorem names_neighborEntry {n : Rose (SymbolKey × List (Addr × Counters))}
    (hn : n ∈ nodes (callerGroups flameRoot binaries targetAddress ++
      calleeGroups flameRoot binaries targetAddress)) :
    ∀ s ∈ namesOf (neighborEntry binaries n.label),
      s ∈ updateNames binaries flameRoot targetAddress := by
  obtain ⟨hne, hmembers⟩ := members_neighborGroups hn
  have hentry (a : Addr × Counters) (ha : a ∈ n.label.2) :
      n.label.1 = (classify a.1 binaries).key ∧ ∀ s ∈ (classify a.1 binaries).names,
        s ∈ updateNames binaries flameRoot targetAddress := by
    obtain ⟨hkey, m, hm, haddr⟩ := hmembers a ha
    refine ⟨hkey.symm, fun s hs => ?_⟩
    rw [← haddr] at hs
    exact mem_updateNames_of_node hm hs
  obtain ⟨a, ha⟩ := List.exists_mem_of_ne_nil _ hne
  obtain ⟨hkey, hnames⟩ := hentry a ha
  intro s hs
  rcases mem_names.mp hs with hname | hbinary | hlanguage
  · refine hnames s (mem_names.mpr (Or.inl ?_))
    rw [← hkey]
    exact hname
  · refine hnames s (mem_names.mpr (Or.inr (Or.inl ?_)))
    rw [← hkey]
    exact hbinary
  · have hcode : s = (shownCode binaries n.label.2).2.asStr := hlanguage
    unfold shownCode at hcode
    split at hcode
    · rw [hcode]
      exact mem_updateNames_unknown
    · rename_i htime
      have hshown : shownEntry n.label.2 ∈ n.label.2 := by
        by_contra hnot
        refine htime (congrArg onCpuOf (shownEntry_eq_noEntry fun a ha => ?_))
        by_contra hpos
        exact hnot (shownEntry_mem ha hpos).1
      exact (hentry _ hshown).2 s (mem_names.mpr (Or.inr (Or.inr hcode)))

theorem neighborsTable_wf : (neighborsTable flameRoot binaries targetAddress).WF :=
  built_neighbors.wf

/-- The trees have the target at their roots and the groups below. -/
theorem mem_labels_neighborTrees {e : SymbolKey × Acc} :
    (∃ n ∈ nodes (neighborTrees flameRoot binaries targetAddress), n.label = e) ↔
      targetEntry flameRoot binaries targetAddress = e ∨
        ∃ q ∈ nodes (callerGroups flameRoot binaries targetAddress ++
          calleeGroups flameRoot binaries targetAddress), neighborEntry binaries q.label = e := by
  have hgroups (groups : List (Rose (SymbolKey × List (Addr × Counters)))) :
      (∃ n ∈ nodes (mapForest (neighborEntry binaries) groups), n.label = e) ↔
        ∃ q ∈ nodes groups, neighborEntry binaries q.label = e := by
    rw [nodes_mapForest]
    simp
  unfold neighborTrees
  rw [exists_nodes_cons, exists_nodes_cons, hgroups, hgroups, nodes_nil, nodes_append]
  simp only [label_node, List.mem_append, or_and_right, exists_or, List.not_mem_nil, false_and,
    exists_false, or_false]
  constructor
  · rintro (hroot | hcaller | hroot | hcallee)
    · exact Or.inl hroot
    · exact Or.inr (Or.inl hcaller)
    · exact Or.inl hroot
    · exact Or.inr (Or.inr hcallee)
  · rintro (hroot | hcaller | hcallee)
    · exact Or.inl hroot
    · exact Or.inr (Or.inl hcaller)
    · exact Or.inr (Or.inr (Or.inr hcallee))

/-- The table has the names of the groups. -/
theorem names_subset_neighborsTable {q : Rose (SymbolKey × List (Addr × Counters))}
    (hq : q ∈ nodes (callerGroups flameRoot binaries targetAddress ++
      calleeGroups flameRoot binaries targetAddress)) :
    ∀ s ∈ namesOf (neighborEntry binaries q.label),
      s ∈ (neighborsTable flameRoot binaries targetAddress).strings := by
  obtain ⟨n, hn, hlabel⟩ := mem_labels_neighborTrees.mpr (Or.inr ⟨q, hq, rfl⟩)
  intro s hs
  rw [← hlabel] at hs
  exact (built_neighbors.strings s).mpr (Or.inr ⟨n, hn, hs⟩)

/-- It has no others than those of the target and of the addresses of the tree. -/
theorem neighborsTable_names :
    ∀ s ∈ (neighborsTable flameRoot binaries targetAddress).strings,
      s ∈ updateNames binaries flameRoot targetAddress := by
  have htarget : ∀ s ∈ namesOf (targetEntry flameRoot binaries targetAddress),
      s ∈ updateNames binaries flameRoot targetAddress :=
    fun s hs => mem_updateNames_of_target hs
  intro s hs
  rcases (built_neighbors.strings s).mp hs with hs | ⟨n, hn, hs⟩
  · have hintern := (internData_spec StringInterner.wf_new (symbolOf binaries targetAddress)
      (targetEntry flameRoot binaries targetAddress).2).2.2.1 s
    rcases hintern.mp hs with hs | hs
    · cases hs
    · exact htarget s hs
  · rcases mem_labels_neighborTrees.mp ⟨n, hn, rfl⟩ with hroot | ⟨q, hq, hgroup⟩
    · rw [← hroot] at hs
      exact htarget s hs
    · rw [← hgroup] at hs
      exact names_neighborEntry hq s hs

end Neighbors

/-! ## The flame graph -/

section Flame

variable (flameRoot : StackNode) (binaries : BinaryRegistry) (targetAddress : Addr)

/-- The table of the update: the names of the groups and those of the synthetic root. -/
def flameTable : StringInterner :=
  (((buildChildren binaries [flameRoot.children] {}).2.interner.intern
    Language.unknown.asStr).2.intern "(all)").2

variable {flameRoot binaries targetAddress}

theorem flameTable_wf : (flameTable flameRoot binaries).WF :=
  ((built_root binaries flameRoot).wf.intern _).intern _

theorem extends_flameTable :
    (buildChildren binaries [flameRoot.children] {}).2.interner.Extends
      (flameTable flameRoot binaries) :=
  (StringInterner.extends_intern _ _).trans (StringInterner.extends_intern _ _)

theorem mem_flameTable {s : String} :
    s ∈ (flameTable flameRoot binaries).strings ↔
      (∃ n ∈ nodes (quotient binaries flameRoot.children), s ∈ namesOf n.label) ∨
        s = Language.unknown.asStr ∨ s = "(all)" := by
  have hbuilt := built_root binaries flameRoot
  unfold flameTable
  rw [(hbuilt.wf.intern _).mem_strings_intern, hbuilt.wf.mem_strings_intern, hbuilt.strings,
    or_assoc]
  simp

/-- The nodes below the root are the folded groups by the indices of the table. -/
theorem flame_children (aggregation : Aggregation) :
    (computeFlameUpdate aggregation binaries).root.children =
      (mapForest (flameData (flameTable aggregation.flameRoot binaries))
        (quotient binaries aggregation.flameRoot.children)).map foldRecursion := by
  rw [← (built_root binaries aggregation.flameRoot).labels _ extends_flameTable]
  rfl

/-- The groups by the indices of the table. -/
theorem flame_groups (table : StringInterner) :
    mapForest (flameData table) (quotient binaries flameRoot.children) =
      mapForest (fun e => flameData table (flameEntry binaries e))
        (flameGroups binaries flameRoot.children) := by
  have hsent := congrArg (mapForest (flameData table)) (@mapForest_quotient binaries
    flameRoot.children)
  rw [mapForest_mapForest, mapForest_mapForest] at hsent
  exact hsent

/-- The table has the names of the groups. -/
theorem names_subset_flameTable {q : Rose (SymbolKey × List (Addr × Counters))}
    (hq : q ∈ nodes (flameGroups binaries flameRoot.children)) :
    ∀ s ∈ namesOf (flameEntry binaries q.label), s ∈ (flameTable flameRoot binaries).strings := by
  have hmem : q.map (flameEntry binaries) ∈
      nodes (mapForest sentPart (quotient binaries flameRoot.children)) := by
    rw [mapForest_quotient, nodes_mapForest]
    exact List.mem_map_of_mem hq
  rw [nodes_mapForest] at hmem
  obtain ⟨n, hn, hsent⟩ := List.mem_map.mp hmem
  have hlabel : sentPart n.label = flameEntry binaries q.label := by
    have hlabels := congrArg label hsent
    rw [label_map, label_map] at hlabels
    exact hlabels
  intro s hs
  rw [← hlabel] at hs
  exact mem_flameTable.mpr (Or.inl ⟨n, hn, hs⟩)

/-- Folding the trees of a forest pulls up repetitions below each. -/
theorem map_foldRecursion (children : List FlameNode) :
    children.map foldRecursion =
      children.map fun t => node t.label (collapse symbolEq t.label t.children) :=
  List.map_congr_left fun t _ => foldRecursion_eq t

/-- Folding keeps the fields of the nodes it leaves. -/
theorem label_of_mem_fold {children : List FlameNode} {n : FlameNode}
    (hn : n ∈ nodes (children.map foldRecursion)) : ∃ m ∈ nodes children, m.label = n.label := by
  rw [map_foldRecursion] at hn
  exact exists_of_mem_collapseBelow hn

/-- The table has no names but those of the addresses of the tree and of the synthetic root. -/
theorem flameTable_names :
    ∀ s ∈ (flameTable flameRoot binaries).strings,
      s ∈ updateNames binaries flameRoot targetAddress := by
  intro s hs
  rcases mem_flameTable.mp hs with ⟨n, hn, hs⟩ | rfl | rfl
  · obtain ⟨m, hm, -, hresolved⟩ := representative_quotient hn
    refine mem_updateNames_of_node hm ?_
    show s ∈ (Resolved.of (binaries m.label.1)).names
    rw [hresolved]
    exact hs
  · exact mem_updateNames_unknown
  · exact List.mem_append_right _ (by simp)

end Flame

end Stax.Live
