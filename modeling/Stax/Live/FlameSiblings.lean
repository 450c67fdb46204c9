/-
# Stax.Live.FlameSiblings — the siblings of the published flame graph.

`buildChildren` merges siblings by symbol and puts the longest first; `foldRecursion` then puts the
children of a recursive call among the call's own siblings, where it neither merges nor sorts them.
So which siblings are published depends on what the recursive calls of the symbol tree call: the
published siblings are merged and ordered exactly when the nodes that folding makes siblings are so
already.
-/
import Stax.Live.FlameQuotient
import Stax.Live.RecursionFold

namespace Stax.Live

open Stax.Lib Stax.Lib.Rose

/-! ## The order `buildChildren` leaves -/

theorem compareEntries_eq :
    compareEntries = compareLex
      (fun a b => compareOn (fun e : SymbolKey × Acc => e.2.counters.durationNs.val) b a)
      (compareLex (compareOn fun e => e.1.1) (compareOn fun e => e.1.2)) :=
  rfl

instance : Std.TransCmp compareEntries := by
  rw [compareEntries_eq]
  infer_instance

/-- Sorted siblings are ordered by time, the longest first. -/
theorem sortEntries_longestFirst (entries : List (SymbolKey × Acc)) :
    (sortEntries entries).Pairwise fun a b =>
      b.2.counters.durationNs.val ≤ a.2.counters.durationNs.val := by
  have : Std.Total fun a b : SymbolKey × Acc => (compareEntries a b).isLE = true :=
    ⟨fun a b => by
      have hswap : compareEntries b a = (compareEntries a b).swap := Std.OrientedCmp.eq_swap
      rw [hswap]
      cases compareEntries a b <;> simp⟩
  have : IsTrans (SymbolKey × Acc) fun a b => (compareEntries a b).isLE = true :=
    ⟨fun _ _ _ => Std.TransCmp.isLE_trans⟩
  refine (List.pairwise_insertionSort _ entries).imp fun {a b} h => ?_
  exact Nat.isLE_compare.mp (Ordering.isLE_left_of_isLE_then h)

/-! ## The table -/

/-- A table with some more strings. -/
def StringInterner.internAll (self : StringInterner) (strings : List String) : StringInterner :=
  strings.foldl (fun table s => (table.intern s).2) self

theorem internAll_append (self : StringInterner) (ss ts : List String) :
    self.internAll (ss ++ ts) = (self.internAll ss).internAll ts :=
  List.foldl_append

theorem internData_internAll (self : StringInterner) (key : SymbolKey) (acc : Acc) :
    (self.internData key acc).2 = self.internAll (namesOf (key, acc)) := by
  obtain ⟨functionName, binary⟩ := key
  cases functionName <;> cases binary <;> rfl

mutual
/-- The names that a subtree shows, those below a node before its own. -/
def shownNamesTree : Rose (SymbolKey × Acc) → List String
  | node e below => shownNames below ++ namesOf e

/-- The strings of a symbol tree in the order in which its nodes are built. -/
def shownNames : List (Rose (SymbolKey × Acc)) → List String
  | [] => []
  | t :: ts => shownNamesTree t ++ shownNames ts
end

/-- The table of a symbol tree. -/
def nameTable (tree : List (Rose (SymbolKey × Acc))) : StringInterner :=
  StringInterner.internAll {} (shownNames tree)

theorem shownNames_cons (e : SymbolKey × Acc) (below rest : List (Rose (SymbolKey × Acc))) :
    shownNames (node e below :: rest) = shownNames below ++ namesOf e ++ shownNames rest := by
  rw [shownNames, shownNamesTree]

/-- Building the tree interns its strings in that order. -/
theorem interner_buildChildren (binaries : BinaryRegistry) (sources : List (Trie Addr Counters))
    (st : BuildState) (hcache : CacheSound binaries st.symbolCache) (hwf : st.interner.WF) :
    (buildChildren binaries sources st).2.interner =
      st.interner.internAll (shownNames (quotient binaries sources.flatten)) := by
  refine (buildChildren.mutual_induct binaries
    (fun sources st => CacheSound binaries st.symbolCache → st.interner.WF →
      (buildChildren binaries sources st).2.interner =
        st.interner.internAll (shownNames (quotient binaries sources.flatten)))
    (fun entries st => CacheSound binaries st.symbolCache → st.interner.WF →
      (buildNodes binaries entries st).2.interner =
        st.interner.internAll
          (shownNames (entries.map fun e => node e (quotient binaries e.2.below))))
    ?_ ?_ ?_).1 sources st hcache hwf
  · intro sources st ih hcache hwf
    obtain ⟨hgroups, hsound⟩ := groupChildren_eq hcache sources
    rw [buildChildren, quotient_eq, ← hgroups]
    exact ih hsound hwf
  · intro st hcache hwf
    rw [buildNodes, List.map_nil, shownNames]
    rfl
  · intro key acc entries st _ st' hchildren data interner hdata _ _ _ ihchildren ihrest hcache hwf
    have hbuilt := built_buildChildren binaries acc.subSources st hcache hwf
    have htable := ihchildren hcache hwf
    rw [hchildren] at hbuilt htable
    have hnames : interner = (st'.interner.internData key acc).2 := by
      rw [hdata]
    have hrest := ihrest hbuilt.cache (by
      rw [hnames]
      exact (internData_spec hbuilt.wf key acc).1)
    rw [hnames, internData_internAll, htable] at hrest
    rw [buildNodes, hchildren, List.map_cons, shownNames_cons, internAll_append, internAll_append]
    dsimp only
    rw [internData_internAll, htable]
    exact hrest

theorem interner_root (binaries : BinaryRegistry) (root : StackNode) :
    (buildChildren binaries [root.children] {}).2.interner =
      nameTable (quotient binaries root.children) := by
  have hsound : CacheSound binaries ({} : BuildState).symbolCache := by
    intro addr r hr
    cases hr
  have hinterner := interner_buildChildren binaries [root.children] {} hsound StringInterner.wf_new
  rw [List.flatten_singleton] at hinterner
  exact hinterner

/-! ## The published siblings -/

/-- Another symbol, and not shorter. -/
def FlameData.Precedes (a b : FlameData) : Prop :=
  a.symbol ≠ b.symbol ∧ b.counters.durationNs.val ≤ a.counters.durationNs.val

instance : DecidableRel FlameData.Precedes := fun a b =>
  inferInstanceAs (Decidable (a.symbol ≠ b.symbol ∧ _))

/-- Merged and ordered: no symbol twice, and the longest first. -/
def MergedAndOrdered (children : List FlameNode) : Prop :=
  children.Pairwise fun a b => a.label.Precedes b.label

instance : DecidablePred MergedAndOrdered := fun children =>
  inferInstanceAs (Decidable (children.Pairwise _))

/-- A symbol by the indices of a table. -/
def wireSymbol (table : StringInterner) (key : SymbolKey) : Option UInt32 × Option UInt32 :=
  (key.1.bind table.index, key.2.bind table.index)

/-- Another symbol by the indices of a table, and not shorter. -/
def WirePrecedes (table : StringInterner) (e e' : SymbolKey × Acc) : Prop :=
  wireSymbol table e.1 ≠ wireSymbol table e'.1 ∧
    e'.2.counters.durationNs.val ≤ e.2.counters.durationNs.val

/-- Whether a group is a recursive call of another one. -/
def recursive (table : StringInterner) (e caller : SymbolKey × Acc) : Bool :=
  repeats (wireSymbol table e.1) (wireSymbol table caller.1)

/-- The symbol tree folds in order: the indices tell apart the trees at its top, and of any two nodes
that reach a node through its recursive calls only, the one that comes first is not shorter and
has another symbol. -/
def FoldsInOrder (table : StringInterner) (tree : List (Rose (SymbolKey × Acc))) : Prop :=
  (tree.Pairwise fun m n => wireSymbol table m.label.1 ≠ wireSymbol table n.label.1) ∧
  ∀ n ∈ nodes tree, (walkForest n.children).Pairwise fun u v =>
    surfaces (recursive table) n.label u.1 = true → surfaces (recursive table) n.label v.1 = true →
      WirePrecedes table u.2.label v.2.label

/-- The children of a node of the symbol tree are the symbol tree of what its group hands on. -/
theorem children_of_mem_quotient {binaries : BinaryRegistry}
    {children : List (Rose (Addr × Counters))} {n : Rose (SymbolKey × Acc)}
    (hn : n ∈ nodes (quotient binaries children)) :
    n.children = quotient binaries n.label.2.below := by
  induction children using groups_induction binaries with
  | step children ih =>
      rw [quotient_eq] at hn
      obtain ⟨t, ht, hn⟩ := mem_nodes_iff.mp hn
      obtain ⟨e, he, rfl⟩ := List.mem_map.mp ht
      rcases hn with rfl | hn
      · rfl
      · exact ih e (mem_sortEntries.mp he) hn

theorem quotient_longestFirst (binaries : BinaryRegistry)
    (children : List (Rose (Addr × Counters))) :
    (quotient binaries children).Pairwise fun m n =>
      n.label.2.counters.durationNs.val ≤ m.label.2.counters.durationNs.val := by
  rw [quotient_eq, List.pairwise_map]
  exact sortEntries_longestFirst _

theorem key_eq_of_symbol_eq {strings : List String} {a b : FlameData} (h : a.symbol = b.symbol) :
    a.key strings = b.key strings := by
  obtain ⟨hname, hbinary⟩ := Prod.mk.inj h
  rw [FlameData.key, FlameData.key, hname, hbinary]

/-- A table that holds the names tells the symbols of the tree apart. -/
theorem wireSymbol_inj {binaries : BinaryRegistry} {root : StackNode}
    (hnames : (tableNames binaries root.children).toFinset.card ≤ 2 ^ 32)
    {m n : Rose (SymbolKey × Acc)} (hm : m ∈ nodes (quotient binaries root.children))
    (hn : n ∈ nodes (quotient binaries root.children))
    (h : wireSymbol (nameTable (quotient binaries root.children)) m.label.1 =
      wireSymbol (nameTable (quotient binaries root.children)) n.label.1) :
    m.label.1 = n.label.1 := by
  have hbuilt := built_root binaries root
  have hfits := fits_root hnames
  have hreadm := (hbuilt.reads hfits hm).key_eq
  have hreadn := (hbuilt.reads hfits hn).key_eq
  rw [interner_root] at hreadm hreadn
  generalize nameTable (quotient binaries root.children) = table at h hreadm hreadn
  have hread : (flameData table m.label).key table.strings =
      (flameData table n.label).key table.strings :=
    key_eq_of_symbol_eq h
  exact hreadm.symm.trans (hread.trans hreadn)

/-- A tree with no more names than there are indices and without a direct recursive call folds in
order. -/
theorem foldsInOrder_of_not_recursive {binaries : BinaryRegistry} {root : StackNode}
    (hnames : (tableNames binaries root.children).toFinset.card ≤ 2 ^ 32)
    (hcalls : ∀ n ∈ nodes (quotient binaries root.children), ∀ c ∈ n.children,
      recursive (nameTable (quotient binaries root.children)) c.label n.label = false) :
    FoldsInOrder (nameTable (quotient binaries root.children))
      (quotient binaries root.children) := by
  have hdistinct : SiblingsDistinct Prod.fst (quotient binaries root.children) :=
    siblingsDistinct_quotient root.children
  -- siblings have distinct symbols, so distinct indices
  have hwire (f : List (Rose (SymbolKey × Acc)))
      (hf : ∀ t ∈ f, t ∈ nodes (quotient binaries root.children))
      (hnodup : (f.map fun t => t.label.1).Nodup) :
      f.Pairwise fun m n =>
        wireSymbol (nameTable (quotient binaries root.children)) m.label.1 ≠
          wireSymbol (nameTable (quotient binaries root.children)) n.label.1 := by
    rw [List.Nodup, List.pairwise_map] at hnodup
    exact hnodup.imp_of_mem fun hm hn hne heq => hne (wireSymbol_inj hnames (hf _ hm) (hf _ hn) heq)
  refine ⟨hwire _ (fun t ht => mem_nodes_self ht) hdistinct.1, fun n hn => ?_⟩
  have hpull : pull (recursive (nameTable (quotient binaries root.children))) n.label n.children =
      n.children :=
    pull_eq_self (hcalls n hn)
  have hbelow := hwire n.children (fun t ht => mem_nodes_of_child hn ht) (hdistinct.2 n hn)
  have hordered := quotient_longestFirst binaries n.label.2.below
  rw [← children_of_mem_quotient hn] at hordered
  rw [← pairwise_pull_iff, hpull]
  exact hbelow.and hordered

theorem symbolEq_trans (a b c : FlameData) (h : symbolEq a b = true) :
    symbolEq c a = symbolEq c b := by
  unfold symbolEq at h ⊢
  simp only [Bool.and_eq_true, beq_iff_eq] at h
  rw [h.1.2, h.2]

/-- Folding a forest: what is published below a node is what the node pulls up. -/
theorem mergedAndOrdered_folded_iff (children : List FlameNode) :
    (MergedAndOrdered (children.map foldRecursion) ∧
      ∀ n ∈ nodes (children.map foldRecursion), MergedAndOrdered n.children) ↔
    MergedAndOrdered children ∧
      ∀ n ∈ nodes children, MergedAndOrdered (pull symbolEq n.label n.children) := by
  have htop : MergedAndOrdered (children.map foldRecursion) ↔ MergedAndOrdered children := by
    unfold MergedAndOrdered
    rw [List.pairwise_map]
    simp only [foldRecursion_eq, label_node]
  rw [htop]
  apply and_congr_right'
  clear htop
  induction children with
  | nil => simp
  | cons t ts ih =>
      obtain ⟨data, below⟩ := t
      have hfold : (MergedAndOrdered (collapse symbolEq data below) ∧
            ∀ n ∈ nodes (collapse symbolEq data below), MergedAndOrdered n.children) ↔
          MergedAndOrdered (pull symbolEq data below) ∧
            ∀ n ∈ nodes below, MergedAndOrdered (pull symbolEq n.label n.children) :=
        pairwise_siblings_collapse symbolEq_trans data below
      rw [List.map_cons, foldRecursion_eq, forall_nodes_cons, forall_nodes_cons, label_node,
        children_node, children_node, ← and_assoc, hfold, ih, and_assoc]

/-- The nodes a node of the flame tree pulls up, seen in the symbol tree. -/
theorem mergedAndOrdered_pull_iff (table : StringInterner) (n : Rose (SymbolKey × Acc)) :
    MergedAndOrdered (pull symbolEq (flameData table n.label)
        (mapForest (flameData table) n.children)) ↔
      (walkForest n.children).Pairwise fun u v =>
        surfaces (recursive table) n.label u.1 = true →
        surfaces (recursive table) n.label v.1 = true →
          WirePrecedes table u.2.label v.2.label := by
  unfold MergedAndOrdered
  rw [pairwise_pull_iff, walkForest_mapForest, List.pairwise_map]
  simp only [surfaces_map, label_map]
  exact Iff.rfl

/-- The published siblings are merged and ordered, at every node, exactly when the symbol tree folds
in order. -/
theorem published_siblings_iff (aggregation : Aggregation) (binaries : BinaryRegistry) :
    (∀ n ∈ nodes [(computeFlameUpdate aggregation binaries).root], MergedAndOrdered n.children) ↔
      FoldsInOrder (nameTable (quotient binaries aggregation.flameRoot.children))
        (quotient binaries aggregation.flameRoot.children) := by
  have hbuilt := built_root binaries aggregation.flameRoot
  have hroot : (computeFlameUpdate aggregation binaries).root.children =
      (buildChildren binaries [aggregation.flameRoot.children] {}).1.map foldRecursion := rfl
  have hlabels := hbuilt.labels _ (StringInterner.Extends.refl _)
  rw [interner_root] at hlabels
  generalize nameTable (quotient binaries aggregation.flameRoot.children) = table at hlabels ⊢
  have htop : MergedAndOrdered
        (mapForest (flameData table) (quotient binaries aggregation.flameRoot.children)) ↔
      (quotient binaries aggregation.flameRoot.children).Pairwise fun m n =>
        wireSymbol table m.label.1 ≠ wireSymbol table n.label.1 := by
    unfold MergedAndOrdered
    rw [mapForest_eq_map, List.pairwise_map]
    simp only [label_map]
    constructor
    · intro h
      exact h.imp And.left
    · intro h
      exact h.and (quotient_longestFirst binaries _)
  rw [← node_eta (computeFlameUpdate aggregation binaries).root, forall_nodes_cons, children_node,
    hroot, nodes_nil, ← and_assoc, mergedAndOrdered_folded_iff, hlabels, htop, nodes_mapForest,
    List.forall_mem_map]
  simp only [label_map, children_map, mergedAndOrdered_pull_iff, List.not_mem_nil, false_imp_iff,
    implies_true, and_true]
  exact Iff.rfl

/-- `f` spends 20: 8 in a recursive call that spends 3 in `g`, and 7 in `g` itself. -/
def sharedCallee : StackNode where
  children := [node (0xa0, { onCpuNs := toU64 20 })
    [node (0xa1, { onCpuNs := toU64 8 }) [node (0xb0, { onCpuNs := toU64 3 }) []],
      node (0xb0, { onCpuNs := toU64 7 }) []]]

/-- `f` publishes `g` twice, the shorter one first. -/
theorem sharedCallee_not_mergedAndOrdered :
    ¬ ∀ n ∈ nodes [(computeFlameUpdate { flameRoot := sharedCallee, totalOnCpuNs := toU64 20 } callSites).root],
      MergedAndOrdered n.children := by
  decide +kernel

end Stax.Live
