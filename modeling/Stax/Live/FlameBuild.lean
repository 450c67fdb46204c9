/-
# Stax.Live.FlameBuild — building the flame tree without cache and string table.

`quotient` is the tree of groups that `buildChildren` builds when the cache and the string table are
left out: level by level, one node for each symbol.  The cache only ever answers what the registry
would, and an index once given stays, so what `buildChildren` returns is `quotient` with the names
replaced by their indices in the final table.  The table holds the names of the groups and no string
twice.
-/
import Stax.Live.Flame

namespace Stax.Live

open Stax.Lib Stax.Lib.Rose

/-! ## Groups -/

/-- A child with what its address resolves to. -/
def withSymbol (binaries : BinaryRegistry) (child : Rose (Addr × Counters)) : Child :=
  (child, Resolved.of (binaries child.label.1))

/-- The symbol of a tree entry. -/
def keyOf (binaries : BinaryRegistry) (entry : Addr × Counters) : SymbolKey :=
  (Resolved.of (binaries entry.1)).key

/-- The groups of a list of children. -/
def groupsOf (binaries : BinaryRegistry) (children : List (Rose (Addr × Counters))) :
    List (SymbolKey × Acc) :=
  Grouping.group Child.key Acc.new Acc.add (children.map (withSymbol binaries))

/-- The children with a symbol. -/
def membersOf (binaries : BinaryRegistry) (key : SymbolKey)
    (children : List (Rose (Addr × Counters))) : List (Rose (Addr × Counters)) :=
  Grouping.members (fun child => keyOf binaries child.label) key children

/-- The cache answers as the registry does. -/
def CacheSound (binaries : BinaryRegistry) (cache : Addr → Option ResolvedSymbol) : Prop :=
  ∀ addr r, cache addr = some r → binaries addr = some r

section Groups

variable {binaries : BinaryRegistry}

/-- The cache of symbols answers as the registry does. -/
theorem resolve_sound {cache : Addr → Option ResolvedSymbol} (h : CacheSound binaries cache)
    (addr : Addr) :
    (resolve cache binaries addr).1 = binaries addr ∧
      CacheSound binaries (resolve cache binaries addr).2 := by
  unfold resolve
  cases hcache : cache addr with
  | some r => exact ⟨(h addr r hcache).symm, h⟩
  | none =>
      cases hlookup : binaries addr with
      | none => exact ⟨rfl, h⟩
      | some r =>
          refine ⟨rfl, ?_⟩
          intro a q hq
          rcases eq_or_ne a addr with rfl | hne
          · have hsame : Function.update cache a (some r) a = some q := hq
            rw [Function.update_self] at hsame
            exact hlookup.trans hsame
          · have hold : Function.update cache addr (some r) a = some q := hq
            rw [Function.update_of_ne hne] at hold
            exact h a q hold

/-- With a sound cache the loop over the children groups them by what the registry answers. -/
theorem groupChildren_eq {cache : Addr → Option ResolvedSymbol} (h : CacheSound binaries cache)
    (sources : List (Trie Addr Counters)) :
    (groupChildren binaries cache sources).1 = groupsOf binaries sources.flatten ∧
      CacheSound binaries (groupChildren binaries cache sources).2 := by
  have hloop (children : List (Rose (Addr × Counters)))
      (st : List (SymbolKey × Acc) × (Addr → Option ResolvedSymbol))
      (hst : CacheSound binaries st.2) :
      (children.foldl (groupChild binaries) st).1 =
        (children.map (withSymbol binaries)).foldl (fun groups child =>
          Grouping.upsert child.key (Acc.new child) (fun acc => acc.add child) groups) st.1 ∧
        CacheSound binaries (children.foldl (groupChild binaries) st).2 := by
    induction children generalizing st with
    | nil => exact ⟨rfl, hst⟩
    | cons child children ih =>
        obtain ⟨hanswer, hsound⟩ := resolve_sound hst child.label.1
        have hstep : (groupChild binaries st child).1 =
            Grouping.upsert (withSymbol binaries child).key (Acc.new (withSymbol binaries child))
              (fun acc => acc.add (withSymbol binaries child)) st.1 := by
          unfold withSymbol
          rw [← hanswer]
          rfl
        rw [List.foldl_cons, List.map_cons, List.foldl_cons, ← hstep]
        exact ih (groupChild binaries st child) hsound
  unfold groupChildren
  rw [← List.foldl_flatten]
  exact hloop sources.flatten ([], cache) h

theorem nodup_groupsOf (children : List (Rose (Addr × Counters))) :
    ((groupsOf binaries children).map Prod.fst).Nodup :=
  Grouping.nodup_group _

theorem members_withSymbol (key : SymbolKey) (children : List (Rose (Addr × Counters))) :
    Grouping.members Child.key key (children.map (withSymbol binaries)) =
      (membersOf binaries key children).map (withSymbol binaries) := by
  unfold membersOf Grouping.members
  rw [List.filter_map]
  rfl

/-- A sum that grows by `w` with each child a group takes in is the sum of `w` over its members. -/
theorem acc_sum {M : Type*} [AddCommMonoid M] {g : Acc → M} {w : Rose (Addr × Counters) → M}
    (hnew : ∀ child, g (Acc.new child) = 0)
    (hadd : ∀ acc child, g (acc.add child) = g acc + w child.1) {key : SymbolKey} {acc : Acc}
    {children : List (Rose (Addr × Counters))} (h : (key, acc) ∈ groupsOf binaries children) :
    g acc = ((membersOf binaries key children).map w).sum := by
  obtain ⟨first, rest, hmembers, hacc⟩ := Grouping.mem_group.mp h
  have hfold (cs : List Child) (acc : Acc) :
      g (cs.foldl Acc.add acc) = g acc + (cs.map fun c => w c.1).sum := by
    induction cs generalizing acc with
    | nil => simp
    | cons c cs ih => rw [List.foldl_cons, ih, hadd, List.map_cons, List.sum_cons, add_assoc]
  dsimp only at hmembers hacc
  rw [hacc, hfold, hnew, zero_add, ← hmembers, members_withSymbol, List.map_map]
  rfl

/-- A group's counters are the sum of its members'. -/
theorem counters_eq_sum {key : SymbolKey} {acc : Acc} {children : List (Rose (Addr × Counters))}
    (h : (key, acc) ∈ groupsOf binaries children) :
    acc.counters = ((membersOf binaries key children).map fun child => child.label.2).sum := by
  refine acc_sum (g := Acc.counters) (fun child => rfl) (fun acc child => ?_) h
  unfold Acc.add
  dsimp only
  split <;> rfl

theorem subSources_eq {key : SymbolKey} {acc : Acc} {children : List (Rose (Addr × Counters))}
    (h : (key, acc) ∈ groupsOf binaries children) :
    acc.subSources = (membersOf binaries key children).map Rose.children := by
  obtain ⟨first, rest, hmembers, hacc⟩ := Grouping.mem_group.mp h
  have hfold (cs : List Child) (acc : Acc) :
      (cs.foldl Acc.add acc).subSources = acc.subSources ++ cs.map fun c => c.1.children := by
    induction cs generalizing acc with
    | nil => simp
    | cons c cs ih => rw [List.foldl_cons, ih, subSources_add]; simp
  dsimp only at hmembers hacc
  rw [hacc, hfold, ← hmembers, members_withSymbol, List.map_map]
  rfl

end Groups

/-! ## The quotient -/

theorem sortEntries_perm (entries : List (SymbolKey × Acc)) :
    (sortEntries entries).Perm entries :=
  List.perm_insertionSort _ entries

theorem mem_sortEntries {entries : List (SymbolKey × Acc)} {e : SymbolKey × Acc} :
    e ∈ sortEntries entries ↔ e ∈ entries :=
  (sortEntries_perm entries).mem_iff

/-- The children a group hands on to the next level. -/
def Acc.below (self : Acc) : List (Rose (Addr × Counters)) := self.subSources.flatten

theorem sizeForest_flatten (sources : List (Trie Addr Counters)) :
    sizeForest sources.flatten = sourcesSize sources := by
  unfold sourcesSize
  induction sources with
  | nil => exact sizeForest_nil
  | cons source sources ih =>
      rw [List.flatten_cons, sizeForest_append, List.map_cons, List.sum_cons, ih]

/-- A group hands on less than it was found in. -/
theorem sizeForest_below_lt {binaries : BinaryRegistry} {children : List (Rose (Addr × Counters))}
    {e : SymbolKey × Acc} (h : e ∈ groupsOf binaries children) :
    sizeForest e.2.below < sizeForest children := by
  have hsound : CacheSound binaries fun _ => none := by
    intro addr r hr
    cases hr
  have hle := entriesSize_groupChildren_le binaries (fun _ => none) [children]
  rw [(groupChildren_eq hsound [children]).1, ← sizeForest_flatten, List.flatten_singleton] at hle
  have hone : 1 + sourcesSize e.2.subSources ≤ entriesSize (groupsOf binaries children) :=
    List.single_le_sum (fun _ _ => Nat.zero_le _) _
      (List.mem_map_of_mem (f := fun e => 1 + sourcesSize e.2.subSources) h)
  rw [Acc.below, sizeForest_flatten]
  omega

/-- The tree of groups, longest siblings first. -/
def quotient (binaries : BinaryRegistry) (children : List (Rose (Addr × Counters))) :
    List (Rose (SymbolKey × Acc)) :=
  (sortEntries (groupsOf binaries children)).attach.map fun e =>
    node e.1 (quotient binaries e.1.2.below)
termination_by sizeForest children
decreasing_by exact sizeForest_below_lt (mem_sortEntries.mp e.2)

theorem quotient_eq (binaries : BinaryRegistry) (children : List (Rose (Addr × Counters))) :
    quotient binaries children =
      (sortEntries (groupsOf binaries children)).map fun e =>
        node e (quotient binaries e.2.below) := by
  rw [quotient]
  exact List.attach_map_val (f := fun e => node e (quotient binaries e.2.below))

/-- What holds of a list of children when it holds of what its groups hand on holds of all. -/
theorem groups_induction (binaries : BinaryRegistry)
    {P : List (Rose (Addr × Counters)) → Prop}
    (step : ∀ children, (∀ e ∈ groupsOf binaries children, P e.2.below) → P children)
    (children : List (Rose (Addr × Counters))) : P children := by
  induction hsize : sizeForest children using Nat.strong_induction_on generalizing children with
  | _ n ih =>
      refine step children fun e he => ih (sizeForest e.2.below) ?_ e.2.below rfl
      rw [← hsize]
      exact sizeForest_below_lt he

/-! ## The names -/

/-- The strings sent for what an address resolves to. -/
def Resolved.names (self : Resolved) : List String :=
  self.key.1.toList ++ self.key.2.toList ++ [self.language.asStr]

/-- The strings a group's node sends. -/
def namesOf (e : SymbolKey × Acc) : List String :=
  Resolved.names ⟨e.1, e.2.isMain, e.2.language⟩

/-- A group's node by the indices of a table. -/
def flameData (interner : StringInterner) (e : SymbolKey × Acc) : FlameData where
  address := e.2.repAddr
  functionName := e.1.1.bind interner.index
  binary := e.1.2.bind interner.index
  isMain := e.2.isMain
  language := (interner.index e.2.language.asStr).getD 0
  counters := e.2.counters

/-- What a step that builds the nodes of `groups` does to the state: the cache stays sound, the
table gains the names of the groups, and the nodes are the groups by the indices of any later
table. -/
structure Built (binaries : BinaryRegistry) (groups : List (Rose (SymbolKey × Acc)))
    (st : BuildState) (result : List FlameNode × BuildState) : Prop where
  cache : CacheSound binaries result.2.symbolCache
  wf : result.2.interner.WF
  grows : st.interner.Extends result.2.interner
  strings : ∀ s, s ∈ result.2.interner.strings ↔
    s ∈ st.interner.strings ∨ ∃ n ∈ nodes groups, s ∈ namesOf n.label
  labels : ∀ later, result.2.interner.Extends later →
    result.1 = mapForest (flameData later) groups

/-- Interning a group's names. -/
theorem internData_spec {interner : StringInterner} (h : interner.WF) (key : SymbolKey)
    (acc : Acc) :
    (interner.internData key acc).2.WF ∧
      interner.Extends (interner.internData key acc).2 ∧
      (∀ s, s ∈ (interner.internData key acc).2.strings ↔
        s ∈ interner.strings ∨ s ∈ namesOf (key, acc)) ∧
      ∀ later, (interner.internData key acc).2.Extends later →
        (interner.internData key acc).1 = flameData later (key, acc) := by
  obtain ⟨functionName, binary⟩ := key
  set a := interner.internOpt functionName with ha
  set b := a.2.internOpt binary with hb
  set c := b.2.intern acc.language.asStr with hc
  have hwfa : a.2.WF := h.internOpt functionName
  have hwfb : b.2.WF := hwfa.internOpt binary
  have hgrowb : b.2.Extends c.2 := StringInterner.extends_intern b.2 _
  have hgrowa : a.2.Extends c.2 := (StringInterner.extends_internOpt a.2 binary).trans hgrowb
  have hdata : interner.internData (functionName, binary) acc =
      ({ address := acc.repAddr, functionName := a.1, binary := b.1, isMain := acc.isMain,
         language := c.1, counters := acc.counters }, c.2) := rfl
  rw [hdata]
  refine ⟨hwfb.intern _, ?_, fun s => ?_, fun later hlater => ?_⟩
  · exact (StringInterner.extends_internOpt interner functionName).trans hgrowa
  · show s ∈ c.2.strings ↔ _
    rw [hwfb.mem_strings_intern, hwfa.mem_strings_internOpt, h.mem_strings_internOpt, namesOf,
      Resolved.names]
    simp [or_assoc]
  · have hlanguage : later.index acc.language.asStr = some c.1 :=
      hlater _ _ (StringInterner.index_intern b.2 _)
    show FlameData.mk _ a.1 b.1 _ c.1 _ = FlameData.mk _ _ _ _ _ _
    rw [StringInterner.internOpt_eq_bind interner functionName (hgrowa.trans hlater),
      StringInterner.internOpt_eq_bind a.2 binary (hgrowb.trans hlater), hlanguage]
    rfl

theorem Built.nil {binaries : BinaryRegistry} {st : BuildState}
    (hcache : CacheSound binaries st.symbolCache) (hwf : st.interner.WF) :
    Built binaries [] st ([], st) :=
  ⟨hcache, hwf, StringInterner.Extends.refl _, fun s => by simp, fun later _ => by simp⟩

/-- One node more: the children of the group, then its own names, then the other groups. -/
theorem Built.cons {binaries : BinaryRegistry} {st : BuildState} {key : SymbolKey} {acc : Acc}
    {below rest : List (Rose (SymbolKey × Acc))} {children : List FlameNode × BuildState}
    {visible : List FlameNode × BuildState} (hchildren : Built binaries below st children)
    (hrest : Built binaries rest
      { children.2 with interner := (children.2.interner.internData key acc).2 } visible) :
    Built binaries (node (key, acc) below :: rest) st
      (node (children.2.interner.internData key acc).1 children.1 :: visible.1, visible.2) := by
  obtain ⟨hwf, hgrow, hstrings, hdata⟩ := internData_spec hchildren.wf key acc
  refine ⟨hrest.cache, hrest.wf, hchildren.grows.trans (hgrow.trans hrest.grows), fun s => ?_,
    fun later hlater => ?_⟩
  · show s ∈ visible.2.interner.strings ↔ _
    rw [hrest.strings, hstrings, hchildren.strings, exists_nodes_cons, label_node, or_assoc,
      or_assoc]
    exact or_congr_right or_left_comm
  · rw [mapForest_cons, ← hrest.labels later hlater,
      ← hchildren.labels later (hgrow.trans (hrest.grows.trans hlater)),
      ← hdata later (hrest.grows.trans hlater)]

/-- `buildChildren` returns the quotient of its sources by the indices of its table. -/
theorem built_buildChildren (binaries : BinaryRegistry) (sources : List (Trie Addr Counters))
    (st : BuildState) (hcache : CacheSound binaries st.symbolCache) (hwf : st.interner.WF) :
    Built binaries (quotient binaries sources.flatten) st (buildChildren binaries sources st) := by
  refine (buildChildren.mutual_induct binaries
    (fun sources st => CacheSound binaries st.symbolCache → st.interner.WF →
      Built binaries (quotient binaries sources.flatten) st (buildChildren binaries sources st))
    (fun entries st => CacheSound binaries st.symbolCache → st.interner.WF →
      Built binaries (entries.map fun e => node e (quotient binaries e.2.below)) st
        (buildNodes binaries entries st))
    ?_ ?_ ?_).1 sources st hcache hwf
  · intro sources st ih hcache hwf
    obtain ⟨hgroups, hsound⟩ := groupChildren_eq hcache sources
    have hbuilt := ih hsound hwf
    rw [buildChildren, quotient_eq, ← hgroups]
    exact ⟨hbuilt.cache, hbuilt.wf, hbuilt.grows, hbuilt.strings, hbuilt.labels⟩
  · intro st hcache hwf
    rw [buildNodes]
    exact Built.nil hcache hwf
  · intro key acc entries st _ st' hchildren data interner hdata _ _ _ ihchildren ihrest hcache hwf
    have hbuilt := ihchildren hcache hwf
    rw [hchildren] at hbuilt
    have hintern := internData_spec hbuilt.wf key acc
    have hnames : interner = (st'.interner.internData key acc).2 := by
      rw [hdata]
    have hrest := ihrest hbuilt.cache (by rw [hnames]; exact hintern.1)
    rw [buildNodes, hchildren, List.map_cons]
    rw [hnames] at hrest
    exact hbuilt.cons hrest

/-- The tree of a stack tree, built from nothing. -/
theorem built_root (binaries : BinaryRegistry) (root : StackNode) :
    Built binaries (quotient binaries root.children) {}
      (buildChildren binaries [root.children] {}) := by
  have hsound : CacheSound binaries ({} : BuildState).symbolCache := by
    intro addr r hr
    cases hr
  have hbuilt := built_buildChildren binaries [root.children] {} hsound StringInterner.wf_new
  rw [List.flatten_singleton] at hbuilt
  exact hbuilt

end Stax.Live
