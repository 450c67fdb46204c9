/-
# Stax.Live.FlameQuotient — the flame tree is the symbol quotient of the address tree.

What the tree of groups holds at a path of symbols is the sum over the address paths that resolve to
it: there is one node where there is such a path and none elsewhere, and its counters are the
saturating sums.  Siblings are distinct, and reading a node's indices back from the string table
gives what the node's address resolves to, as long as the table has no more strings than there are
`u32` indices.
-/
import Stax.Live.FlameBuild

namespace Stax.Live

open Stax.Lib Stax.Lib.Rose

/-! ## Sums at a path of symbols -/

section Sums

variable {binaries : BinaryRegistry}

/-- Where every group carries the sum of its members, the tree carries at each path of symbols the
sum over the address paths that resolve to it. -/
theorem pathSum_quotient {M : Type*} [AddCommMonoid M] {g : SymbolKey × Acc → M}
    {w : Addr × Counters → M}
    (hgroup : ∀ children, ∀ e ∈ groupsOf binaries children,
      g e = ((membersOf binaries e.1 children).map fun child => w child.label).sum)
    (p : List SymbolKey) (children : List (Rose (Addr × Counters))) :
    pathSum (atKeys Prod.fst p) (fun n => g n.label) (quotient binaries children) =
      pathSum (atKeys (keyOf binaries) p) (fun n => w n.label) children := by
  induction children using groups_induction binaries generalizing p with
  | step children ih =>
      cases p with
      | nil => rw [pathSum_atKeys_nil, pathSum_atKeys_nil]
      | cons k ks =>
          -- what the children with symbol `k` carry
          set z := ((membersOf binaries k children).map fun child =>
            (if ks = [] then w child.label else 0) +
              pathSum (atKeys (keyOf binaries) ks) (fun n => w n.label) child.children).sum with hz
          have hgroups : ∀ e ∈ groupsOf binaries children,
              (if e.1 = k then (if ks = [] then g e else 0) +
                pathSum (atKeys Prod.fst ks) (fun n => g n.label) (quotient binaries e.2.below)
              else 0) = if e.1 = k then z else 0 := by
            intro e he
            refine if_ctx_congr Iff.rfl (fun hk => ?_) fun _ => rfl
            obtain ⟨key, acc⟩ := e
            obtain rfl : key = k := hk
            rw [ih (key, acc) he, hgroup children (key, acc) he, hz, List.sum_map_add]
            congr 1
            · split
              · rfl
              · simp
            · show pathSum _ _ acc.subSources.flatten = _
              rw [subSources_eq he]
              induction membersOf binaries key children with
              | nil => exact pathSum_nil _ _
              | cons child members ihm =>
                  rw [List.map_cons, List.flatten_cons, pathSum_append, ihm, List.map_cons,
                    List.sum_cons]
          have hkey : k ∉ (groupsOf binaries children).map Prod.fst → z = 0 := by
            intro hnot
            have hnone : membersOf binaries k children = [] := by
              have hmembers := not_not.mp (mt Grouping.mem_keys_group.mpr hnot)
              rw [members_withSymbol, List.map_eq_nil_iff] at hmembers
              exact hmembers
            rw [hz, hnone]
            rfl
          rw [pathSum_atKeys_cons, quotient_eq, List.map_map,
            ((sortEntries_perm _).map _).sum_eq]
          refine (congrArg List.sum (List.map_congr_left hgroups)).trans ?_
          rw [Grouping.sum_ite_key (nodup_groupsOf children), pathSum_atKeys_cons]
          have hmembers : z = (children.map fun child => if keyOf binaries child.label = k then
              (if ks = [] then w child.label else 0) +
                pathSum (atKeys (keyOf binaries) ks) (fun n => w n.label) child.children
              else 0).sum :=
            Grouping.sum_members_eq k _ children
          rw [← hmembers]
          split
          · rfl
          · rename_i hnot
            exact (hkey hnot).symm

/-- Siblings have distinct symbols. -/
theorem siblingsDistinct_quotient (children : List (Rose (Addr × Counters))) :
    SiblingsDistinct Prod.fst (quotient binaries children) := by
  induction children using groups_induction binaries with
  | step children ih =>
      rw [siblingsDistinct_iff, quotient_eq]
      constructor
      · rw [List.map_map]
        exact ((sortEntries_perm _).map _).nodup_iff.mpr (nodup_groupsOf children)
      · intro t ht
        obtain ⟨e, he, rfl⟩ := List.mem_map.mp ht
        exact ih e (mem_sortEntries.mp he)

/-- There is one node at every path of symbols that an address path resolves to, and none at the
others. -/
theorem count_quotient (p : List SymbolKey) (children : List (Rose (Addr × Counters))) :
    pathSum (atKeys Prod.fst p) (fun _ => 1) (quotient binaries children) =
      min 1 (pathSum (atKeys (keyOf binaries) p) (fun _ => 1) children) := by
  have hone : ∀ n : ℕ, (Sat.ofNat 1 n).val = min 1 n := fun n => Nat.min_comm n 1
  have hcount {α : Type} (q : List α → Bool) (f : List (Rose α)) :
      Sat.ofNat 1 (pathSum q (fun _ => 1) f) = pathSum q (fun _ => Sat.ofNat 1 1) f := by
    have hhom := map_list_sum (Sat.ofNatHom 1)
      (((walkForest f).filter fun n => q n.1).map fun _ => 1)
    rw [List.map_map] at hhom
    exact hhom
  -- counted up to one, a group counts as much as its members
  have hgroup : ∀ children, ∀ e ∈ groupsOf binaries children,
      Sat.ofNat 1 1 = ((membersOf binaries e.1 children).map fun _ => Sat.ofNat 1 1).sum := by
    intro children e he
    obtain ⟨first, rest, hmembers, -⟩ := Grouping.mem_group.mp he
    rw [members_withSymbol] at hmembers
    have hlength : 1 ≤ (membersOf binaries e.1 children).length := by
      rw [← List.length_map (f := withSymbol binaries), hmembers, List.length_cons]
      omega
    have hhom := map_list_sum (Sat.ofNatHom 1) ((membersOf binaries e.1 children).map fun _ => 1)
    rw [List.map_map, List.map_const', List.sum_replicate, smul_eq_mul, mul_one] at hhom
    refine Eq.trans ?_ hhom
    rw [Sat.ofNatHom_apply, Sat.ext_iff, hone, hone]
    omega
  have hsat := pathSum_quotient (g := fun _ => Sat.ofNat 1 1) (w := fun _ => Sat.ofNat 1 1) hgroup p
    children
  rw [← hcount, ← hcount, Sat.ext_iff, hone, hone] at hsat
  rw [← hsat]
  exact (min_eq_right (count_atKeys_le_one _ (siblingsDistinct_quotient children) p)).symm

/-- The representative of a group is one of its members, and resolves to what the group shows. -/
theorem exists_representative {e : SymbolKey × Acc} {children : List (Rose (Addr × Counters))}
    (h : e ∈ groupsOf binaries children) :
    ∃ child ∈ children, e.2.repAddr = child.label.1 ∧
      Resolved.of (binaries child.label.1) = ⟨e.1, e.2.isMain, e.2.language⟩ := by
  obtain ⟨first, rest, hmembers, hacc⟩ := Grouping.mem_group.mp h
  have hmem : ∀ c ∈ first :: rest, ∃ child ∈ children, c = withSymbol binaries child ∧
      c.key = e.1 := by
    intro c hc
    rw [← hmembers] at hc
    obtain ⟨hc, hkey⟩ := List.mem_filter.mp hc
    obtain ⟨child, hchild, rfl⟩ := List.mem_map.mp hc
    exact ⟨child, hchild, rfl, of_decide_eq_true hkey⟩
  -- every addition either keeps the representative or takes the child just added
  have hfold (cs : List Child) (acc : Acc) (hcs : cs ⊆ first :: rest)
      (hacc : ∃ c ∈ first :: rest, acc.repAddr = c.1.label.1 ∧ acc.isMain = c.2.isMain ∧
        acc.language = c.2.language) :
      ∃ c ∈ first :: rest, (cs.foldl Acc.add acc).repAddr = c.1.label.1 ∧
        (cs.foldl Acc.add acc).isMain = c.2.isMain ∧
        (cs.foldl Acc.add acc).language = c.2.language := by
    induction cs generalizing acc with
    | nil => exact hacc
    | cons c cs ih =>
        rw [List.cons_subset] at hcs
        refine ih (acc.add c) hcs.2 ?_
        unfold Acc.add
        dsimp only
        split
        · exact ⟨c, hcs.1, rfl, rfl, rfl⟩
        · exact hacc
  obtain ⟨c, hc, haddr, hmain, hlanguage⟩ := hfold (first :: rest) (Acc.new first)
    (List.Subset.refl _) ⟨first, List.mem_cons_self, rfl, rfl, rfl⟩
  obtain ⟨child, hchild, rfl, hkey⟩ := hmem c hc
  rw [← hacc] at haddr hmain hlanguage
  refine ⟨child, hchild, haddr, ?_⟩
  rw [hmain, hlanguage, ← hkey]
  rfl

theorem mem_nodes_below {e : SymbolKey × Acc} {children : List (Rose (Addr × Counters))}
    (h : e ∈ groupsOf binaries children) {n : Rose (Addr × Counters)} (hn : n ∈ nodes e.2.below) :
    n ∈ nodes children := by
  obtain ⟨key, acc⟩ := e
  have hbelow : acc.subSources = (membersOf binaries key children).map Rose.children :=
    subSources_eq h
  obtain ⟨t, ht, hnt⟩ := mem_nodes_iff.mp hn
  obtain ⟨source, hsource, ht⟩ := List.mem_flatten.mp ht
  rw [hbelow] at hsource
  obtain ⟨child, hchild, rfl⟩ := List.mem_map.mp hsource
  refine mem_nodes_iff.mpr ⟨child, (List.mem_filter.mp hchild).1, Or.inr ?_⟩
  exact mem_nodes_iff.mpr ⟨t, ht, hnt⟩

/-- Every node of the quotient shows what the address it carries resolves to, and that address
occurs in the tree. -/
theorem representative_quotient {children : List (Rose (Addr × Counters))}
    {n : Rose (SymbolKey × Acc)} (hn : n ∈ nodes (quotient binaries children)) :
    ∃ m ∈ nodes children, n.label.2.repAddr = m.label.1 ∧
      Resolved.of (binaries m.label.1) =
        ⟨n.label.1, n.label.2.isMain, n.label.2.language⟩ := by
  induction children using groups_induction binaries with
  | step children ih =>
      rw [quotient_eq] at hn
      obtain ⟨t, ht, hn⟩ := mem_nodes_iff.mp hn
      obtain ⟨e, he, rfl⟩ := List.mem_map.mp ht
      have he := mem_sortEntries.mp he
      rcases hn with rfl | hn
      · obtain ⟨child, hchild, hrep⟩ := exists_representative he
        exact ⟨child, mem_nodes_self hchild, hrep⟩
      · obtain ⟨m, hm, hrep⟩ := ih e he hn
        exact ⟨m, mem_nodes_below he hm, hrep⟩

end Sums

/-! ## Reading the table -/

/-- The symbol of a node, its indices read from a string table. -/
def FlameData.key (strings : List String) (d : FlameData) : SymbolKey :=
  (d.functionName.bind fun i => strings[i.toNat]?, d.binary.bind fun i => strings[i.toNat]?)

/-- The indices of a node are in the table and read the names of `r`. -/
def FlameData.Reads (strings : List String) (d : FlameData) (r : Resolved) : Prop :=
  d.functionName.map (fun i => strings[i.toNat]?) = r.key.1.map some ∧
  d.binary.map (fun i => strings[i.toNat]?) = r.key.2.map some ∧
  strings[d.language.toNat]? = some r.language.asStr

theorem FlameData.Reads.key_eq {strings : List String} {d : FlameData} {r : Resolved}
    (h : d.Reads strings r) : d.key strings = r.key := by
  have hread (i : Option UInt32) (s : Option String)
      (his : i.map (fun i => strings[i.toNat]?) = s.map some) :
      (i.bind fun i => strings[i.toNat]?) = s := by
    cases i with
    | none =>
        rw [Option.map_none, eq_comm, Option.map_eq_none_iff] at his
        exact his.symm
    | some i =>
        cases s with
        | none => cases his
        | some s => exact Option.some.inj his
  exact Prod.ext (hread _ _ h.1) (hread _ _ h.2.1)

/-- Every string the tree's addresses resolve to. -/
def tableNames (binaries : BinaryRegistry) (children : List (Rose (Addr × Counters))) :
    List String :=
  (nodes children).flatMap fun n => (Resolved.of (binaries n.label.1)).names

/-- The table is as large as the tree has distinct names. -/
theorem fits_root {binaries : BinaryRegistry} {root : StackNode}
    (h : (tableNames binaries root.children).toFinset.card ≤ 2 ^ 32) :
    (buildChildren binaries [root.children] {}).2.interner.Fits := by
  have hbuilt := built_root binaries root
  rw [StringInterner.Fits, ← List.toFinset_card_of_nodup hbuilt.wf.nodup]
  refine (Finset.card_le_card fun s hs => ?_).trans h
  rw [List.mem_toFinset] at hs ⊢
  rcases (hbuilt.strings s).mp hs with hs | ⟨n, hn, hs⟩
  · cases hs
  · obtain ⟨m, hm, -, hresolved⟩ := representative_quotient hn
    refine List.mem_flatMap.mpr ⟨m, hm, ?_⟩
    rw [hresolved]
    exact hs

section Reading

variable {binaries : BinaryRegistry} {groups : List (Rose (SymbolKey × Acc))}
  {result : List FlameNode × BuildState}

/-- A group's node reads back what the group shows, from a table that has its names. -/
theorem reads_flameData {table : StringInterner} (h : table.WF) (hfits : table.Fits)
    {e : SymbolKey × Acc} (hnames : ∀ s ∈ namesOf e, s ∈ table.strings) :
    (flameData table e).Reads table.strings ⟨e.1, e.2.isMain, e.2.language⟩ := by
  have hread (s : String) (hs : s ∈ namesOf e) :
      ∃ i, table.index s = some i ∧ table.strings[i.toNat]? = some s := by
    cases hindex : table.index s with
    | none => exact absurd (hnames s hs) (h.index_eq_none_iff.mp hindex)
    | some i => exact ⟨i, rfl, h.read hfits hindex⟩
  have hopt (s : Option String) (hs : ∀ t ∈ s, t ∈ namesOf e) :
      (s.bind table.index).map (fun i => table.strings[i.toNat]?) = s.map some := by
    cases s with
    | none => rfl
    | some s =>
        obtain ⟨i, hindex, hstring⟩ := hread s (hs s rfl)
        show (table.index s).map _ = _
        rw [hindex, Option.map_some, hstring]
        rfl
  refine ⟨hopt _ fun t ht => ?_, hopt _ fun t ht => ?_, ?_⟩
  · simp [namesOf, Resolved.names, Option.mem_toList.mpr ht]
  · simp [namesOf, Resolved.names, Option.mem_toList.mpr ht]
  · obtain ⟨i, hindex, hstring⟩ := hread e.2.language.asStr (by simp [namesOf, Resolved.names])
    show table.strings[((table.index _).getD 0).toNat]? = _
    rw [hindex]
    exact hstring

theorem Built.reads (h : Built binaries groups {} result) (hfits : result.2.interner.Fits)
    {n : Rose (SymbolKey × Acc)} (hn : n ∈ nodes groups) :
    (flameData result.2.interner n.label).Reads result.2.interner.strings
      ⟨n.label.1, n.label.2.isMain, n.label.2.language⟩ :=
  reads_flameData h.wf hfits fun s hs => (h.strings s).mpr (Or.inr ⟨n, hn, hs⟩)

end Reading

/-! ## The flame tree -/

/-- The list `buildChildren` returns for a tree's root is the symbol quotient of the tree: there is
one node at every path of symbols some address path resolves to and none elsewhere; each counter of
it is the saturating sum over the address paths that resolve to its path; siblings have distinct
symbols; and the indices of every node read back what its address resolves to, from a table without
duplicates. -/
structure IsQuotient (root : StackNode) (binaries : BinaryRegistry)
    (built : List FlameNode) (strings : List String) : Prop where
  nodes : ∀ p, pathSum (atKeys (FlameData.key strings) p) (fun _ => 1) built =
    min 1 (pathSum (atKeys (keyOf binaries) p) (fun _ => 1) root.children)
  counters : ∀ n ∈ walkForest built, ∀ k, (n.2.label.counters.get k).val =
    min (pathSum (atKeys (keyOf binaries) (n.1.map (FlameData.key strings)))
      (fun m => (m.label.2.get k).val) root.children) u64Max
  siblings : SiblingsDistinct (FlameData.key strings) built
  reads : ∀ n ∈ Rose.nodes built, n.label.Reads strings (Resolved.of (binaries n.label.address))
  table : strings.Nodup

/-- A counter of a saturating sum is the sum of the counters, cut to a `u64`. -/
theorem get_pathSum (q : List (Addr × Counters) → Bool) (k : Counter)
    (f : List (Rose (Addr × Counters))) :
    ((pathSum q (fun m => m.label.2) f).get k).val =
      min (pathSum q (fun m => (m.label.2.get k).val) f) u64Max := by
  have hget := map_list_sum (Counters.getHom k)
    (((walkForest f).filter fun n => q n.1).map fun n => n.2.label.2)
  rw [List.map_map] at hget
  have hval := congrArg Sat.val hget
  rw [Sat.val_sum, List.map_map] at hval
  exact hval

/-- The flame tree is the symbol quotient of the address tree, as long as the addresses of the tree
resolve to at most `2 ^ 32` distinct strings. -/
theorem flame_tree_is_quotient (root : StackNode) (binaries : BinaryRegistry)
    (hnames : (tableNames binaries root.children).toFinset.card ≤ 2 ^ 32) :
    IsQuotient root binaries (buildChildren binaries [root.children] {}).1
      (buildChildren binaries [root.children] {}).2.interner.strings := by
  have hbuilt := built_root binaries root
  have hfits := fits_root hnames
  generalize buildChildren binaries [root.children] {} = result at hbuilt hfits
  have hresult := hbuilt.labels result.2.interner (StringInterner.Extends.refl _)
  -- the symbol of a node read from the table is the symbol of its group
  have hkey : ∀ n ∈ Rose.nodes (quotient binaries root.children),
      (flameData result.2.interner n.label).key result.2.interner.strings = n.label.1 :=
    fun n hn => (hbuilt.reads hfits hn).key_eq
  have hpath : ∀ n ∈ walkForest (quotient binaries root.children),
      (n.1.map (flameData result.2.interner)).map (FlameData.key result.2.interner.strings) =
        n.1.map Prod.fst := by
    intro n hn
    rw [List.map_map]
    apply List.map_congr_left
    intro a ha
    obtain ⟨m, hm, rfl⟩ := exists_node_of_mem_path hn ha
    exact hkey m hm
  have hdistinct : SiblingsDistinct Prod.fst (quotient binaries root.children) :=
    siblingsDistinct_quotient root.children
  refine ⟨fun p => ?_, fun n hn k => ?_, ?_, fun n hn => ?_, hbuilt.wf.nodup⟩
  · rw [hresult, pathSum_mapForest, ← count_quotient]
    refine pathSum_congr_walk (fun n hn => ?_) fun _ _ => rfl
    rw [atKeys, hpath n hn, atKeys]
  · rw [hresult, walkForest_mapForest] at hn
    obtain ⟨m, hm, rfl⟩ := List.mem_map.mp hn
    rw [hpath m hm, label_map, ← get_pathSum,
      ← pathSum_quotient (fun children e he => counters_eq_sum he) _ _,
      pathSum_atKeys_path _ hdistinct _ hm]
    rfl
  · rw [hresult, siblingsDistinct_mapForest]
    exact (siblingsDistinct_congr hkey).mpr hdistinct
  · rw [hresult, nodes_mapForest] at hn
    obtain ⟨m, hm, rfl⟩ := List.mem_map.mp hn
    obtain ⟨child, -, haddr, hresolved⟩ := representative_quotient hm
    have hreads := hbuilt.reads hfits hm
    rw [← hresolved, ← haddr] at hreads
    rw [label_map]
    exact hreads

/-- `f` from two call sites, and `g` under each. -/
def twoCallSites : StackNode where
  children := [node (0xa0, { onCpuNs := toU64 5 }) [node (0xb0, { onCpuNs := toU64 2 }) []],
    node (0xa1, { onCpuNs := toU64 7 }) [node (0xb0, { onCpuNs := toU64 7 }) []]]

/-- Two addresses of one function and one of another, as for two call sites of one callee. -/
def callSites : BinaryRegistry := fun addr =>
  if addr = 0xa0 ∨ addr = 0xa1 then
    some { functionName := "f", binary := "app", isMain := true, language := .rust }
  else if addr = 0xb0 then
    some { functionName := "g", binary := "app", isMain := true, language := .rust }
  else none

theorem flame_tree_is_quotient_twoCallSites :
    IsQuotient twoCallSites callSites (buildChildren callSites [twoCallSites.children] {}).1
      (buildChildren callSites [twoCallSites.children] {}).2.interner.strings :=
  flame_tree_is_quotient twoCallSites callSites (by decide +kernel)

/-! ## More names than indices -/

/-- The function name of the address `n`: `n` letters. -/
def longName (n : ℕ) : String := String.ofList (List.replicate n 'x')

/-- Every address has a function of its own. -/
def numbered : BinaryRegistry := fun addr =>
  some { functionName := longName addr.toNat, binary := "app", isMain := true, language := .c }

/-- A root with `count` children. -/
def flatTree (count : ℕ) : StackNode where
  children := (List.range count).map fun n => node (UInt64.ofNat n, 0) []

theorem mem_flatTree {count n : ℕ} (h : n < count) :
    node (UInt64.ofNat n, 0) [] ∈ (flatTree count).children :=
  List.mem_map.mpr ⟨n, List.mem_range.mpr h, rfl⟩

/-- A root with one child more than there are `u32` indices. -/
def manyNames : StackNode := flatTree (2 ^ 32 + 1)

theorem longName_inj {n m : ℕ} (h : longName n = longName m) : n = m := by
  have hlength := congrArg (fun s : String => s.toList.length) h
  simpa [longName] using hlength

/-- The indices cannot tell all the functions apart. -/
theorem manyNames_not_quotient :
    ¬ IsQuotient manyNames numbered (buildChildren numbered [manyNames.children] {}).1
      (buildChildren numbered [manyNames.children] {}).2.interner.strings := by
  generalize (buildChildren numbered [manyNames.children] {}).1 = built
  generalize (buildChildren numbered [manyNames.children] {}).2.interner.strings = strings
  intro h
  have hindex : ∀ n ∈ Finset.range (2 ^ 32 + 1), ∃ i : UInt32,
      strings[i.toNat]? = some (longName n) := by
    intro n hn
    rw [Finset.mem_range] at hn
    have haddr : (UInt64.ofNat n).toNat = n :=
      UInt64.toNat_ofNat_of_lt' (lt_of_lt_of_le hn (by decide))
    -- the root has a child with this name, so a node of the flame tree has it
    have hroot : pathSum (atKeys (keyOf numbered) [(some (longName n), some "app")]) (fun _ => 1)
        manyNames.children ≠ 0 := by
      refine (count_atKeys_singleton _ _ _).mpr ⟨node (UInt64.ofNat n, 0) [],
        mem_flatTree hn, ?_⟩
      · rw [label_node, keyOf, numbered, haddr]
        rfl
    have hbuilt := h.nodes [(some (longName n), some "app")]
    have hsome : pathSum (atKeys (FlameData.key strings) [(some (longName n), some "app")])
        (fun _ => 1) built ≠ 0 := by
      rw [hbuilt]
      omega
    obtain ⟨t, -, hkey⟩ := (count_atKeys_singleton _ _ _).mp hsome
    obtain ⟨i, -, hread⟩ := Option.bind_eq_some_iff.mp (congrArg Prod.fst hkey)
    exact ⟨i, hread⟩
  choose! index hread using hindex
  obtain ⟨n, hn, m, hm, hne, heq⟩ := Finset.exists_ne_map_eq_of_card_lt_of_maps_to
    (s := Finset.range (2 ^ 32 + 1)) (t := Finset.range (2 ^ 32)) (f := fun n => (index n).toNat)
    (by rw [Finset.card_range, Finset.card_range]; omega)
    (fun n _ => Finset.mem_coe.mpr (Finset.mem_range.mpr (index n).toNat_lt))
  have hsame := hread n hn
  rw [show (index n).toNat = (index m).toNat from heq, hread m hm] at hsame
  exact hne (longName_inj (Option.some.inj hsame)).symm

end Stax.Live
