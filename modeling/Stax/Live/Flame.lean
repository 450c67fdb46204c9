/-
# Stax.Live.Flame — the flame graph of an aggregation.

The stack tree is keyed by address.  `buildChildren` turns it into the tree that is shown: level by
level the children of a list of sources are grouped by the symbol their address resolves to, the
groups are sorted by the time they carry, and each group's members are the sources of the next
level.  Names are sent as indices into a string table that an interner builds on the way, and
resolved symbols are kept in a cache.  `foldRecursion` then pulls up every child that has the symbol
of its parent, and `computeFlameUpdate` puts the synthetic `(all)` node on top.
-/
import Stax.Live.Aggregator
import Stax.Live.StringInterner
import Stax.Lib.Grouping

namespace Stax.Live

open Stax.Lib Stax.Lib.Rose

/-! ## The nodes -/

/-- The fields of a flame node without its children. -/
structure FlameData where
  address : Addr
  functionName : Option UInt32
  binary : Option UInt32
  isMain : Bool
  language : UInt32
  counters : Counters
  deriving DecidableEq, Repr

/-- A node of the flame graph as it is sent, with its children. -/
abbrev FlameNode := Rose FlameData

/-- A flame graph as it is sent, with the totals and the table of strings its nodes point into. -/
structure FlamegraphUpdate where
  totalOnCpuNs : U64
  totalOffCpu : OffCpuBreakdown
  strings : List String
  root : FlameNode

/-- On-CPU plus off-CPU time. -/
def Counters.durationNs (self : Counters) : U64 := self.onCpuNs + self.offCpu.totalNs

/-! ## Grouping by symbol -/

/-- Function and binary. -/
abbrev SymbolKey := Option String × Option String

/-- Answers from the cache, or looks the address up and keeps what was found. -/
def resolve (cache : Addr → Option ResolvedSymbol) (binaries : BinaryRegistry) (addr : Addr) :
    Option ResolvedSymbol × (Addr → Option ResolvedSymbol) :=
  match cache addr with
  | some r => (some r, cache)
  | none =>
    match binaries addr with
    | some r => (some r, Function.update cache addr (some r))
    | none => (none, cache)

/-- What a child is grouped by and shown with. -/
structure Resolved where
  key : SymbolKey
  isMain : Bool
  language : Language
  deriving DecidableEq, Repr

/-- How an address is shown; one without a symbol has neither a name nor a binary. -/
def Resolved.of : Option ResolvedSymbol → Resolved
  | some r => ⟨(some r.functionName, some r.binary), r.isMain, r.language⟩
  | none => ⟨(none, none), false, .unknown⟩

/-- What a group has accumulated: its counters, the address of the largest contributor with what
that resolves to, and the children of its members, each a map from addresses to nodes. -/
structure Acc where
  counters : Counters := 0
  repAddr : Addr
  repSelfNs : U64 := 0
  isMain : Bool
  language : Language
  subSources : List (Trie Addr Counters) := []

/-- A child and what its address resolves to. -/
abbrev Child := Rose (Addr × Counters) × Resolved

/-- The symbol by which a child is grouped with its siblings. -/
def Child.key (child : Child) : SymbolKey := child.2.key

/-- The group a child starts. -/
def Acc.new (child : Child) : Acc where
  repAddr := child.1.label.1
  isMain := child.2.isMain
  language := child.2.language

/-- One more address of the symbol: its counters are added, and its children wait to be grouped in
their turn. -/
def Acc.add (self : Acc) (child : Child) : Acc :=
  let counters := self.counters + child.1.label.2
  let subSources := self.subSources ++ [child.1.children]
  -- a larger contributor takes over as the representative
  if self.repSelfNs.val < child.1.label.2.onCpuNs.val then
    { counters
      repAddr := child.1.label.1
      repSelfNs := child.1.label.2.onCpuNs
      isMain := child.2.isMain
      language := child.2.language
      subSources }
  else { self with counters, subSources }

/-- One turn of the loop over the children: resolves the child and adds it to its group. -/
def groupChild (binaries : BinaryRegistry)
    (st : List (SymbolKey × Acc) × (Addr → Option ResolvedSymbol)) (child : Rose (Addr × Counters)) :
    List (SymbolKey × Acc) × (Addr → Option ResolvedSymbol) :=
  let (resolved, cache) := resolve st.2 binaries child.label.1
  let child : Child := (child, Resolved.of resolved)
  (Grouping.upsert child.key (Acc.new child) (fun acc => acc.add child) st.1, cache)

/-- The loop over the sources and their children. -/
def groupChildren (binaries : BinaryRegistry) (cache : Addr → Option ResolvedSymbol)
    (sources : List (Trie Addr Counters)) :
    List (SymbolKey × Acc) × (Addr → Option ResolvedSymbol) :=
  sources.foldl (fun st source => source.foldl (groupChild binaries) st) ([], cache)

/-! ## The order of siblings -/

/-- Longest first, then by function and by binary. -/
def compareEntries (a b : SymbolKey × Acc) : Ordering :=
  (compare b.2.counters.durationNs.val a.2.counters.durationNs.val).then
    ((compare a.1.1 b.1.1).then (compare a.1.2 b.1.2))

/-- Siblings in the order in which they are sent. -/
def sortEntries (entries : List (SymbolKey × Acc)) : List (SymbolKey × Acc) :=
  entries.insertionSort fun a b => (compareEntries a b).isLE

/-! ## The tree -/

/-- How many nodes there are below some sources. -/
def sourcesSize (sources : List (Trie Addr Counters)) : ℕ := (sources.map sizeForest).sum

/-- A bound for the work left for some groups. -/
def entriesSize (entries : List (SymbolKey × Acc)) : ℕ :=
  (entries.map fun e => 1 + sourcesSize e.2.subSources).sum

/-- The fields of a group's node, its names as indices. -/
def StringInterner.internData (self : StringInterner) (key : SymbolKey) (acc : Acc) :
    FlameData × StringInterner :=
  let (functionName, self) := self.internOpt key.1
  let (binary, self) := self.internOpt key.2
  let (language, self) := self.intern acc.language.asStr
  ({ address := acc.repAddr, functionName, binary, isMain := acc.isMain, language,
     counters := acc.counters }, self)

theorem subSources_add (acc : Acc) (child : Child) :
    (acc.add child).subSources = acc.subSources ++ [child.1.children] := by
  unfold Acc.add
  dsimp only
  split <;> rfl

theorem sourcesSize_add (acc : Acc) (child : Child) :
    sourcesSize (acc.add child).subSources =
      sourcesSize acc.subSources + sizeForest child.1.children := by
  rw [subSources_add, sourcesSize, List.map_append, List.sum_append, List.map_singleton,
    List.sum_singleton]
  rfl

/-- The groups have no more work below them than the sources. -/
theorem entriesSize_groupChildren_le (binaries : BinaryRegistry)
    (cache : Addr → Option ResolvedSymbol) (sources : List (Trie Addr Counters)) :
    entriesSize (groupChildren binaries cache sources).1 ≤ sourcesSize sources := by
  have hchild (child : Rose (Addr × Counters))
      (st : List (SymbolKey × Acc) × (Addr → Option ResolvedSymbol)) :
      entriesSize (groupChild binaries st child).1 ≤ entriesSize st.1 + child.size := by
    refine Grouping.sum_upsert_le (g := fun acc => 1 + sourcesSize acc.subSources) ?_ ?_ st.1
    · rw [sourcesSize_add, size_eq]
      exact Nat.le_of_eq (congrArg (1 + ·) (Nat.zero_add _))
    · intro acc
      rw [sourcesSize_add, size_eq]
      show 1 + (sourcesSize acc.subSources + sizeForest child.children) ≤ _
      omega
  have hchildren (children : List (Rose (Addr × Counters)))
      (st : List (SymbolKey × Acc) × (Addr → Option ResolvedSymbol)) :
      entriesSize (children.foldl (groupChild binaries) st).1 ≤
        entriesSize st.1 + sizeForest children := by
    induction children generalizing st with
    | nil => exact Nat.le_refl _
    | cons child children ih =>
        have hone := hchild child st
        have hrest := ih (groupChild binaries st child)
        rw [List.foldl_cons, sizeForest_cons]
        omega
  have hsize : sizeForest sources.flatten = sourcesSize sources := by
    unfold sourcesSize
    induction sources with
    | nil => exact sizeForest_nil
    | cons source sources ih =>
        rw [List.flatten_cons, sizeForest_append, List.map_cons, List.sum_cons, ih]
  unfold groupChildren
  rw [← List.foldl_flatten, ← hsize]
  exact (hchildren sources.flatten ([], cache)).trans (Nat.le_of_eq (Nat.zero_add _))

theorem entriesSize_sortEntries (entries : List (SymbolKey × Acc)) :
    entriesSize (sortEntries entries) = entriesSize entries :=
  ((List.perm_insertionSort _ entries).map _).sum_eq

theorem entriesSize_cons (key : SymbolKey) (acc : Acc) (entries : List (SymbolKey × Acc)) :
    entriesSize ((key, acc) :: entries) =
      1 + sourcesSize acc.subSources + entriesSize entries := by
  rw [entriesSize, List.map_cons, List.sum_cons]
  rfl

/-- What is shared over the whole tree: the table of strings, and the symbols that have been looked
up. -/
structure BuildState where
  interner : StringInterner := {}
  symbolCache : Addr → Option ResolvedSymbol := fun _ => none

mutual
/-- The nodes shown for the children of some sources. -/
def buildChildren (binaries : BinaryRegistry) (sources : List (Trie Addr Counters))
    (st : BuildState) : List FlameNode × BuildState :=
  buildNodes binaries (sortEntries (groupChildren binaries st.symbolCache sources).1)
    { st with symbolCache := (groupChildren binaries st.symbolCache sources).2 }
termination_by 2 * sourcesSize sources + 1
decreasing_by
  rw [entriesSize_sortEntries]
  have hle := entriesSize_groupChildren_le binaries st.symbolCache sources
  omega

/-- One node a group, its own children first. -/
def buildNodes (binaries : BinaryRegistry) :
    List (SymbolKey × Acc) → BuildState → List FlameNode × BuildState
  | [], st => ([], st)
  | (key, acc) :: entries, st =>
    let (grandchildren, st) := buildChildren binaries acc.subSources st
    let (data, interner) := st.interner.internData key acc
    let (visible, st) := buildNodes binaries entries { st with interner }
    (node data grandchildren :: visible, st)
termination_by entries => 2 * entriesSize entries
decreasing_by
  · rw [entriesSize_cons]
    omega
  · rw [entriesSize_cons]
    omega
end

/-! ## Folding recursion -/

/-- Two nodes of the same resolved symbol. -/
def symbolEq (a b : FlameData) : Bool :=
  a.functionName.isSome && a.functionName == b.functionName && a.binary == b.binary

/-- The `while` loop of `foldRecursion`: replaces the child at `i` by its children as long as it has
the node's symbol, and goes on to the next one otherwise. -/
def spliceLoop (node : FlameData) (i : ℕ) (children : List FlameNode) : List FlameNode :=
  if h : i < children.length then
    if symbolEq children[i].label node then
      -- the child that now stands at `i` is examined next
      spliceLoop node i (children.take i ++ children[i].children ++ children.drop (i + 1))
    else spliceLoop node (i + 1) children
  else children
termination_by sizeForest (children.drop i)
decreasing_by
  · have htake : (children.take i).length = i := List.length_take_of_le h.le
    rw [List.drop_eq_getElem_cons h, List.append_assoc, List.drop_left' htake, sizeForest_append,
      sizeForest_cons, size_eq]
    omega
  · rw [List.drop_eq_getElem_cons h, sizeForest_cons, size_eq]
    omega

/-- Splicing adds no nodes. -/
theorem sizeForest_spliceLoop_le (node : FlameData) (i : ℕ) (children : List FlameNode) :
    sizeForest (spliceLoop node i children) ≤ sizeForest children := by
  induction i, children using spliceLoop.induct node with
  | case1 i children h heq ih =>
      rw [spliceLoop, dif_pos h, if_pos heq]
      refine ih.trans ?_
      conv_rhs => rw [← List.take_append_drop i children, List.drop_eq_getElem_cons h]
      rw [sizeForest_append, sizeForest_append, sizeForest_append, sizeForest_cons,
        size_eq children[i]]
      omega
  | case2 i children h hne ih =>
      rw [spliceLoop, dif_pos h, if_neg hne]
      exact ih
  | case3 i children h =>
      rw [spliceLoop, dif_neg h]

/-- A child of the same symbol is replaced by its own children, everywhere in the tree. -/
def foldRecursion : FlameNode → FlameNode
  | node data children =>
    node data ((spliceLoop data 0 children).attach.map fun child => foldRecursion child.1)
termination_by t => t.size
decreasing_by
  have hmem := size_le_of_mem child.2
  have hle := sizeForest_spliceLoop_le data 0 children
  have hsize := size_eq (node data children)
  rw [children_node] at hsize
  omega

/-! ## The update -/

/-- A plain `sum`, which wraps in a release build. -/
def wrappingSum (ns : List U64) : U64 where
  val := (ns.map Sat.val).sum % 2 ^ 64
  le := Nat.le_pred_of_lt (Nat.mod_lt _ (by decide))

/-- The flame graph of an aggregation: children grouped by symbol, recursion folded, and under a
root that stands for all. -/
def computeFlameUpdate (aggregation : Aggregation) (binaries : BinaryRegistry) :
    FlamegraphUpdate :=
  let (children, st) := buildChildren binaries [aggregation.flameRoot.children] {}
  let children := children.map foldRecursion
  let total (k : Counter) : U64 := wrappingSum (children.map fun c => c.label.counters.get k)
  let (unknownLang, interner) := st.interner.intern Language.unknown.asStr
  let (allLabel, interner) := interner.intern "(all)"
  { totalOnCpuNs := aggregation.totalOnCpuNs
    totalOffCpu := aggregation.totalOffCpu
    strings := interner.strings
    root := node
      { address := 0
        functionName := some allLabel
        binary := none
        isMain := false
        language := unknownLang
        counters :=
          { onCpuNs := aggregation.totalOnCpuNs
            offCpu := aggregation.totalOffCpu
            petSamples := total .petSamples
            offCpuIntervals := total .offCpuIntervals
            pmc :=
              { cycles := total (.pmc .cycles)
                instructions := total (.pmc .instructions)
                l1dMisses := total (.pmc .l1dMisses)
                branchMispreds := total (.pmc .branchMispreds) } } }
      children }

end Stax.Live
