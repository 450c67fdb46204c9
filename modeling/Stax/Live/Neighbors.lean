/-
# Stax.Live.Neighbors — the callers and callees of a symbol.

The stack tree is walked once.  Every node whose symbol is the target's adds its counters to the
target's own, its chain of ancestors to a tree of callers that grows towards `main`, and everything
below it to a tree of callees; both trees merge by symbol.  They are sent like the flame graph, with
names as indices into a string table, after the nodes that carry too little time are left out.

So the tree of callers groups the forest of ancestor chains, one for each of the target's nodes, and
the tree of callees groups what these nodes have below them.
-/
import Stax.Live.FlameQuotient
import Stax.Lib.GroupTree
import Stax.Lib.RunningMax

namespace Stax.Live

open Stax.Lib Stax.Lib.Rose

/-! ## The model -/

/-- The fields of a `SymbolNode` without its children. -/
structure SymbolNode where
  onCpuNs : U64 := 0
  offCpu : OffCpuBreakdown := 0
  petSamples : U64 := 0
  offCpuIntervals : U64 := 0
  repAddress : Addr := 0
  repSelfNs : U64 := 0
  isMain : Bool := false
  language : Language := .unknown
  deriving DecidableEq, Repr

/-- `SymbolNode::default()`. -/
instance : Zero SymbolNode := ⟨{}⟩

/-- The children of a `SymbolNode`. -/
abbrev SymbolTree := Trie SymbolKey SymbolNode

/-- How an address is shown and grouped, by asking the registry. -/
def classify (addr : Addr) (binaries : BinaryRegistry) : Resolved := Resolved.of (binaries addr)

/-- The counters of a node are added to a symbol's, without those of the performance unit. -/
def accumulate (sn : SymbolNode) (addr : Addr) (src : Counters) (isMain : Bool)
    (language : Language) : SymbolNode :=
  let sn :=
    { sn with
      onCpuNs := sn.onCpuNs + src.onCpuNs
      offCpu := sn.offCpu + src.offCpu
      petSamples := sn.petSamples + src.petSamples
      offCpuIntervals := sn.offCpuIntervals + src.offCpuIntervals }
  -- a larger contributor takes over as the representative
  if sn.repSelfNs.val < src.onCpuNs.val then
    { sn with repAddress := addr, repSelfNs := src.onCpuNs, isMain, language }
  else sn

/-- `accumulate` with what the address is classified as. -/
def accumulateAt (binaries : BinaryRegistry) (sn : SymbolNode) (addr : Addr) (src : Counters) :
    SymbolNode :=
  accumulate sn addr src (classify addr binaries).isMain (classify addr binaries).language

mutual
/-- One child merged into the children of a `SymbolNode`. -/
def mergeDescendant (binaries : BinaryRegistry) (dst : SymbolTree) :
    Rose (Addr × Counters) → SymbolTree
  | node (caddr, child) below =>
    Trie.upsert (classify caddr binaries).key
      (fun entry => node (entry.label.1, accumulateAt binaries entry.label.2 caddr child)
        (mergeDescendants binaries entry.children below))
      dst

/-- A node's children are merged one after the other. -/
def mergeDescendants (binaries : BinaryRegistry) (dst : SymbolTree) :
    List (Rose (Addr × Counters)) → SymbolTree
  | [] => dst
  | child :: children => mergeDescendants binaries (mergeDescendant binaries dst child) children
end

/-- The loop over the ancestors, innermost first: each is an entry below the one before. -/
def insertCallers (binaries : BinaryRegistry) (src : Counters) :
    List Addr → SymbolTree → SymbolTree
  | [], cur => cur
  | callerAddr :: ancestors, cur =>
    Trie.upsert (classify callerAddr binaries).key
      (fun entry => node (entry.label.1, accumulateAt binaries entry.label.2 callerAddr src)
        (insertCallers binaries src ancestors entry.children))
      cur

/-- What the walk has collected. -/
structure Neighbors where
  callers : SymbolTree := []
  callees : SymbolTree := []
  own : SymbolNode := {}

/-- What the walk does at a node, given its ancestors, innermost first. -/
def visit (binaries : BinaryRegistry) (targetKey : SymbolKey) (ancestors : List Addr)
    (st : Neighbors) (nodeAddr : Addr) (src : Counters) (children : List (Rose (Addr × Counters))) :
    Neighbors :=
  if nodeAddr ≠ 0 ∧ (classify nodeAddr binaries).key = targetKey then
    { own := accumulateAt binaries st.own nodeAddr src
      callers := insertCallers binaries src ancestors st.callers
      callees := mergeDescendants binaries st.callees children }
  else st

/-- Only a frame is an ancestor; the root is not. -/
def push (nodeAddr : Addr) (ancestors : List Addr) : List Addr :=
  if nodeAddr ≠ 0 then nodeAddr :: ancestors else ancestors

mutual
/-- The walk over the tree of stacks, with the frames that lead to where it stands. -/
def walk (binaries : BinaryRegistry) (targetKey : SymbolKey) (ancestors : List Addr)
    (st : Neighbors) : Rose (Addr × Counters) → Neighbors
  | node (nodeAddr, src) children =>
    walkChildren binaries targetKey (push nodeAddr ancestors)
      (visit binaries targetKey ancestors st nodeAddr src children) children

/-- The walk over a node's children, one after the other. -/
def walkChildren (binaries : BinaryRegistry) (targetKey : SymbolKey) (ancestors : List Addr)
    (st : Neighbors) : List (Rose (Addr × Counters)) → Neighbors
  | [] => st
  | child :: children =>
    walkChildren binaries targetKey ancestors (walk binaries targetKey ancestors st child) children
end

/-! ### Sending the trees -/

/-- The time of a symbol, on a cpu and off it. -/
def SymbolNode.totalNs (self : SymbolNode) : U64 := self.onCpuNs + self.offCpu.totalNs

/-- What is sent of a `SymbolNode`; it has no PMU counters. -/
def SymbolNode.acc (self : SymbolNode) : Acc where
  counters :=
    { onCpuNs := self.onCpuNs
      offCpu := self.offCpu
      petSamples := self.petSamples
      offCpuIntervals := self.offCpuIntervals }
  repAddr := self.repAddress
  repSelfNs := self.repSelfNs
  isMain := self.isMain
  language := self.language

/-- Longest first, then by function and by binary. -/
def compareNodes (a b : Rose (SymbolKey × SymbolNode)) : Ordering :=
  (compare b.label.2.totalNs.val a.label.2.totalNs.val).then
    ((compare a.label.1.1 b.label.1.1).then (compare a.label.1.2 b.label.1.2))

/-- The children that carry enough time, in order. -/
def visible (threshold : ℕ) (children : SymbolTree) : SymbolTree :=
  sortBy compareNodes (children.filter fun c => threshold ≤ c.label.2.totalNs.val)

theorem sizeForest_visible_le (threshold : ℕ) (children : SymbolTree) :
    sizeForest (visible threshold children) ≤ sizeForest children := by
  rw [sizeForest_eq_sum, sizeForest_eq_sum, visible, ((sortBy_perm _).map size).sum_eq]
  exact (List.filter_sublist.map size).sum_le_sum fun _ _ => Nat.zero_le _

mutual
/-- A symbol's node as it is sent: its strings are interned after those of its children. -/
def toFlameNode (threshold : ℕ) :
    Rose (SymbolKey × SymbolNode) → StringInterner → FlameNode × StringInterner
  | node (key, sn) children, interner =>
    let childNodes := toFlameNodes threshold (visible threshold children) interner
    let data := childNodes.2.internData key sn.acc
    (node data.1 childNodes.1, data.2)
termination_by t => 2 * t.size
decreasing_by
  have hle := sizeForest_visible_le threshold children
  have hsize := size_eq (node (key, sn) children)
  rw [children_node] at hsize
  omega

/-- The nodes of the children, one after the other. -/
def toFlameNodes (threshold : ℕ) :
    List (Rose (SymbolKey × SymbolNode)) → StringInterner → List FlameNode × StringInterner
  | [], interner => ([], interner)
  | child :: children, interner =>
    let first := toFlameNode threshold child interner
    let rest := toFlameNodes threshold children first.2
    (first.1 :: rest.1, rest.2)
termination_by ts => 2 * sizeForest ts + 1
decreasing_by
  · rw [sizeForest_cons]
    omega
  · rw [sizeForest_cons, size_eq]
    omega
end

/-- What is sent of a symbol's family: its own counters, and a tree each for callers and callees. -/
structure NeighborsUpdate where
  strings : List String
  functionName : Option UInt32
  binary : Option UInt32
  isMain : Bool
  language : UInt32
  ownOnCpuNs : U64
  ownOffCpu : OffCpuBreakdown
  ownPetSamples : U64
  ownOffCpuIntervals : U64
  callersTree : FlameNode
  calleesTree : FlameNode

/-- The walk from the root, which stands at the address zero. -/
def neighborsOf (flameRoot : StackNode) (binaries : BinaryRegistry) (targetAddress : Addr) :
    Neighbors :=
  walk binaries (classify targetAddress binaries).key [] {}
    (node (0, flameRoot.counters) flameRoot.children)

/-- The least time a node is sent with. -/
def Neighbors.threshold (self : Neighbors) : ℕ := max (self.own.totalNs.val / 2000) 1

/-- The root of both trees: the target with its own counters. -/
def Neighbors.target (self : Neighbors) (binaries : BinaryRegistry) (targetAddress : Addr) :
    SymbolNode :=
  { self.own with
    repAddress := targetAddress
    repSelfNs := 0
    isMain := (classify targetAddress binaries).isMain
    language := (classify targetAddress binaries).language }

/-- The family of the symbol at an address, as it is sent to a viewer. -/
def computeNeighborsUpdate (flameRoot : StackNode) (binaries : BinaryRegistry)
    (targetAddress : Addr) : NeighborsUpdate :=
  let target := classify targetAddress binaries
  let st := neighborsOf flameRoot binaries targetAddress
  let rootNode := st.target binaries targetAddress
  let functionName := StringInterner.internOpt {} target.key.1
  let binary := functionName.2.internOpt target.key.2
  let language := binary.2.intern target.language.asStr
  let callers := toFlameNode st.threshold (node (target.key, rootNode) st.callers) language.2
  let callees := toFlameNode st.threshold (node (target.key, rootNode) st.callees) callers.2
  { strings := callees.2.strings
    functionName := functionName.1
    binary := binary.1
    isMain := target.isMain
    language := language.1
    ownOnCpuNs := st.own.onCpuNs
    ownOffCpu := st.own.offCpu
    ownPetSamples := st.own.petSamples
    ownOffCpuIntervals := st.own.offCpuIntervals
    callersTree := callers.1
    calleesTree := callees.1 }

/-! ## What the walk collects -/

/-- A node of the target. -/
def isTarget (binaries : BinaryRegistry) (targetKey : SymbolKey) (a : Addr × Counters) : Bool :=
  a.1 ≠ 0 ∧ keyOf binaries a = targetKey

/-- The entries of the target's nodes. -/
def ownEntries (binaries : BinaryRegistry) (targetKey : SymbolKey)
    (f : List (Rose (Addr × Counters))) : List (Addr × Counters) :=
  ((nodes f).filter fun n => isTarget binaries targetKey n.label).map label

/-- What the target's nodes have below them. -/
def calleeForest (binaries : BinaryRegistry) (targetKey : SymbolKey)
    (f : List (Rose (Addr × Counters))) : List (Rose (Addr × Counters)) :=
  ((nodes f).filter fun n => isTarget binaries targetKey n.label).flatMap children

/-- Ancestors as a tree that grows outward, each carrying the counters of the node they are the
ancestors of. -/
def chain (src : Counters) : List Addr → List (Rose (Addr × Counters))
  | [] => []
  | callerAddr :: ancestors => [node (callerAddr, src) (chain src ancestors)]

mutual
/-- The chains of ancestors of the target's nodes in a tree. -/
def callerChains (binaries : BinaryRegistry) (targetKey : SymbolKey) (ancestors : List Addr) :
    Rose (Addr × Counters) → List (Rose (Addr × Counters))
  | node a children =>
    (if isTarget binaries targetKey a then chain a.2 ancestors else []) ++
      callerForest binaries targetKey (push a.1 ancestors) children

/-- The chains of ancestors of the target's nodes in a forest. -/
def callerForest (binaries : BinaryRegistry) (targetKey : SymbolKey) (ancestors : List Addr) :
    List (Rose (Addr × Counters)) → List (Rose (Addr × Counters))
  | [] => []
  | t :: ts => callerChains binaries targetKey ancestors t ++
      callerForest binaries targetKey ancestors ts
end

section Walk

variable {binaries : BinaryRegistry} {targetKey : SymbolKey}

@[simp] theorem callerForest_nil (ancestors : List Addr) :
    callerForest binaries targetKey ancestors [] = [] := by
  rw [callerForest]

theorem callerForest_cons (ancestors : List Addr) (a : Addr × Counters)
    (cs ts : List (Rose (Addr × Counters))) :
    callerForest binaries targetKey ancestors (node a cs :: ts) =
      (if isTarget binaries targetKey a then chain a.2 ancestors else []) ++
        callerForest binaries targetKey (push a.1 ancestors) cs ++
        callerForest binaries targetKey ancestors ts := by
  rw [callerForest, callerChains]

theorem calleeForest_cons (a : Addr × Counters) (cs ts : List (Rose (Addr × Counters))) :
    calleeForest binaries targetKey (node a cs :: ts) =
      (if isTarget binaries targetKey a then cs else []) ++
        calleeForest binaries targetKey cs ++ calleeForest binaries targetKey ts := by
  unfold calleeForest
  rw [nodes_cons, List.filter_cons, List.filter_append, label_node]
  split <;> simp

theorem ownEntries_cons (a : Addr × Counters) (cs ts : List (Rose (Addr × Counters))) :
    ownEntries binaries targetKey (node a cs :: ts) =
      (if isTarget binaries targetKey a then [a] else []) ++
        ownEntries binaries targetKey cs ++ ownEntries binaries targetKey ts := by
  unfold ownEntries
  rw [nodes_cons, List.filter_cons, List.filter_append, label_node]
  split <;> simp

/-! ### Merging -/

theorem mergeDescendants_cons (dst : SymbolTree) (a : Addr × Counters)
    (cs ts : List (Rose (Addr × Counters))) :
    mergeDescendants binaries dst (node a cs :: ts) =
      mergeDescendants binaries
        (Trie.upsert (keyOf binaries a)
          (fun entry => node (entry.label.1, accumulateAt binaries entry.label.2 a.1 a.2)
            (mergeDescendants binaries entry.children cs))
          dst)
        ts := by
  obtain ⟨addr, src⟩ := a
  rw [mergeDescendants, mergeDescendant]
  rfl

@[simp] theorem mergeDescendants_nil (dst : SymbolTree) :
    mergeDescendants binaries dst [] = dst := by
  rw [mergeDescendants]

theorem mergeDescendants_append (dst : SymbolTree) (f g : List (Rose (Addr × Counters))) :
    mergeDescendants binaries dst (f ++ g) =
      mergeDescendants binaries (mergeDescendants binaries dst f) g := by
  induction f generalizing dst with
  | nil => simp
  | cons t ts ih =>
      obtain ⟨a, cs⟩ := t
      rw [List.cons_append, mergeDescendants_cons, mergeDescendants_cons, ih]

/-- The ancestors of a node are inserted as their chain is merged. -/
theorem insertCallers_eq (src : Counters) (ancestors : List Addr) (cur : SymbolTree) :
    insertCallers binaries src ancestors cur =
      mergeDescendants binaries cur (chain src ancestors) := by
  induction ancestors generalizing cur with
  | nil => rw [insertCallers, chain, mergeDescendants_nil]
  | cons callerAddr ancestors ih =>
      rw [insertCallers, chain, mergeDescendants_cons, mergeDescendants_nil]
      congr 1
      funext entry
      rw [ih]

/-- What the entries of the target's nodes accumulate to. -/
def accumulateAll (binaries : BinaryRegistry) (sn : SymbolNode)
    (entries : List (Addr × Counters)) : SymbolNode :=
  entries.foldl (fun sn a => accumulateAt binaries sn a.1 a.2) sn

/-- The walk collects the entries of the target's nodes, the chains of their ancestors, and what
they have below them. -/
theorem walkChildren_eq (ancestors : List Addr) (st : Neighbors)
    (f : List (Rose (Addr × Counters))) :
    walkChildren binaries targetKey ancestors st f =
      { own := accumulateAll binaries st.own (ownEntries binaries targetKey f)
        callers := mergeDescendants binaries st.callers
          (callerForest binaries targetKey ancestors f)
        callees := mergeDescendants binaries st.callees (calleeForest binaries targetKey f) } := by
  induction f using forest_induction generalizing ancestors st with
  | nil =>
      rw [walkChildren, callerForest_nil, mergeDescendants_nil]
      simp [ownEntries, calleeForest, accumulateAll]
  | cons a cs ts ihc iht =>
      obtain ⟨addr, src⟩ := a
      have hvisit : visit binaries targetKey ancestors st addr src cs =
          { own := accumulateAll binaries st.own
              (if isTarget binaries targetKey (addr, src) then [(addr, src)] else [])
            callers := mergeDescendants binaries st.callers
              (if isTarget binaries targetKey (addr, src) then chain src ancestors else [])
            callees := mergeDescendants binaries st.callees
              (if isTarget binaries targetKey (addr, src) then cs else []) } := by
        have hiff : isTarget binaries targetKey (addr, src) = true ↔
            addr ≠ 0 ∧ (classify addr binaries).key = targetKey := decide_eq_true_iff
        unfold visit
        by_cases htarget : addr ≠ 0 ∧ (classify addr binaries).key = targetKey
        · rw [if_pos htarget, if_pos (hiff.mpr htarget), if_pos (hiff.mpr htarget),
            if_pos (hiff.mpr htarget), insertCallers_eq]
          rfl
        · rw [if_neg htarget, if_neg (mt hiff.mp htarget), if_neg (mt hiff.mp htarget),
            if_neg (mt hiff.mp htarget), mergeDescendants_nil, mergeDescendants_nil]
          rfl
      rw [walkChildren, walk, iht, ihc, hvisit, ownEntries_cons, callerForest_cons,
        calleeForest_cons]
      simp only [accumulateAll, List.foldl_append, mergeDescendants_append]

/-- The walk of a stack tree. -/
theorem neighborsOf_eq (flameRoot : StackNode) (binaries : BinaryRegistry) (targetAddress : Addr) :
    neighborsOf flameRoot binaries targetAddress =
      { own := accumulateAll binaries {}
          (ownEntries binaries (classify targetAddress binaries).key flameRoot.children)
        callers := mergeDescendants binaries []
          (callerForest binaries (classify targetAddress binaries).key [] flameRoot.children)
        callees := mergeDescendants binaries []
          (calleeForest binaries (classify targetAddress binaries).key flameRoot.children) } := by
  have hroot : visit binaries (classify targetAddress binaries).key [] {} 0 flameRoot.counters
      flameRoot.children = {} := if_neg fun h => h.1 rfl
  rw [neighborsOf, walk, hroot, walkChildren_eq]
  rfl

end Walk

end Stax.Live
