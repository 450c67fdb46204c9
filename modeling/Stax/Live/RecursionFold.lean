/-
# Stax.Live.RecursionFold — folding recursive calls.

`foldRecursion` pulls every child that has its parent's resolved symbol up into the parent, by an
index loop that edits the list it walks.  The loop leaves in place what it has passed and pulls up
the repetitions in what is left, so the whole fold is `collapse` by `symbolEq`: no repetition is
left, the nodes that stay keep their counters, and self time moves only from a repetition to the
node it repeats.
-/
import Stax.Live.Flame
import Stax.Lib.Collapse

namespace Stax.Live

open Stax.Lib Stax.Lib.Rose

/-! ## The loop -/

/-- The loop keeps what it has passed and pulls up the repetitions in the rest. -/
theorem spliceLoop_eq (data : FlameData) (i : ℕ) (children : List FlameNode) :
    spliceLoop data i children =
      children.take i ++ pull symbolEq data (children.drop i) := by
  induction i, children using spliceLoop.induct data with
  | case1 i children h heq ih =>
      have htake : (children.take i).length = i := List.length_take_of_le h.le
      rw [spliceLoop, dif_pos h, if_pos heq, ih, List.append_assoc, List.take_left' htake,
        List.drop_left' htake, List.drop_eq_getElem_cons h, ← node_eta children[i], pull_cons,
        if_pos heq, pull_append, children_node]
  | case2 i children h hne ih =>
      rw [spliceLoop, dif_pos h, if_neg hne, ih, List.drop_eq_getElem_cons h,
        List.take_succ_eq_append_getElem h, List.append_assoc]
      congr 1
      rw [← node_eta children[i], pull_cons, if_neg hne]
  | case3 i children h =>
      rw [spliceLoop, dif_neg h, List.drop_eq_nil_of_le (not_lt.mp h),
        List.take_of_length_le (not_lt.mp h), pull_nil, List.append_nil]

theorem spliceLoop_zero (data : FlameData) (children : List FlameNode) :
    spliceLoop data 0 children = pull symbolEq data children := by
  rw [spliceLoop_eq]
  rfl

/-- The fold collapses the tree by symbol. -/
theorem foldRecursion_eq (t : FlameNode) :
    foldRecursion t = node t.label (collapse symbolEq t.label t.children) := by
  induction hsize : t.size using Nat.strong_induction_on generalizing t with
  | _ n ih =>
      obtain ⟨data, children⟩ := t
      rw [foldRecursion, List.attach_map_val (f := foldRecursion), spliceLoop_zero,
        label_node, children_node, collapse_eq_map_pull]
      congr 1
      refine List.map_congr_left fun c hc => ih c.size ?_ c rfl
      have hmem := size_le_of_mem (f := spliceLoop data 0 children) (by
        rw [spliceLoop_zero]
        exact hc)
      have hle := sizeForest_spliceLoop_le data 0 children
      have hroot := size_eq (node data children)
      rw [children_node] at hroot
      omega

/-! ## Self time -/

/-- Function and binary, as indices. -/
def FlameData.symbol (d : FlameData) : Option UInt32 × Option UInt32 := (d.functionName, d.binary)

/-- The same resolved symbol. -/
def repeats (a b : Option UInt32 × Option UInt32) : Bool :=
  a.1.isSome && a.1 == b.1 && a.2 == b.2

/-- A path of symbols with each run of one resolved symbol cut to its first occurrence. -/
def collapseRuns (p : List (Option UInt32 × Option UInt32)) : List (Option UInt32 × Option UInt32) :=
  p.destutter fun a b => ¬ repeats b a = true

/-- A counter of a flame node, as a number. -/
def FlameData.count (k : Counter) (d : FlameData) : ℕ := (d.counters.get k).val

theorem symbolEq_eq_repeats (a b : FlameData) : symbolEq a b = repeats a.symbol b.symbol :=
  rfl

theorem map_symbol_collapsePath (data : FlameData) (p : List FlameData) :
    (data :: collapsePath symbolEq data p).map FlameData.symbol =
      collapseRuns ((data :: p).map FlameData.symbol) := by
  have hkeys : (collapsePath symbolEq data p).map FlameData.symbol =
      collapsePath repeats data.symbol (p.map FlameData.symbol) :=
    map_collapsePath symbolEq_eq_repeats data p
  rw [List.map_cons, List.map_cons, collapseRuns, destutter_cons_eq, hkeys]

theorem dominated_foldRecursion {w : FlameData → ℕ} {t : FlameNode} (h : Dominated w [t]) :
    Dominated w [foldRecursion t] := by
  obtain ⟨data, children⟩ := t
  obtain ⟨hle, hchildren, -⟩ := dominated_cons.mp h
  rw [foldRecursion_eq, label_node, children_node]
  exact dominated_cons.mpr
    ⟨(weight_collapse_le data hchildren).trans hle, dominated_collapse data hchildren, dominated_nil⟩

/-- Recursion folding moves self time nowhere else.  For every tree whose nodes hold at least what
their children hold: no resolved node has a direct child with its symbol; the root and the nodes
that stay keep their fields and their order; nodes still hold at least what their children hold;
and for every path of symbols the nodes at that path hold beyond their children what the original
nodes held whose path becomes it when runs of a resolved symbol are collapsed. -/
theorem fold_recursion_conserves (t : FlameNode)
    (hdominated : ∀ k, Dominated (FlameData.count k) [t]) :
    (∀ n ∈ nodes [foldRecursion t], n.label.functionName ≠ none →
      ∀ c ∈ n.children, c.label.symbol ≠ n.label.symbol) ∧
    (foldRecursion t).label = t.label ∧
    (nodes (foldRecursion t).children).map label =
      ((walkForest t.children).filter fun n => stays symbolEq t.label n.1).map
        (fun n => n.2.label) ∧
    (∀ k, Dominated (FlameData.count k) [foldRecursion t]) ∧
    ∀ k p, pathSum (atKeys FlameData.symbol p) (selfWeight (FlameData.count k))
        [foldRecursion t] =
      pathSum (fun path => collapseRuns (path.map FlameData.symbol) = p)
        (selfWeight (FlameData.count k)) [t] := by
  have hfolded (k : Counter) := dominated_foldRecursion (hdominated k)
  obtain ⟨data, children⟩ := t
  rw [foldRecursion_eq, label_node, children_node] at hfolded ⊢
  refine ⟨?_, rfl, labels_collapse data children, hfolded, fun k p => ?_⟩
  · have hfold : (∀ c ∈ collapse symbolEq data children, symbolEq c.label data = false) ∧
        ∀ n ∈ nodes (collapse symbolEq data children),
          ∀ c ∈ n.children, symbolEq c.label n.label = false :=
      not_same_of_collapse data children
    have hneq (a b : FlameData) (hab : symbolEq a b = false) (hb : b.functionName ≠ none) :
        a.symbol ≠ b.symbol := by
      intro heq
      obtain ⟨hname, hbinary⟩ := Prod.mk.inj heq
      rw [symbolEq, hname, hbinary] at hab
      simp [Option.isSome_iff_ne_none.mpr hb] at hab
    rw [forall_nodes_cons, label_node, children_node, nodes_nil]
    refine ⟨fun hname c hc => hneq _ _ (hfold.1 c hc) hname, fun n hn hname c hc => ?_, by simp⟩
    exact hneq _ _ (hfold.2 n hn c hc) hname
  · obtain ⟨hle, hchildren, -⟩ := dominated_cons.mp (hdominated k)
    -- below the root, a path is collapsed from the root's symbol on
    have hpath : (fun q : List FlameData =>
        decide (collapseRuns ((data :: q).map FlameData.symbol) = p)) =
        fun q => atKeys FlameData.symbol p (data :: collapsePath symbolEq data q) := by
      funext q
      rw [atKeys, map_symbol_collapsePath]
    have hroot : decide (collapseRuns ([data].map FlameData.symbol) = p) =
        atKeys FlameData.symbol p [data] := congrFun hpath []
    have hself : selfWeight (FlameData.count k) (node data (collapse symbolEq data children)) =
        selfWeight (FlameData.count k) (node data children) +
          absorbed symbolEq (FlameData.count k) data children :=
      selfWeight_collapse hle hchildren
    have hfold : pathSum (fun q => atKeys FlameData.symbol p (data :: q))
          (selfWeight (FlameData.count k)) (collapse symbolEq data children) +
          (if atKeys FlameData.symbol p [data] then
            absorbed symbolEq (FlameData.count k) data children else 0) =
        pathSum (fun q => atKeys FlameData.symbol p (data :: collapsePath symbolEq data q))
          (selfWeight (FlameData.count k)) children :=
      pathSum_collapse_add _ data hchildren
    rw [pathSum_cons, pathSum_cons, pathSum_nil, pathSum_nil, hpath, hroot, ← hfold, hself]
    split <;> omega

/-- A call of the function `name` that took `onCpuNs`. -/
def call (name : UInt32) (onCpuNs : ℕ) (children : List FlameNode) : FlameNode :=
  node
    { address := 0, functionName := some name, binary := some 0, isMain := true, language := 0
      counters := { onCpuNs := toU64 onCpuNs } }
    children

/-- `f` spends 1 itself, 2 in a recursive call and 3 in the `g` this one calls. -/
def recursiveCall : FlameNode := call 1 6 [call 1 5 [call 2 3 []]]

theorem fold_recursion_conserves_recursiveCall :
    (∀ k, Dominated (FlameData.count k) [recursiveCall]) ∧
    (walkForest [foldRecursion recursiveCall]).map
        (fun n => (n.1.map FlameData.functionName, FlameData.count .onCpuNs n.2.label)) =
      [([some 1], 6), ([some 1, some 2], 3)] ∧
    pathSum (atKeys FlameData.symbol [(some 1, some 0)]) (selfWeight (FlameData.count .onCpuNs))
        [foldRecursion recursiveCall] =
      pathSum (fun path => collapseRuns (path.map FlameData.symbol) = [(some 1, some 0)])
        (selfWeight (FlameData.count .onCpuNs)) [recursiveCall] := by
  have hdominated : ∀ k, Dominated (FlameData.count k) [recursiveCall] := by
    intro k
    show ∀ t ∈ nodes [recursiveCall], weight _ t.children ≤ FlameData.count k t.label
    cases k with
    | offCpu r => cases r <;> decide
    | pmc c => cases c <;> decide
    | _ => decide
  obtain ⟨-, -, -, -, hself⟩ := fold_recursion_conserves recursiveCall hdominated
  exact ⟨hdominated, by decide +kernel, hself .onCpuNs _⟩

end Stax.Live
