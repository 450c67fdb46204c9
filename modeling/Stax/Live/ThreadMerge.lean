/-
# Stax.Live.ThreadMerge — aggregating every thread at once.

The all-threads query credits every thread's stacks into one tree and one table, in whatever order
the thread map yields its keys.  The result is the sum of the single-thread queries: node by node
for the tree, entry by entry for the table, and so for the totals.  A node or an entry is read as
an element of `WithZero`, so that the equations also say which nodes and entries there are.
-/
import Stax.Live.Credits

namespace Stax.Live

open Stax.Lib

/-- What a tree holds at a path, the root's own counters at the empty one. -/
def StackNode.at (self : StackNode) : List Addr → WithZero Counters
  | [] => self.counters
  | addr :: path => Trie.valueAt (addr :: path) self.children

/-! ## Merging trees -/

theorem StackNode.at_merge {self other : StackNode} (h : Trie.Keyed other.children)
    (p : List Addr) : (self.merge other).at p = self.at p + other.at p := by
  cases p with
  | nil => rfl
  | cons addr path => exact Trie.valueAt_merge h (addr :: path) self.children

theorem at_foldl_merge {aggs : List Aggregation}
    (h : ∀ a ∈ aggs, Trie.Keyed a.flameRoot.children) (p : List Addr) (out : StackNode) :
    (aggs.foldl (fun out a => out.merge a.flameRoot) out).at p =
      out.at p + (aggs.map fun a => a.flameRoot.at p).sum := by
  induction aggs generalizing out with
  | nil => simp
  | cons a aggs ih =>
      rw [List.forall_mem_cons] at h
      rw [List.foldl_cons, ih h.2, StackNode.at_merge h.1, List.map_cons, List.sum_cons, add_assoc]

/-- The merged tree holds at each path the sum of what the trees hold there; of no trees at all the
merge is the empty tree, whose root is the only node. -/
theorem at_mergedFlameRoot {aggs : List Aggregation}
    (h : ∀ a ∈ aggs, Trie.Keyed a.flameRoot.children) {p : List Addr} (hp : p ≠ []) :
    (mergedFlameRoot aggs).at p = (aggs.map fun a => a.flameRoot.at p).sum := by
  cases aggs with
  | nil =>
      obtain ⟨addr, path, rfl⟩ := List.exists_cons_of_ne_nil hp
      rfl
  | cons a aggs =>
      rw [List.forall_mem_cons] at h
      rw [mergedFlameRoot, at_foldl_merge h.2, List.map_cons, List.sum_cons]

/-- Trees whose own counters are zero merge into one whose own counters are zero. -/
theorem counters_mergedFlameRoot {aggs : List Aggregation}
    (h : ∀ a ∈ aggs, a.flameRoot.counters = 0) : (mergedFlameRoot aggs).counters = 0 := by
  cases aggs with
  | nil => rfl
  | cons a aggs =>
      rw [List.forall_mem_cons] at h
      obtain ⟨hroot, haggs⟩ := h
      rw [mergedFlameRoot]
      generalize a.flameRoot = out at hroot
      induction aggs generalizing out with
      | nil => exact hroot
      | cons b aggs ih =>
          rw [List.forall_mem_cons] at haggs
          refine ih haggs.2 (out.merge b.flameRoot) ?_
          rw [StackNode.merge, hroot, haggs.1, add_zero]

namespace Aggregation

/-- Two aggregations are the same as maps: the same nodes and entries with the same counters, and
the same totals. -/
structure Same (a b : Aggregation) : Prop where
  tree : ∀ p, a.flameRoot.at p = b.flameRoot.at p
  table : ∀ x, a.byAddress.at x = b.byAddress.at x
  onCpu : a.totalOnCpuNs = b.totalOnCpuNs
  offCpu : a.totalOffCpu = b.totalOffCpu

theorem counters_ofCharges (chs : List Charge) : (ofCharges chs).flameRoot.counters = 0 := by
  rw [flameRoot_ofCharges]

theorem keyed_ofCharges (chs : List Charge) : Trie.Keyed (ofCharges chs).flameRoot.children := by
  rw [flameRoot_ofCharges]
  exact Trie.keyed_credit _ Trie.keyed_nil

/-- The tree of a list of charges, at a path below the root. -/
theorem at_flameRoot_ofCharges (chs : List Charge) {p : List Addr} (hp : p ≠ []) :
    (ofCharges chs).flameRoot.at p =
      ((creditsOf chs).map fun c => Trie.creditAt p c.stack.reverse c.delta).sum := by
  obtain ⟨addr, path, rfl⟩ := List.exists_cons_of_ne_nil hp
  show Trie.valueAt (addr :: path) (ofCharges chs).flameRoot.children = _
  rw [flameRoot_ofCharges, Trie.valueAt_credit, Trie.valueAt_nil, zero_add, List.map_map]
  rfl

end Aggregation

/-! ## Thread by thread -/

namespace Aggregator

open Aggregation

variable (self : Aggregator) (binaries : BinaryRegistry) (predicate : EventCtx → Bool)

/-- A sum over everything charged is the sum over the threads. -/
theorem sum_charges {N : Type*} [AddCommMonoid N] (f : List Charge → N) (hnil : f [] = 0)
    (happend : ∀ chs chs', f (chs ++ chs') = f chs + f chs') (tids : List Tid) :
    f (self.charges binaries predicate tids) =
      (tids.map fun tid => f (self.threadCharges binaries predicate tid)).sum := by
  induction tids with
  | nil => exact hnil
  | cons tid tids ih =>
      rw [charges, List.flatMap_cons, happend, List.map_cons, List.sum_cons, ← ih]
      rfl

/-- A quantity of the result that is additive in the charges: the query over threads in any order
gives the sum of the single-thread queries. -/
theorem aggregateOver_additive {N : Type*} [AddCommMonoid N] {q : Aggregation → N}
    {f : List Charge → N} (hq : ∀ chs, q (ofCharges chs) = f chs) (hnil : f [] = 0)
    (happend : ∀ chs chs', f (chs ++ chs') = f chs + f chs') {order order' : List Tid}
    (horder : order.Perm self.threads.keys) (horder' : order'.Perm self.threads.keys) :
    q (self.aggregateOver order binaries predicate) =
      (order'.map fun tid => q (self.aggregate (some tid) binaries predicate)).sum := by
  have hsingle (tid : Tid) : q (self.aggregate (some tid) binaries predicate) =
      f (self.threadCharges binaries predicate tid) := by
    rw [aggregate_some self binaries predicate tid, hq]
  calc q (self.aggregateOver order binaries predicate)
      = f (self.charges binaries predicate order) := hq _
    _ = (order.map fun tid => f (self.threadCharges binaries predicate tid)).sum :=
        sum_charges self binaries predicate f hnil happend order
    _ = (order'.map fun tid => f (self.threadCharges binaries predicate tid)).sum :=
        ((horder.trans horder'.symm).map _).sum_eq
    _ = (order'.map fun tid => q (self.aggregate (some tid) binaries predicate)).sum :=
        congrArg List.sum (List.map_congr_left fun tid _ => (hsingle tid).symm)

/-- The tree over threads in any order is the merge of the single-thread trees. -/
theorem at_flameRoot_aggregateOver {order order' : List Tid}
    (horder : order.Perm self.threads.keys) (horder' : order'.Perm self.threads.keys)
    (p : List Addr) :
    (self.aggregateOver order binaries predicate).flameRoot.at p =
      (mergedFlameRoot (order'.map fun tid =>
        self.aggregate (some tid) binaries predicate)).at p := by
  have hcharges (a : Aggregation) (ha : a ∈ order'.map fun tid =>
      self.aggregate (some tid) binaries predicate) : ∃ chs, a = ofCharges chs := by
    obtain ⟨tid, -, rfl⟩ := List.mem_map.mp ha
    exact ⟨_, rfl⟩
  rcases p with _ | ⟨addr, path⟩
  · -- the root itself is never credited
    have hroot := counters_mergedFlameRoot fun a ha => by
      obtain ⟨chs, rfl⟩ := hcharges a ha
      exact counters_ofCharges chs
    show ((self.aggregateOver order binaries predicate).flameRoot.counters : WithZero Counters) =
      (mergedFlameRoot _).counters
    rw [hroot]
    exact congrArg _ (counters_ofCharges _)
  · rw [at_mergedFlameRoot (fun a ha => by
      obtain ⟨chs, rfl⟩ := hcharges a ha
      exact keyed_ofCharges chs) (List.cons_ne_nil addr path), List.map_map]
    refine aggregateOver_additive self binaries predicate
      (q := fun a => a.flameRoot.at (addr :: path))
      (f := fun chs => ((creditsOf chs).map fun c =>
        Trie.creditAt (addr :: path) c.stack.reverse c.delta).sum)
      (fun chs => at_flameRoot_ofCharges chs (List.cons_ne_nil addr path)) rfl ?_ horder horder'
    intro chs chs'
    simp only [creditsOf, List.flatMap_append, List.map_append, List.sum_append]

/-- The all-threads aggregation is the sum of the threads, in whatever order the thread map is
enumerated: the tree is the merge of the threads' trees, and the address entries and the totals are
the saturating sums.  So the order makes no difference. -/
theorem aggregate_all_threads {order order' : List Tid} (horder : order.Perm self.threads.keys)
    (horder' : order'.Perm self.threads.keys) :
    (∀ p, (self.aggregateOver order binaries predicate).flameRoot.at p =
      (mergedFlameRoot (order'.map fun tid =>
        self.aggregate (some tid) binaries predicate)).at p) ∧
    (∀ x, (self.aggregateOver order binaries predicate).byAddress.at x =
      (order'.map fun tid => (self.aggregate (some tid) binaries predicate).byAddress.at x).sum) ∧
    (self.aggregateOver order binaries predicate).totalOnCpuNs =
      (order'.map fun tid => (self.aggregate (some tid) binaries predicate).totalOnCpuNs).sum ∧
    (self.aggregateOver order binaries predicate).totalOffCpu =
      (order'.map fun tid => (self.aggregate (some tid) binaries predicate).totalOffCpu).sum ∧
    (self.aggregateOver order binaries predicate).Same
      (self.aggregate none binaries predicate) := by
  -- each part of an aggregation is additive in the charges, and so in the threads
  have htable (order : List Tid) (h : order.Perm self.threads.keys) (x : Addr) :
      (self.aggregateOver order binaries predicate).byAddress.at x =
        (order'.map fun tid =>
          (self.aggregate (some tid) binaries predicate).byAddress.at x).sum := by
    refine aggregateOver_additive self binaries predicate
      (q := fun a => a.byAddress.at x)
      (f := fun chs => ((creditsOf chs).map fun c => c.at x).sum)
      (fun chs => at_ofCharges chs x) rfl ?_ h horder'
    intro chs chs'
    simp only [creditsOf, List.flatMap_append, List.map_append, List.sum_append]
  have honCpu (order : List Tid) (h : order.Perm self.threads.keys) :
      (self.aggregateOver order binaries predicate).totalOnCpuNs =
        (order'.map fun tid =>
          (self.aggregate (some tid) binaries predicate).totalOnCpuNs).sum := by
    refine aggregateOver_additive self binaries predicate totalOnCpuNs_ofCharges rfl ?_ h horder'
    intro chs chs'
    rw [List.map_append, List.sum_append]
  have hoffCpu (order : List Tid) (h : order.Perm self.threads.keys) :
      (self.aggregateOver order binaries predicate).totalOffCpu =
        (order'.map fun tid =>
          (self.aggregate (some tid) binaries predicate).totalOffCpu).sum := by
    refine aggregateOver_additive self binaries predicate totalOffCpu_ofCharges rfl ?_ h horder'
    intro chs chs'
    rw [List.map_append, List.sum_append]
  have hkeys : self.threads.keys.Perm self.threads.keys := List.Perm.refl _
  refine ⟨at_flameRoot_aggregateOver self binaries predicate horder horder', htable order horder,
    honCpu order horder, hoffCpu order horder, ?_⟩
  refine ⟨fun p => ?_, fun x => ?_, ?_, ?_⟩
  · exact (at_flameRoot_aggregateOver self binaries predicate horder horder' p).trans
      (at_flameRoot_aggregateOver self binaries predicate hkeys horder' p).symm
  · exact (htable order horder x).trans (htable _ hkeys x).symm
  · exact (honCpu order horder).trans (honCpu _ hkeys).symm
  · exact (hoffCpu order horder).trans (hoffCpu _ hkeys).symm

/-- Two threads that share the frame `0xa0`. -/
def twoThreads : Aggregator := replay
  [.petSample 1 { timestampNs := 15, stack := [0xb0, 0xa0] },
    .interval 1 { startNs := 10, endNs := 20, kind := .onCpu },
    .petSample 2 { timestampNs := 17, stack := [0xc0, 0xa0] },
    .interval 2 { startNs := 14, endNs := 40, kind := .onCpu }]

theorem aggregate_all_threads_twoThreads :
    [1, 2].Perm twoThreads.threads.keys ∧ [2, 1].Perm twoThreads.threads.keys ∧
      (twoThreads.aggregateOver [1, 2] (fun _ => none) fun _ => true).totalOnCpuNs =
        ([2, 1].map fun tid =>
          (twoThreads.aggregate (some tid) (fun _ => none) fun _ => true).totalOnCpuNs).sum := by
  have hforward : [1, 2].Perm twoThreads.threads.keys := by decide
  have hbackward : [2, 1].Perm twoThreads.threads.keys := by decide
  exact ⟨hforward, hbackward,
    (aggregate_all_threads twoThreads (fun _ => none) (fun _ => true) hforward hbackward).2.2.1⟩

end Aggregator

end Stax.Live
