/-
# Stax.Live.AddressTable — the stack tree and the per-address table agree.

Both are sums over the same credits.  The table gives an address the credits whose stack passes it,
each once; in the tree those are the credits at the nodes of that address that have none above them.
The table's `self` counters are the credits whose stack has the address as its leaf; in the tree
those are what the nodes of that address hold beyond their children.  All this is exact as long as
the sums fit into a counter.
-/
import Stax.Live.Credits
import Stax.Lib.TrieWeights

namespace Stax.Live

open Stax.Lib Stax.Lib.Rose

/-! ## A tree counter by counter -/

/-- A counter of a tree entry, as a number. -/
def counterOf (k : Counter) (entry : Addr × Counters) : ℕ := (entry.2.get k).val

/-- The credits of one counter along the reversed stacks, as numbers. -/
def creditsAlong (k : Counter) (cs : List Credit) : List (List Addr × ℕ) :=
  cs.map fun c => (c.stack.reverse, (c.delta.get k).val)

/-- The exact sum of a counter over the credits whose stack passes `x`. -/
def passing (k : Counter) (x : Addr) (cs : List Credit) : ℕ :=
  (cs.map fun c => if x ∈ c.stack then (c.delta.get k).val else 0).sum

/-- No counter saturates: what each address's counters are to hold fits into a `u64`. -/
def Fits (cs : List Credit) : Prop := ∀ x k, passing k x cs ≤ u64Max

/-- Counter by counter, the tree of the credits is the trie of the exact numbers, as long as that
trie's numbers fit. -/
theorem mapForest_counterOf {cs : List Credit} {k : Counter}
    (h : ∀ n ∈ nodes (Trie.credit [] (creditsAlong k cs)), n.label.2 ≤ u64Max) :
    mapForest (Prod.map id fun c : Counters => (c.get k).val)
        (Trie.credit [] (cs.map Credit.path)) =
      Trie.credit [] (creditsAlong k cs) := by
  have hsat : Trie.mapValues (Counters.getHom k) (Trie.credit [] (cs.map Credit.path)) =
      Trie.mapValues (Sat.ofNatHom u64Max) (Trie.credit [] (creditsAlong k cs)) := by
    rw [Trie.mapValues_credit, Trie.mapValues_credit, Trie.mapValues_nil, Trie.mapValues_nil,
      creditsAlong, List.map_map, List.map_map]
    congr 1
    apply List.map_congr_left
    intro c _
    exact Prod.ext rfl (Sat.ofNat_val (c.delta.get k)).symm
  calc mapForest (Prod.map id fun c : Counters => (c.get k).val)
        (Trie.credit [] (cs.map Credit.path))
      = mapForest (Prod.map id Sat.val)
          (Trie.mapValues (Counters.getHom k) (Trie.credit [] (cs.map Credit.path))) := by
        rw [Trie.mapValues, mapForest_mapForest]
        rfl
    _ = mapForest (Prod.map id Sat.val)
          (Trie.mapValues (Sat.ofNatHom u64Max) (Trie.credit [] (creditsAlong k cs))) := by
        rw [hsat]
    _ = Trie.credit [] (creditsAlong k cs) := by
        rw [Trie.mapValues, mapForest_mapForest]
        refine mapForest_eq_self fun n hn => Prod.ext rfl ?_
        exact Sat.val_ofNat_eq (h n hn)

/-- What is credited along the reversed stacks passes the addresses of the stacks. -/
theorem firstSum_creditsAlong (k : Counter) (x : Addr) (cs : List Credit) :
    pathSum (Trie.firstEndsAt x) (fun n => Trie.value n.label)
        (Trie.credit [] (creditsAlong k cs)) = passing k x cs := by
  rw [Trie.firstSum_credit, creditsAlong, List.map_map, passing]
  simp [Function.comp_def]

theorem Fits.mapForest_eq {cs : List Credit} (h : Fits cs) (k : Counter) :
    mapForest (Prod.map id fun c : Counters => (c.get k).val)
        (Trie.credit [] (cs.map Credit.path)) =
      Trie.credit [] (creditsAlong k cs) := by
  refine mapForest_counterOf fun n hn => ?_
  have hle := Trie.value_le_firstSum (Trie.dominated_credit _ dominated_nil) hn
  rw [firstSum_creditsAlong] at hle
  exact hle.trans (h n.label.1 k)

/-! ## An address's entry counter by counter -/

/-- The counters of `x`, zero where it has no entry. -/
def ByAddress.stats (table : ByAddress) (x : Addr) : AddressStats := (table.lookup x).getD {}

/-- An absent entry counts as zero. -/
def presentHom : WithZero AddressStats →+ AddressStats := WithZero.lift (AddHom.id AddressStats)

@[simp] theorem presentHom_coe (s : AddressStats) : presentHom (s : WithZero AddressStats) = s :=
  WithZero.lift_coe _ s

theorem ByAddress.stats_eq (table : ByAddress) (x : Addr) :
    table.stats x = presentHom (table.at x) := by
  unfold ByAddress.stats ByAddress.at
  cases table.lookup x with
  | none => exact (map_zero presentHom).symm
  | some s => exact (presentHom_coe s).symm

/-- The exact sum of a counter over the credits whose stack has the leaf `x`. -/
def ending (k : Counter) (x : Addr) (cs : List Credit) : ℕ :=
  (cs.map fun c => if c.stack.head? = some x then (c.delta.get k).val else 0).sum

theorem ending_le_passing (k : Counter) (x : Addr) (cs : List Credit) :
    ending k x cs ≤ passing k x cs := by
  apply List.sum_le_sum
  intro c _
  split
  · rename_i hhead
    rw [if_pos (List.mem_of_mem_head? hhead)]
  · exact Nat.zero_le _

namespace Aggregation

theorem get_total_stats (chs : List Charge) (x : Addr) (k : Counter) :
    ((ofCharges chs).byAddress.stats x).total.get k =
      ((creditsOf chs).map fun c => if x ∈ c.stack then c.delta.get k else 0).sum := by
  have hhom := map_list_sum ((Counters.getHom k).comp (AddressStats.totalHom.comp presentHom))
    ((creditsOf chs).map fun c => c.at x)
  rw [List.map_map] at hhom
  rw [ByAddress.stats_eq, at_ofCharges]
  refine hhom.trans (congrArg List.sum (List.map_congr_left fun c _ => ?_))
  show (presentHom (c.at x)).total.get k = _
  unfold Credit.at
  split
  · rw [presentHom_coe]
  · exact Counters.get_zero k

/-- A counter of an address as a leaf is the sum over the credits whose stack ends in it. -/
theorem get_self_stats (chs : List Charge) (x : Addr) (k : Counter) :
    ((ofCharges chs).byAddress.stats x).self.get k =
      ((creditsOf chs).map fun c => if c.stack.head? = some x then c.delta.get k else 0).sum := by
  have hhom := map_list_sum ((Counters.getHom k).comp (AddressStats.selfHom.comp presentHom))
    ((creditsOf chs).map fun c => c.at x)
  rw [List.map_map] at hhom
  rw [ByAddress.stats_eq, at_ofCharges]
  refine hhom.trans (congrArg List.sum (List.map_congr_left fun c _ => ?_))
  show (presentHom (c.at x)).self.get k = _
  unfold Credit.at
  split
  · rw [presentHom_coe]
    show (if c.stack.head? = some x then c.delta else 0).get k = _
    split
    · rfl
    · exact Counters.get_zero k
  · rename_i hnot
    have hhead : ¬ c.stack.head? = some x := fun h => hnot (List.mem_of_mem_head? h)
    rw [if_neg hhead]
    exact Counters.get_zero k

/-- As long as the counters do not saturate, the totals of `x` are the credits that pass it. -/
theorem val_total_stats {chs : List Charge} (h : Fits (creditsOf chs)) (x : Addr) (k : Counter) :
    (((ofCharges chs).byAddress.stats x).total.get k).val = passing k x (creditsOf chs) := by
  have hmap : (((creditsOf chs).map fun c =>
      if x ∈ c.stack then c.delta.get k else 0).map Sat.val).sum = passing k x (creditsOf chs) := by
    rw [List.map_map]
    refine congrArg List.sum (List.map_congr_left fun c _ => ?_)
    show (if x ∈ c.stack then c.delta.get k else 0).val = _
    split <;> rfl
  rw [get_total_stats, Sat.val_sum_eq (hmap ▸ h x k), hmap]

/-- And the `self` counters of `x` are the credits that end in it. -/
theorem val_self_stats {chs : List Charge} (h : Fits (creditsOf chs)) (x : Addr) (k : Counter) :
    (((ofCharges chs).byAddress.stats x).self.get k).val = ending k x (creditsOf chs) := by
  have hmap : (((creditsOf chs).map fun c =>
      if c.stack.head? = some x then c.delta.get k else 0).map Sat.val).sum =
        ending k x (creditsOf chs) := by
    rw [List.map_map]
    refine congrArg List.sum (List.map_congr_left fun c _ => ?_)
    show (if c.stack.head? = some x then c.delta.get k else 0).val = _
    split <;> rfl
  have hle : ending k x (creditsOf chs) ≤ u64Max := (ending_le_passing k x _).trans (h x k)
  rw [get_self_stats, Sat.val_sum_eq (hmap ▸ hle), hmap]

/-- Every address on a credited stack has an entry. -/
theorem mem_byAddress_of_credit {chs : List Charge} {c : Credit} (hc : c ∈ creditsOf chs)
    {x : Addr} (hx : x ∈ c.stack) : x ∈ (ofCharges chs).byAddress := by
  have hne : (ofCharges chs).byAddress.at x ≠ 0 := by
    obtain ⟨pre, post, hsplit⟩ := List.append_of_mem hc
    rw [at_ofCharges, hsplit, List.map_append, List.sum_append, List.map_cons, List.sum_cons,
      Credit.at, if_pos hx, add_left_comm]
    generalize (pre.map fun c => c.at x).sum + (post.map fun c => c.at x).sum = rest
    cases rest with
    | zero => exact WithZero.coe_ne_zero
    | coe s => exact WithZero.coe_ne_zero
  by_contra hmem
  exact hne (AList.lookup_eq_none.mpr hmem)

/-- And every entry is that of such an address. -/
theorem exists_credit_of_mem_byAddress {chs : List Charge} {x : Addr}
    (hx : x ∈ (ofCharges chs).byAddress) : ∃ c ∈ creditsOf chs, x ∈ c.stack := by
  by_contra hnone
  push Not at hnone
  have hzero : (ofCharges chs).byAddress.at x = 0 := by
    rw [at_ofCharges]
    refine List.sum_eq_zero fun s hs => ?_
    obtain ⟨c, hc, rfl⟩ := List.mem_map.mp hs
    exact if_neg (hnone c hc)
  exact AList.lookup_eq_none.mp hzero hx

end Aggregation

/-! ## Tree and table -/

/-- The sum over distinct addresses of what a stack gives to its leaf. -/
theorem sum_leaf {keys : List Addr} (hnodup : keys.Nodup) (leaf : Option Addr) (d : ℕ)
    (hmem : ∀ x, leaf = some x → x ∈ keys) :
    (keys.map fun x => if leaf = some x then d else 0).sum = if leaf = none then 0 else d := by
  rcases leaf with _ | y
  · simp
  · have hy := hmem y rfl
    rw [if_neg (by simp)]
    clear hmem
    induction keys with
    | nil => cases hy
    | cons x keys ih =>
        obtain ⟨hx, hkeys⟩ := List.nodup_cons.mp hnodup
        rw [List.map_cons, List.sum_cons]
        rcases List.mem_cons.mp hy with rfl | hin
        · have hrest : (keys.map fun x => if some y = some x then d else 0).sum = 0 := by
            refine List.sum_eq_zero fun n hn => ?_
            obtain ⟨z, hz, rfl⟩ := List.mem_map.mp hn
            refine if_neg ?_
            rintro ⟨rfl⟩
            exact hx hz
          rw [if_pos rfl, hrest, Nat.add_zero]
        · have hne : ¬ some y = some x := by
            rintro ⟨rfl⟩
            exact hx hin
          rw [if_neg hne, Nat.zero_add, ih hkeys hin]

/-- The first nodes of `x` hold together the credits that pass `x`. -/
theorem Fits.firstSum_eq {cs : List Credit} (h : Fits cs) (k : Counter) (x : Addr) :
    pathSum (Trie.firstEndsAt x) (fun n => counterOf k n.label)
      (Trie.credit [] (cs.map Credit.path)) = passing k x cs := by
  rw [← firstSum_creditsAlong, ← h.mapForest_eq k, pathSum_mapForest]
  refine pathSum_congr (fun a p => (Trie.firstEndsAt_map _ (a :: p)).symm) fun n _ => ?_
  rw [label_map]
  rfl

/-- What the nodes of `x` hold beyond their children are the credits that end in `x`. -/
theorem Fits.selfSum_eq {cs : List Credit} (h : Fits cs) (k : Counter) (x : Addr) :
    pathSum (Trie.endsAt x) (selfWeight (counterOf k))
      (Trie.credit [] (cs.map Credit.path)) = ending k x cs := by
  have hideal : pathSum (Trie.endsAt x) (selfWeight Trie.value)
      (Trie.credit [] (creditsAlong k cs)) = ending k x cs := by
    rw [Trie.selfSum_credit, creditsAlong, List.map_map, ending]
    simp [Function.comp_def]
  rw [← hideal, ← h.mapForest_eq k, pathSum_mapForest]
  refine pathSum_congr (fun a p => (Trie.endsAt_map _ (a :: p)).symm) fun n _ => ?_
  rw [selfWeight, selfWeight, label_map, children_map, weight_mapForest]
  rfl

theorem Fits.dominated {cs : List Credit} (h : Fits cs) (k : Counter) :
    Dominated (counterOf k) (Trie.credit [] (cs.map Credit.path)) := by
  have hideal : Dominated Trie.value (Trie.credit [] (creditsAlong k cs)) :=
    Trie.dominated_credit _ dominated_nil
  rw [← h.mapForest_eq k, dominated_mapForest] at hideal
  exact hideal

/-- The root's children hold together every credit with a stack. -/
theorem Fits.weight_eq {cs : List Credit} (h : Fits cs) (k : Counter) :
    weight (counterOf k) (Trie.credit [] (cs.map Credit.path)) =
      (cs.map fun c => if c.stack.head? = none then 0 else (c.delta.get k).val).sum := by
  have hweight := Trie.weight_credit (creditsAlong k cs)
  rw [← h.mapForest_eq k, weight_mapForest, creditsAlong, List.map_map] at hweight
  refine hweight.trans (congrArg List.sum (List.map_congr_left fun c _ => ?_))
  simp

namespace Aggregator

/-- The stack tree and the address table agree, as long as no counter saturates.  For every address
`x` and counter `k`: the table's total is the sum over the nodes of `x` that have no node of `x`
above them, its `self` value the sum over all nodes of `x` of what they hold beyond their children
(and every node holds at least what its children hold), so `self` is at most the total, and the
`self` values of all addresses sum to what the root's children hold. -/
theorem tree_agrees_with_table (self : Aggregator) (tid : Option Tid) (binaries : BinaryRegistry)
    (predicate : EventCtx → Bool)
    (hfits : Fits (Aggregation.creditsOf
      (self.charges binaries predicate (self.selected tid)))) (k : Counter) :
    let agg := self.aggregate tid binaries predicate
    let tree := agg.flameRoot.children
    (∀ x, ((agg.byAddress.stats x).total.get k).val =
      pathSum (Trie.firstEndsAt x) (fun n => counterOf k n.label) tree) ∧
    (∀ x, ((agg.byAddress.stats x).self.get k).val =
      pathSum (Trie.endsAt x) (selfWeight (counterOf k)) tree) ∧
    Dominated (counterOf k) tree ∧
    (∀ x, ((agg.byAddress.stats x).self.get k).val ≤ ((agg.byAddress.stats x).total.get k).val) ∧
    (agg.byAddress.keys.map fun x => ((agg.byAddress.stats x).self.get k).val).sum =
      weight (counterOf k) tree := by
  intro agg tree
  set chs := self.charges binaries predicate (self.selected tid) with hchs
  have htree : tree = Trie.credit [] ((Aggregation.creditsOf chs).map Credit.path) := by
    show (Aggregation.ofCharges chs).flameRoot.children = _
    rw [Aggregation.flameRoot_ofCharges]
  have htotal (x : Addr) : ((agg.byAddress.stats x).total.get k).val =
      passing k x (Aggregation.creditsOf chs) := Aggregation.val_total_stats hfits x k
  have hself (x : Addr) : ((agg.byAddress.stats x).self.get k).val =
      ending k x (Aggregation.creditsOf chs) := Aggregation.val_self_stats hfits x k
  rw [htree]
  refine ⟨fun x => ?_, fun x => ?_, hfits.dominated k, fun x => ?_, ?_⟩
  · rw [htotal, hfits.firstSum_eq]
  · rw [hself, hfits.selfSum_eq]
  · rw [htotal, hself]
    exact ending_le_passing k x _
  · -- each credit goes to exactly one address, its leaf
    rw [hfits.weight_eq]
    simp only [hself, ending]
    have hswap := Multiset.sum_map_sum_map (agg.byAddress.keys : Multiset Addr)
      (Aggregation.creditsOf chs : Multiset Credit)
      (f := fun x c => if c.stack.head? = some x then (c.delta.get k).val else 0)
    simp only [Multiset.map_coe, Multiset.sum_coe] at hswap
    rw [hswap]
    refine congrArg List.sum (List.map_congr_left fun c hc => ?_)
    refine sum_leaf agg.byAddress.keys_nodup c.stack.head? _ fun x hx => ?_
    exact AList.mem_keys.mp (Aggregation.mem_byAddress_of_credit hc (List.mem_of_mem_head? hx))

/-- One sample of a recursive stack inside an interval of ten nanoseconds. -/
def recursiveStack : Aggregator := replay
  [.petSample 1 { timestampNs := 15, stack := [0xa0, 0xb0, 0xa0] },
    .interval 1 { startNs := 10, endNs := 20, kind := .onCpu }]

theorem tree_agrees_with_table_recursiveStack :
    Fits (Aggregation.creditsOf
      (recursiveStack.charges (fun _ => none) (fun _ => true) (recursiveStack.selected none))) ∧
    (((recursiveStack.aggregate none (fun _ => none) fun _ => true).byAddress.stats
        0xa0).total.get .onCpuNs).val =
      pathSum (Trie.firstEndsAt 0xa0) (fun n => counterOf .onCpuNs n.label)
        (recursiveStack.aggregate none (fun _ => none) fun _ => true).flameRoot.children := by
  have hcredits : Aggregation.creditsOf
      (recursiveStack.charges (fun _ => none) (fun _ => true) (recursiveStack.selected none)) =
        [⟨[0xa0, 0xb0, 0xa0], Counters.ofSample 10 {}⟩] := by
    decide +kernel
  have hfits : Fits (Aggregation.creditsOf
      (recursiveStack.charges (fun _ => none) (fun _ => true) (recursiveStack.selected none))) := by
    rw [hcredits]
    intro x k
    have hle := ((Counters.ofSample 10 {}).get k).le
    simp only [passing, List.map_cons, List.map_nil, List.sum_cons, List.sum_nil]
    split <;> omega
  exact ⟨hfits, (tree_agrees_with_table recursiveStack none (fun _ => none) (fun _ => true) hfits
    .onCpuNs).1 0xa0⟩

end Aggregator

end Stax.Live
