/-
# Stax.Live.FamilyWeights — what the nodes of a family tree weigh, and which of them are sent.

A node of the callers stands for a chain of callers, innermost first, and carries what the target's
nodes with such ancestors carry; a node of the callees stands for a way down from the target, and
carries what the nodes at its end carry.  Where the stack tree's nodes hold at least what their
children hold, so do both trees, up to their roots.  So a child never outweighs its parent, and
leaving out light children level by level leaves out exactly the light nodes.
-/
import Stax.Live.AddressTable
import Stax.Live.SentTrees

namespace Stax.Live

open Stax.Lib Stax.Lib.Rose

/-! ## The nodes behind a path -/

/-- The target's nodes whose ancestors, innermost first, begin with the symbols of a path. -/
def callersWith (binaries : BinaryRegistry) (targetKey : SymbolKey)
    (f : List (Rose (Addr × Counters))) (p : List SymbolKey) : List (Rose (Addr × Counters)) :=
  ((walkForest f).filter fun n => isTarget binaries targetKey n.2.label &&
    decide (p <+: n.1.dropLast.reverse.map (keyOf binaries))).map Prod.snd

/-- The nodes at the end of the ways down from the target that resolve to a path, once for each. -/
def descentsTo (binaries : BinaryRegistry) (targetKey : SymbolKey)
    (f : List (Rose (Addr × Counters))) (p : List SymbolKey) : List (Rose (Addr × Counters)) :=
  ((nodes f).filter fun t => isTarget binaries targetKey t.label).flatMap fun t =>
    ((walkForest t.children).filter fun m => m.1.map (keyOf binaries) = p).map Prod.snd

/-- A counter of the family tree, in the stack tree. -/
def familyCount (k : Counter) (a : Addr × Counters) : ℕ := ((timed a).get k).val

/-- A counter of a symbol node. -/
def nodeCount (k : Counter) (e : SymbolKey × SymbolNode) : ℕ := (e.2.acc.counters.get k).val

section Merge

variable {binaries : BinaryRegistry}

/-! ## Merging keeps what is at a path -/

theorem mem_walkForest_merge {f : List (Rose (Addr × Counters))}
    {n : List (SymbolKey × SymbolNode) × Rose (SymbolKey × SymbolNode)} :
    n ∈ walkForest (mergeDescendants binaries [] f) ↔
      ∃ k, withKey (keyOf binaries) k f ≠ [] ∧
        let t := mergedNode binaries (k, withKey (keyOf binaries) k f)
        (n = ([t.label], t) ∨
          ∃ m ∈ walkForest (mergeDescendants binaries [] (belowKey (keyOf binaries) k f)),
            n = (t.label :: m.1, m.2)) := by
  rw [mem_walkForest]
  constructor
  · rintro ⟨t, ht, hn⟩
    obtain ⟨k, hk, rfl⟩ := mem_mergeDescendants.mp ht
    exact ⟨k, hk, hn⟩
  · rintro ⟨k, hk, hn⟩
    exact ⟨_, mem_mergeDescendants.mpr ⟨k, hk, rfl⟩, hn⟩

theorem acc_mergedNode (k : SymbolKey) (ts : List (Rose (Addr × Counters))) :
    (mergedNode binaries (k, ts)).label.2.acc.counters = (ts.map fun t => timed t.label).sum := by
  unfold mergedNode
  rw [label_node, acc_accumulateAll]
  show ((ts.map label).map timed).sum = _
  rw [List.map_map]
  rfl

/-- A merged node carries what the nodes at its path carry. -/
theorem counters_walk_merge {f : List (Rose (Addr × Counters))}
    {n : List (SymbolKey × SymbolNode) × Rose (SymbolKey × SymbolNode)}
    (hn : n ∈ walkForest (mergeDescendants binaries [] f)) :
    n.2.label.2.acc.counters =
      pathSum (atKeys (keyOf binaries) (n.1.map Prod.fst)) (fun t => timed t.label) f := by
  induction f using groupTree_induction (keyOf binaries) generalizing n with
  | step f ih =>
      obtain ⟨k, hk, rfl | ⟨m, hm, rfl⟩⟩ := mem_walkForest_merge.mp hn
      · show (mergedNode binaries (k, withKey (keyOf binaries) k f)).label.2.acc.counters =
          pathSum (atKeys (keyOf binaries) [k]) _ f
        rw [acc_mergedNode, pathSum_atKeys_group, if_pos rfl, pathSum_atKeys_nil, add_zero]
      · have hne : m.1.map Prod.fst ≠ [] := by
          rw [Ne, List.map_eq_nil_iff]
          exact path_ne_nil hm
        show m.2.label.2.acc.counters =
          pathSum (atKeys (keyOf binaries) (k :: m.1.map Prod.fst)) _ f
        rw [pathSum_atKeys_group, if_neg hne, zero_add]
        exact ih k hk hm

/-- There is a merged node at a path where there is a node at it. -/
theorem exists_walk_merge_iff {f : List (Rose (Addr × Counters))} {p : List SymbolKey} :
    (∃ n ∈ walkForest (mergeDescendants binaries [] f), n.1.map Prod.fst = p) ↔
      ∃ n ∈ walkForest f, n.1.map (keyOf binaries) = p := by
  induction f using groupTree_induction (keyOf binaries) generalizing p with
  | step f ih =>
      cases p with
      | nil =>
          constructor
          · rintro ⟨n, hn, hp⟩
            exact absurd (List.map_eq_nil_iff.mp hp) (path_ne_nil hn)
          · rintro ⟨n, hn, hp⟩
            exact absurd (List.map_eq_nil_iff.mp hp) (path_ne_nil hn)
      | cons k ks =>
          rw [exists_atKeys_group (f := f)]
          constructor
          · rintro ⟨n, hn, hp⟩
            obtain ⟨k', hk, rfl | ⟨m, hm, rfl⟩⟩ := mem_walkForest_merge.mp hn
            · obtain ⟨rfl, rfl⟩ := List.cons_eq_cons.mp hp
              exact ⟨hk, Or.inl rfl⟩
            · obtain ⟨rfl, hks⟩ := List.cons_eq_cons.mp hp
              exact ⟨hk, Or.inr ((ih _ hk).mp ⟨m, hm, hks⟩)⟩
          · rintro ⟨hk, rfl | hbelow⟩
            · exact ⟨_, mem_walkForest_merge.mpr ⟨k, hk, Or.inl rfl⟩, rfl⟩
            · obtain ⟨m, hm, hks⟩ := (ih k hk).mpr hbelow
              refine ⟨_, mem_walkForest_merge.mpr ⟨k, hk, Or.inr ⟨m, hm, rfl⟩⟩, ?_⟩
              show k :: m.1.map Prod.fst = k :: ks
              rw [hks]

/-- Siblings have different symbols. -/
theorem siblingsDistinct_merge (f : List (Rose (Addr × Counters))) :
    SiblingsDistinct Prod.fst (mergeDescendants binaries [] f) := by
  induction f using groupTree_induction (keyOf binaries) with
  | step f ih =>
      rw [siblingsDistinct_iff]
      constructor
      · have hkeys : (mergeDescendants binaries [] f).map (fun t => t.label.1) =
            (collect binaries f).map Prod.fst := by
          rw [mergeDescendants_eq, List.map_map]
          rfl
        rw [hkeys]
        exact nodup_collect f
      · intro t ht
        obtain ⟨k, hk, rfl⟩ := mem_mergeDescendants.mp ht
        exact ih k hk

end Merge

/-! ## What is at a path of callers, and of callees -/

section Paths

variable {binaries : BinaryRegistry} {targetKey : SymbolKey}
variable {M : Type*} [AddCommMonoid M] (g : Counters → M)

/-- A chain carries its counters as far as it goes. -/
theorem pathSum_chain (src : Counters) (ancestors : List Addr) {p : List SymbolKey} (hp : p ≠ []) :
    pathSum (atKeys (keyOf binaries) p) (fun t => g t.label.2) (chain src ancestors) =
      if p <+: ancestors.map (symbolOf binaries) then g src else 0 := by
  induction ancestors generalizing p with
  | nil =>
      have hnot : ¬ p <+: [] := by
        rw [List.prefix_nil]
        exact hp
      rw [chain, pathSum_nil, List.map_nil, if_neg hnot]
  | cons x ancestors ih =>
      obtain ⟨k, ks, rfl⟩ := List.exists_cons_of_ne_nil hp
      have hbegins : k :: ks <+: (x :: ancestors).map (symbolOf binaries) ↔
          k = symbolOf binaries x ∧ ks <+: ancestors.map (symbolOf binaries) := List.cons_prefix_cons
      rw [chain, pathSum_atKeys_cons, List.map_singleton, List.sum_singleton, label_node,
        children_node]
      by_cases hk : symbolOf binaries x = k
      · have hkey : keyOf binaries (x, src) = k := hk
        rw [if_pos hkey]
        cases ks with
        | nil =>
            rw [if_pos rfl, pathSum_atKeys_nil, add_zero,
              if_pos (hbegins.mpr ⟨hk.symm, List.nil_prefix⟩)]
        | cons k' ks =>
            rw [if_neg (List.cons_ne_nil k' ks), zero_add, ih (List.cons_ne_nil k' ks)]
            exact if_congr (by rw [hbegins, hk, eq_self, true_and]) rfl rfl
      · have hkey : ¬ keyOf binaries (x, src) = k := hk
        rw [if_neg hkey, if_neg fun h => hk (hbegins.mp h).1.symm]

/-- The target's nodes whose ancestors, and then the given ones, begin with a path. -/
def callersBelow (binaries : BinaryRegistry) (targetKey : SymbolKey) (ancestors : List Addr)
    (f : List (Rose (Addr × Counters))) (p : List SymbolKey) :
    List (List (Addr × Counters) × Rose (Addr × Counters)) :=
  (walkForest f).filter fun n => isTarget binaries targetKey n.2.label &&
    decide (p <+: n.1.dropLast.reverse.map (keyOf binaries) ++ ancestors.map (symbolOf binaries))

/-- The target's nodes whose ancestors begin with a path: at the root of the first tree, below it,
and in the rest. -/
theorem callersBelow_cons (ancestors : List Addr) (a : Addr × Counters)
    (cs ts : List (Rose (Addr × Counters))) (p : List SymbolKey) :
    callersBelow binaries targetKey ancestors (node a cs :: ts) p =
      (if isTarget binaries targetKey a && decide (p <+: ancestors.map (symbolOf binaries))
        then [([a], node a cs)] else []) ++
      (callersBelow binaries targetKey (a.1 :: ancestors) cs p).map (fun n => (a :: n.1, n.2)) ++
      callersBelow binaries targetKey ancestors ts p := by
  unfold callersBelow
  have hbelow : ((walkForest cs).map fun n => (a :: n.1, n.2)).filter (fun n =>
        isTarget binaries targetKey n.2.label &&
          decide (p <+: n.1.dropLast.reverse.map (keyOf binaries) ++
            ancestors.map (symbolOf binaries))) =
      ((walkForest cs).filter fun n => isTarget binaries targetKey n.2.label &&
        decide (p <+: n.1.dropLast.reverse.map (keyOf binaries) ++
          (a.1 :: ancestors).map (symbolOf binaries))).map fun n => (a :: n.1, n.2) := by
    rw [List.filter_map]
    congr 1
    apply List.filter_congr
    intro n hn
    show (isTarget binaries targetKey n.2.label && decide (p <+: (a :: n.1).dropLast.reverse.map
      (keyOf binaries) ++ ancestors.map (symbolOf binaries))) = _
    rw [List.dropLast_cons_of_ne_nil (path_ne_nil hn), List.reverse_cons, List.map_append,
      List.append_assoc]
    rfl
  rw [walkForest_cons, List.filter_append, List.filter_cons, hbelow]
  show (if isTarget binaries targetKey a && decide (p <+: ancestors.map (symbolOf binaries))
    then ([a], node a cs) :: _ else _) ++ _ = _
  split_ifs <;> rfl

/-- The forest of ancestors holds at a path what the target's nodes with such ancestors carry. -/
theorem pathSum_callerForest {p : List SymbolKey} (hp : p ≠ []) (ancestors : List Addr)
    {f : List (Rose (Addr × Counters))} (hframes : ∀ n ∈ nodes f, n.label.1 ≠ 0) :
    pathSum (atKeys (keyOf binaries) p) (fun t => g t.label.2)
        (callerForest binaries targetKey ancestors f) =
      ((callersBelow binaries targetKey ancestors f p).map fun n => g n.2.label.2).sum := by
  induction f using forest_induction generalizing ancestors with
  | nil => simp [callersBelow]
  | cons a cs ts ihc iht =>
      obtain ⟨ha, hcs, hts⟩ := forall_nodes_cons.mp hframes
      have hpush : push a.1 ancestors = a.1 :: ancestors := if_pos ha
      have hhere : pathSum (atKeys (keyOf binaries) p) (fun t => g t.label.2)
            (if isTarget binaries targetKey a then chain a.2 ancestors else []) =
          ((if isTarget binaries targetKey a && decide (p <+: ancestors.map (symbolOf binaries))
            then [([a], node a cs)] else []).map fun n => g n.2.label.2).sum := by
        by_cases htarget : isTarget binaries targetKey a
        · rw [if_pos htarget, pathSum_chain g a.2 ancestors hp, htarget, Bool.true_and]
          by_cases hbegins : p <+: ancestors.map (symbolOf binaries)
          · rw [if_pos hbegins, if_pos (decide_eq_true hbegins), List.map_singleton,
              List.sum_singleton]
            rfl
          · rw [if_neg hbegins, if_neg (by simp [hbegins]), List.map_nil, List.sum_nil]
        · rw [if_neg htarget, if_neg (by simp [htarget]), pathSum_nil, List.map_nil, List.sum_nil]
      rw [callerForest_cons, pathSum_append, pathSum_append, hhere, hpush,
        ihc (a.1 :: ancestors) hcs, iht ancestors hts, callersBelow_cons, List.map_append,
        List.map_append, List.sum_append, List.sum_append, List.map_map]
      rfl

theorem map_callersBelow (f : List (Rose (Addr × Counters))) (p : List SymbolKey) :
    (callersBelow binaries targetKey [] f p).map Prod.snd =
      callersWith binaries targetKey f p := by
  unfold callersBelow callersWith
  simp only [List.map_nil, List.append_nil]

/-- What the target's nodes have below them holds at a path what the ways down to it carry. -/
theorem pathSum_calleeForest (p : List SymbolKey) (f : List (Rose (Addr × Counters))) :
    pathSum (atKeys (keyOf binaries) p) (fun t => g t.label.2)
        (calleeForest binaries targetKey f) =
      ((descentsTo binaries targetKey f p).map fun m => g m.label.2).sum := by
  unfold calleeForest descentsTo
  rw [pathSum_flatMap]
  generalize (nodes f).filter (fun t => isTarget binaries targetKey t.label) = targets
  induction targets with
  | nil => simp
  | cons t targets ih =>
      rw [List.map_cons, List.sum_cons, ih, List.flatMap_cons, List.map_append, List.sum_append,
        List.map_map]
      rfl

/-- There is a node at a key path where their number is not zero. -/
theorem exists_atKeys_iff {f : List (Rose (Addr × Counters))} {p : List SymbolKey} :
    (∃ n ∈ walkForest f, n.1.map (keyOf binaries) = p) ↔
      pathSum (atKeys (keyOf binaries) p) (fun _ => 1) f ≠ 0 := by
  unfold pathSum
  rw [List.map_const', List.sum_replicate, smul_eq_mul, mul_one, Ne, List.length_eq_zero_iff,
    List.filter_eq_nil_iff]
  push Not
  exact exists_congr fun n => and_congr_right fun _ => (decide_eq_true_iff (p := _ = p)).symm

theorem exists_callerForest {p : List SymbolKey} (hp : p ≠ [])
    {f : List (Rose (Addr × Counters))} (hframes : ∀ n ∈ nodes f, n.label.1 ≠ 0) :
    (∃ n ∈ walkForest (callerForest binaries targetKey [] f), n.1.map (keyOf binaries) = p) ↔
      callersWith binaries targetKey f p ≠ [] := by
  rw [exists_atKeys_iff]
  have hcount := @pathSum_callerForest binaries targetKey ℕ _ (fun _ => 1) p hp [] f hframes
  rw [hcount, List.map_const', List.sum_replicate, smul_eq_mul, mul_one, Ne,
    List.length_eq_zero_iff, ← map_callersBelow, Ne, List.map_eq_nil_iff]

theorem exists_calleeForest (p : List SymbolKey) (f : List (Rose (Addr × Counters))) :
    (∃ n ∈ walkForest (calleeForest binaries targetKey f), n.1.map (keyOf binaries) = p) ↔
      descentsTo binaries targetKey f p ≠ [] := by
  rw [exists_atKeys_iff]
  have hcount := @pathSum_calleeForest binaries targetKey ℕ _ (fun _ => 1) p f
  rw [hcount, List.map_const', List.sum_replicate, smul_eq_mul, mul_one, Ne,
    List.length_eq_zero_iff]

end Paths

/-! ## Dominance -/

section Dominance

variable {binaries : BinaryRegistry} {targetKey : SymbolKey} {k : Counter}

/-- A sum of counters is the exact one where that fits. -/
theorem val_get_sum {cs : List Counters} (hfits : (cs.map fun c => (c.get k).val).sum ≤ u64Max) :
    (cs.sum.get k).val = (cs.map fun c => (c.get k).val).sum := by
  have hhom := map_list_sum (Counters.getHom k) cs
  have hget : cs.sum.get k = (cs.map fun c => c.get k).sum := hhom
  rw [hget, Sat.val_sum, List.map_map]
  exact Nat.min_eq_left hfits

theorem val_get_sum_le (cs : List Counters) :
    (cs.sum.get k).val ≤ (cs.map fun c => (c.get k).val).sum := by
  have hhom := map_list_sum (Counters.getHom k) cs
  have hget : cs.sum.get k = (cs.map fun c => c.get k).sum := hhom
  rw [hget]
  exact (Sat.val_sum_le _).trans (le_of_eq (by rw [List.map_map]; rfl))

/-- What the groups of a forest hold is at most what its trees hold. -/
theorem weight_merge_le (f : List (Rose (Addr × Counters))) :
    weight (nodeCount k) (mergeDescendants binaries [] f) ≤ weight (familyCount k) f := by
  have hone (e : SymbolKey × List (Rose (Addr × Counters))) (he : e ∈ collect binaries f) :
      nodeCount k (mergedNode binaries e).label ≤
        ((Grouping.members (fun t : Rose (Addr × Counters) => keyOf binaries t.label) e.1 f).map
          fun t => familyCount k t.label).sum := by
    have hmembers := (mem_collect.mp he).1
    have hle := @val_get_sum_le k (e.2.map fun t => timed t.label)
    rw [← acc_mergedNode e.1 e.2, List.map_map] at hle
    refine hle.trans (le_of_eq ?_)
    rw [hmembers]
    rfl
  rw [mergeDescendants_eq, weight, List.map_map]
  calc ((collect binaries f).map _).sum
      ≤ ((collect binaries f).map fun e => ((Grouping.members
          (fun t : Rose (Addr × Counters) => keyOf binaries t.label) e.1 f).map
            fun t => familyCount k t.label).sum).sum := List.sum_le_sum hone
    _ = (((collect binaries f).map Prod.fst).map fun key => ((Grouping.members
          (fun t : Rose (Addr × Counters) => keyOf binaries t.label) key f).map
            fun t => familyCount k t.label).sum).sum := by rw [List.map_map]; rfl
    _ = weight (familyCount k) f := by
        refine Grouping.sum_members _ (nodup_collect f) fun t ht => ?_
        refine List.mem_map.mpr ⟨(keyOf binaries t.label, withKey (keyOf binaries) _ f),
          mem_collect.mpr ⟨rfl, ?_⟩, rfl⟩
        exact List.ne_nil_of_mem (mem_withKey.mpr ⟨ht, rfl⟩)

theorem dominated_belowKey {w : Addr × Counters → ℕ} {f : List (Rose (Addr × Counters))}
    (h : Dominated w f) (key : SymbolKey) :
    weight w (belowKey (keyOf binaries) key f) ≤
        ((withKey (keyOf binaries) key f).map fun t => w t.label).sum ∧
      Dominated w (belowKey (keyOf binaries) key f) := by
  have hwith : Dominated w (withKey (keyOf binaries) key f) :=
    dominated_iff.mpr fun t ht => dominated_iff.mp h t (mem_withKey.mp ht).1
  constructor
  · rw [belowKey, List.flatMap_def, weight_flatten, List.map_map]
    exact List.sum_le_sum fun t ht => (dominated_iff.mp hwith t ht).1
  · refine dominated_iff.mpr fun t ht => ?_
    obtain ⟨u, hu, ht⟩ := List.mem_flatMap.mp ht
    exact dominated_iff.mp (dominated_iff.mp hwith u hu).2 t ht

theorem sum_withKey_le (w : Addr × Counters → ℕ) (f : List (Rose (Addr × Counters)))
    (key : SymbolKey) :
    ((withKey (keyOf binaries) key f).map fun t => w t.label).sum ≤ weight w f :=
  (List.filter_sublist.map _).sum_le_sum fun _ _ => Nat.zero_le _

/-- Merging keeps dominance, as long as nothing saturates. -/
theorem dominated_merge {f : List (Rose (Addr × Counters))} (h : Dominated (familyCount k) f)
    (hfits : weight (familyCount k) f ≤ u64Max) :
    Dominated (nodeCount k) (mergeDescendants binaries [] f) := by
  induction f using groupTree_induction (keyOf binaries) with
  | step f ih =>
      refine dominated_iff.mpr fun t ht => ?_
      obtain ⟨key, hkey, rfl⟩ := mem_mergeDescendants.mp ht
      obtain ⟨hle, hbelow⟩ := @dominated_belowKey binaries _ _ h key
      have hmembers := (@sum_withKey_le binaries (familyCount k) f key).trans hfits
      have hval : nodeCount k
          (mergedNode binaries (key, withKey (keyOf binaries) key f)).label =
          ((withKey (keyOf binaries) key f).map fun t => familyCount k t.label).sum := by
        show ((mergedNode binaries _).label.2.acc.counters.get k).val = _
        rw [acc_mergedNode, val_get_sum, List.map_map]
        · rfl
        · rw [List.map_map]
          exact hmembers
      refine ⟨?_, ih key hkey hbelow (hle.trans hmembers)⟩
      rw [hval]
      exact (weight_merge_le _).trans hle

/-! ### The two forests -/

theorem familyCount_chain (x : Addr) (a : Addr × Counters) :
    familyCount k (x, a.2) = familyCount k a :=
  rfl

theorem dominated_chain (a : Addr × Counters) (ancestors : List Addr) :
    Dominated (familyCount k) (chain a.2 ancestors) := by
  induction ancestors with
  | nil => exact dominated_nil
  | cons x ancestors ih =>
      rw [chain]
      refine dominated_cons.mpr ⟨?_, ih, dominated_nil⟩
      cases ancestors with
      | nil => exact Nat.zero_le _
      | cons y ancestors =>
          rw [chain, weight_cons, weight_nil, label_node, add_zero, familyCount_chain]
          exact le_refl _

theorem weight_chain_le (a : Addr × Counters) (ancestors : List Addr) :
    weight (familyCount k) (chain a.2 ancestors) ≤ familyCount k a := by
  cases ancestors with
  | nil => exact Nat.zero_le _
  | cons x ancestors =>
      rw [chain, weight_cons, weight_nil, label_node, add_zero, familyCount_chain]

/-- Chains of ancestors are dominated, and hold at most what the target's nodes hold. -/
theorem dominated_callerForest (ancestors : List Addr) (f : List (Rose (Addr × Counters))) :
    Dominated (familyCount k) (callerForest binaries targetKey ancestors f) ∧
      weight (familyCount k) (callerForest binaries targetKey ancestors f) ≤
        ((ownEntries binaries targetKey f).map (familyCount k)).sum := by
  induction f using forest_induction generalizing ancestors with
  | nil => simp [dominated_nil]
  | cons a cs ts ihc iht =>
      obtain ⟨hcs, hcsle⟩ := ihc (push a.1 ancestors)
      obtain ⟨hts, htsle⟩ := iht ancestors
      have hhere : Dominated (familyCount k)
            (if isTarget binaries targetKey a then chain a.2 ancestors else []) ∧
          weight (familyCount k)
            (if isTarget binaries targetKey a then chain a.2 ancestors else []) ≤
            ((if isTarget binaries targetKey a then [a] else []).map (familyCount k)).sum := by
        split_ifs
        · refine ⟨dominated_chain a ancestors, ?_⟩
          rw [List.map_singleton, List.sum_singleton]
          exact weight_chain_le a ancestors
        · exact ⟨dominated_nil, Nat.zero_le _⟩
      rw [callerForest_cons, ownEntries_cons, dominated_append, dominated_append, weight_append,
        weight_append, List.map_append, List.map_append, List.sum_append, List.sum_append]
      exact ⟨⟨⟨hhere.1, hcs⟩, hts⟩, by omega⟩

/-- So is what the target's nodes have below them. -/
theorem dominated_calleeForest {f : List (Rose (Addr × Counters))}
    (h : Dominated (familyCount k) f) :
    Dominated (familyCount k) (calleeForest binaries targetKey f) ∧
      weight (familyCount k) (calleeForest binaries targetKey f) ≤
        ((ownEntries binaries targetKey f).map (familyCount k)).sum := by
  constructor
  · intro n hn
    exact h n (mem_nodes_calleeForest hn)
  · unfold calleeForest ownEntries
    rw [List.flatMap_def, weight_flatten, List.map_map, List.map_map]
    apply List.sum_le_sum
    intro t ht
    exact h t (List.mem_filter.mp ht).1

theorem mem_nodes_of_trees {f g : List (Rose (Addr × Counters))} (h : ∀ u ∈ g, u ∈ nodes f)
    {n : Rose (Addr × Counters)} (hn : n ∈ nodes g) : n ∈ nodes f := by
  induction g using forest_induction with
  | nil => simp at hn
  | cons a cs ts ihc iht =>
      rw [List.forall_mem_cons] at h
      rw [nodes_cons, List.mem_cons, List.mem_append] at hn
      rcases hn with rfl | hn | hn
      · exact h.1
      · exact ihc (fun u hu => mem_nodes_of_child h.1 hu) hn
      · exact iht h.2 hn

/-- What is behind a path of callers or callees is at most what the target's nodes hold. -/
theorem sum_callersWith_le (f : List (Rose (Addr × Counters))) (p : List SymbolKey) :
    ((callersWith binaries targetKey f p).map fun m => familyCount k m.label).sum ≤
      ((ownEntries binaries targetKey f).map (familyCount k)).sum := by
  unfold callersWith ownEntries nodes
  rw [List.map_map, List.filter_map, List.map_map, List.map_map]
  refine List.Sublist.sum_le_sum (List.Sublist.map _ ?_) fun _ _ => Nat.zero_le _
  rw [← List.filter_filter]
  exact List.filter_sublist.filter _

/-- All ways down from the target along a path carry no more than the target. -/
theorem sum_descentsTo_le {f : List (Rose (Addr × Counters))} (h : Dominated (familyCount k) f)
    (p : List SymbolKey) :
    ((descentsTo binaries targetKey f p).map fun m => familyCount k m.label).sum ≤
      ((ownEntries binaries targetKey f).map (familyCount k)).sum := by
  unfold descentsTo ownEntries
  rw [List.flatMap_def, List.map_flatten, List.sum_flatten, List.map_map, List.map_map,
    List.map_map]
  apply List.sum_le_sum
  intro t ht
  have ht := (List.mem_filter.mp ht).1
  have hbelow : Dominated (familyCount k) t.children := by
    intro n hn
    exact h n (mem_nodes_of_trees (fun u hu => mem_nodes_of_child ht hu) hn)
  have hpath := pathSum_atKeys_le_weight hbelow (keyOf binaries) p
  refine le_trans (le_of_eq ?_) (hpath.trans (h t ht))
  show (((((walkForest t.children).filter _).map Prod.snd).map _)).sum = _
  rw [List.map_map]
  rfl

end Dominance

/-! ## Leaving out the light nodes -/

section Prune

variable {binaries : BinaryRegistry}

/-- More of every counter is more time. -/
theorem durationNs_mono {c c' : Counters} (h : ∀ k, (c.get k).val ≤ (c'.get k).val) :
    c.durationNs.val ≤ c'.durationNs.val := by
  have honCpu := h .onCpuNs
  have hoffCpu : c.offCpu.totalNs.val ≤ c'.offCpu.totalNs.val := by
    rw [OffCpuBreakdown.totalNs_eq_sum, OffCpuBreakdown.totalNs_eq_sum, Sat.val_sum, Sat.val_sum,
      List.map_map, List.map_map]
    have hslots : (OffCpuReason.all.map (Sat.val ∘ c.offCpu.slot)).sum ≤
        (OffCpuReason.all.map (Sat.val ∘ c'.offCpu.slot)).sum :=
      List.sum_le_sum fun r _ => h (.offCpu r)
    omega
  change c.onCpuNs.val ≤ c'.onCpuNs.val at honCpu
  show (c.onCpuNs + c.offCpu.totalNs).val ≤ (c'.onCpuNs + c'.offCpu.totalNs).val
  rw [Sat.val_add, Sat.val_add]
  omega

/-- No node of the groups outweighs the forest's trees together. -/
theorem nodeCount_le_weight {k : Counter} {f : List (Rose (Addr × Counters))}
    (h : Dominated (familyCount k) f) {n : List (SymbolKey × SymbolNode) ×
      Rose (SymbolKey × SymbolNode)} (hn : n ∈ walkForest (mergeDescendants binaries [] f)) :
    nodeCount k n.2.label ≤ weight (familyCount k) f := by
  have hpath := pathSum_atKeys_le_weight h (keyOf binaries) (n.1.map Prod.fst)
  refine le_trans ?_ hpath
  show (n.2.label.2.acc.counters.get k).val ≤ _
  rw [counters_walk_merge hn]
  refine (val_get_sum_le _).trans (le_of_eq ?_)
  rw [List.map_map]
  rfl

/-- What is below a group carries no more time than the group. -/
theorem totalNs_below_le {f : List (Rose (Addr × Counters))}
    (h : ∀ k, Dominated (familyCount k) f) (key : SymbolKey)
    {n : List (SymbolKey × SymbolNode) × Rose (SymbolKey × SymbolNode)}
    (hn : n ∈ walkForest (mergeDescendants binaries [] (belowKey (keyOf binaries) key f))) :
    n.2.label.2.totalNs.val ≤
      (mergedNode binaries (key, withKey (keyOf binaries) key f)).label.2.totalNs.val := by
  show n.2.label.2.acc.counters.durationNs.val ≤
    (mergedNode binaries (key, withKey (keyOf binaries) key f)).label.2.acc.counters.durationNs.val
  apply durationNs_mono
  intro k
  obtain ⟨hle, hbelow⟩ := @dominated_belowKey binaries _ _ (h k) key
  have hnode := (nodeCount_le_weight hbelow hn).trans hle
  change (n.2.label.2.acc.counters.get k).val ≤ _ at hnode
  have hmax := (n.2.label.2.acc.counters.get k).le
  have hhom := map_list_sum (Counters.getHom k)
    ((withKey (keyOf binaries) key f).map fun t => timed t.label)
  have hget : ((mergedNode binaries (key, withKey (keyOf binaries) key f)).label.2.acc.counters.get
      k).val = min ((withKey (keyOf binaries) key f).map fun t => familyCount k t.label).sum
        u64Max := by
    rw [acc_mergedNode]
    show (Counters.getHom k _).val = _
    rw [hhom, Sat.val_sum, List.map_map, List.map_map]
    rfl
  rw [hget]
  exact le_min hnode hmax

/-- Nodes with the symbols on the way to them. -/
def pathsOf (f : List (Rose (SymbolKey × Acc))) : List (List SymbolKey × (SymbolKey × Acc)) :=
  (walkForest f).map fun n => (n.1.map Prod.fst, n.2.label)

/-- The nodes of a symbol tree that carry enough time. -/
def heavyPaths (threshold : ℕ) (tree : SymbolTree) : List (List SymbolKey × (SymbolKey × Acc)) :=
  ((walkForest tree).filter fun n => threshold ≤ n.2.label.2.totalNs.val).map fun n =>
    (n.1.map Prod.fst, (n.2.label.1, n.2.label.2.acc))

theorem heavyPaths_eq_nil {threshold : ℕ} {tree : SymbolTree}
    (h : ∀ n ∈ walkForest tree, n.2.label.2.totalNs.val < threshold) :
    heavyPaths threshold tree = [] := by
  unfold heavyPaths
  rw [List.map_eq_nil_iff, List.filter_eq_nil_iff]
  intro n hn
  rw [decide_eq_true_iff]
  exact not_le.mpr (h n hn)

/-- Below a symbol. -/
def under (key : SymbolKey) (x : List SymbolKey × (SymbolKey × Acc)) :
    List SymbolKey × (SymbolKey × Acc) :=
  (key :: x.1, x.2)

theorem pathsOf_neighborGroups (threshold : ℕ) (f : List (Rose (Addr × Counters))) :
    pathsOf (mapForest (neighborEntry binaries) (neighborGroups binaries threshold f)) =
      (groupKeys (keyOf binaries) timed (longEnough threshold) compareTotals f).flatMap fun key =>
        ([key], (key, neighborAcc binaries ((withKey (keyOf binaries) key f).map label))) ::
          (pathsOf (mapForest (neighborEntry binaries) (neighborGroups binaries threshold
            (belowKey (keyOf binaries) key f)))).map (under key) := by
  unfold pathsOf
  rw [neighborGroups, groupTree_eq, mapForest_eq_map, List.map_map, walkForest_eq_flatMap,
    List.map_flatMap, List.flatMap_map]
  refine List.flatMap_congr fun key _ => ?_
  rw [Function.comp_apply, label_map, children_map, label_node, children_node, List.map_cons,
    List.map_map, List.map_map, label_map, label_node]
  rfl

/-- The paths that carry enough time, by the symbol at their root and what is below that. -/
theorem heavyPaths_merge (threshold : ℕ) (f : List (Rose (Addr × Counters))) :
    heavyPaths threshold (mergeDescendants binaries [] f) =
      ((collect binaries f).map Prod.fst).flatMap fun key =>
        (if longEnough threshold (weighed (keyOf binaries) timed f key) then
          [([key], (key, neighborAcc binaries ((withKey (keyOf binaries) key f).map label)))]
          else []) ++
        (heavyPaths threshold (mergeDescendants binaries [] (belowKey (keyOf binaries) key f))).map
          (under key) := by
  have hmerge : mergeDescendants binaries [] f = ((collect binaries f).map Prod.fst).map fun key =>
      mergedNode binaries (key, withKey (keyOf binaries) key f) := by
    rw [mergeDescendants_eq, List.map_map]
    refine List.map_congr_left fun e he => ?_
    show mergedNode binaries e = mergedNode binaries (e.1, withKey (keyOf binaries) e.1 f)
    rw [← (mem_collect.mp he).1]
  unfold heavyPaths
  rw [hmerge, walkForest_eq_flatMap, List.flatMap_map, List.filter_flatMap, List.map_flatMap]
  refine List.flatMap_congr fun key _ => ?_
  have hacc : (mergedNode binaries (key, withKey (keyOf binaries) key f)).label.2.acc =
      neighborAcc binaries ((withKey (keyOf binaries) key f).map label) := acc_accumulateAll _
  have hlong : decide (threshold ≤ (mergedNode binaries
        (key, withKey (keyOf binaries) key f)).label.2.totalNs.val) =
      longEnough threshold (weighed (keyOf binaries) timed f key) := by
    show decide (threshold ≤ (mergedNode binaries
      (key, withKey (keyOf binaries) key f)).label.2.acc.counters.durationNs.val) = _
    rw [acc_mergedNode]
    rfl
  have hbelow : ((walkForest (mergedNode binaries
        (key, withKey (keyOf binaries) key f)).children).map fun n =>
          ((mergedNode binaries (key, withKey (keyOf binaries) key f)).label :: n.1, n.2)).filter
        (fun n => decide (threshold ≤ n.2.label.2.totalNs.val)) =
      ((walkForest (mergeDescendants binaries [] (belowKey (keyOf binaries) key f))).filter
        fun n => decide (threshold ≤ n.2.label.2.totalNs.val)).map fun n =>
          ((mergedNode binaries (key, withKey (keyOf binaries) key f)).label :: n.1, n.2) := by
    rw [List.filter_map]
    rfl
  rw [List.filter_cons, hbelow, hlong]
  split_ifs
  · rw [List.map_cons, List.map_map, List.map_map, hacc]
    rfl
  · rw [List.map_map, List.map_map]
    rfl

theorem flatMap_filter {α β : Type*} {p : α → Bool} {first : α → β} {rest : α → List β}
    {l : List α} (h : ∀ a ∈ l, p a = false → rest a = []) :
    l.flatMap (fun a => (if p a then [first a] else []) ++ rest a) =
      (l.filter p).flatMap fun a => first a :: rest a := by
  induction l with
  | nil => rfl
  | cons a l ih =>
      rw [List.forall_mem_cons] at h
      rw [List.flatMap_cons, ih h.2, List.filter_cons]
      cases hp : p a with
      | false => simp [h.1 hp]
      | true => simp

/-- Where nodes hold at least what their children hold, the nodes that are sent are those that carry
enough time. -/
theorem pathsOf_perm_heavyPaths (threshold : ℕ) {f : List (Rose (Addr × Counters))}
    (h : ∀ k, Dominated (familyCount k) f) :
    (pathsOf (mapForest (neighborEntry binaries) (neighborGroups binaries threshold f))).Perm
      (heavyPaths threshold (mergeDescendants binaries [] f)) := by
  induction f using groupTree_induction (keyOf binaries) with
  | step f ih =>
      set long := fun key => longEnough threshold (weighed (keyOf binaries) timed f key) with hlong
      set here := fun key => ([key], (key, neighborAcc binaries
        ((withKey (keyOf binaries) key f).map label))) with hhere
      set below := fun key => (heavyPaths threshold (mergeDescendants binaries []
        (belowKey (keyOf binaries) key f))).map (under key) with hbelow
      have hkeys : (groupKeys (keyOf binaries) timed (longEnough threshold) compareTotals f).Perm
          (((collect binaries f).map Prod.fst).filter long) := by
        unfold groupKeys
        exact (sortBy_perm _).trans ((keys_collect_perm f).symm.filter _)
      have hheavy : heavyPaths threshold (mergeDescendants binaries [] f) =
          (((collect binaries f).map Prod.fst).filter long).flatMap fun key =>
            here key :: below key := by
        rw [heavyPaths_merge]
        refine flatMap_filter fun key _ hnot => ?_
        -- what is below a light node is light
        have hlight : (mergedNode binaries
            (key, withKey (keyOf binaries) key f)).label.2.totalNs.val < threshold := by
          have htotal : (mergedNode binaries
              (key, withKey (keyOf binaries) key f)).label.2.acc.counters.durationNs.val =
              (weighed (keyOf binaries) timed f key).2.durationNs.val := by
            rw [acc_mergedNode]
            rfl
          show (mergedNode binaries
            (key, withKey (keyOf binaries) key f)).label.2.acc.counters.durationNs.val < threshold
          rw [htotal]
          exact not_le.mp (of_decide_eq_false hnot)
        have hnone : heavyPaths threshold (mergeDescendants binaries []
            (belowKey (keyOf binaries) key f)) = [] :=
          heavyPaths_eq_nil fun n hn => (totalNs_below_le h key hn).trans_lt hlight
        rw [hnone, List.map_nil]
      rw [pathsOf_neighborGroups, hheavy]
      refine (hkeys.flatMap_right _).trans (List.Perm.flatMap_left _ fun key hkey => ?_)
      refine List.Perm.cons _ (List.Perm.map _ ?_)
      obtain ⟨e, he, rfl⟩ := List.mem_map.mp (List.mem_filter.mp hkey).1
      obtain ⟨hmembers, hne⟩ := mem_collect.mp he
      rw [hmembers] at hne
      exact ih e.1 hne fun k => (@dominated_belowKey binaries _ _ (h k) e.1).2

end Prune

/-! ## The trees of a target -/

/-- What a family tree holds before light nodes are left out.  It has a node at a path where there
are nodes behind it, and one only; the node carries what they carry; and every node, the root too,
carries at least what its children carry. -/
structure FamilyTree (root : SymbolKey × SymbolNode) (tree : SymbolTree)
    (behind : List SymbolKey → List (Rose (Addr × Counters))) : Prop where
  distinct : SiblingsDistinct Prod.fst tree
  found : ∀ p, (∃ n ∈ walkForest tree, n.1.map Prod.fst = p) ↔ p ≠ [] ∧ behind p ≠ []
  weight : ∀ n ∈ walkForest tree, ∀ k, nodeCount k n.2.label =
    ((behind (n.1.map Prod.fst)).map fun m => familyCount k m.label).sum
  dominated : ∀ k, Dominated (nodeCount k) [node root tree]

/-- The tree that is sent is the root over exactly the nodes that carry enough time, each at its
path, by the indices of a table. -/
def SentTree (threshold : ℕ) (table : StringInterner) (root : SymbolKey × SymbolNode)
    (tree : SymbolTree) (sent : FlameNode) : Prop :=
  ∃ kept : List (Rose (SymbolKey × Acc)),
    sent = node (flameData table (root.1, root.2.acc)) (mapForest (flameData table) kept) ∧
      (pathsOf kept).Perm (heavyPaths threshold tree)

section Target

variable {flameRoot : StackNode} {binaries : BinaryRegistry} {targetAddress : Addr}

/-- The merged groups of a forest are a family tree, under a root that carries what the target's
nodes hold. -/
theorem familyTree_merge {f : List (Rose (Addr × Counters))} {root : SymbolKey × SymbolNode}
    {behind : List SymbolKey → List (Rose (Addr × Counters))} {own : List (Addr × Counters)}
    (hfound : ∀ p, p ≠ [] →
      ((∃ n ∈ walkForest f, n.1.map (keyOf binaries) = p) ↔ behind p ≠ []))
    (hpath : ∀ p, p ≠ [] → pathSum (atKeys (keyOf binaries) p) (fun t => timed t.label) f =
      ((behind p).map fun m => timed m.label).sum)
    (hbehind : ∀ p k, ((behind p).map fun m => familyCount k m.label).sum ≤
      (own.map (familyCount k)).sum)
    (hforest : ∀ k, Dominated (familyCount k) f ∧
      weight (familyCount k) f ≤ (own.map (familyCount k)).sum)
    (hroot : root.2.acc.counters = (own.map timed).sum)
    (hfits : ∀ k, (own.map (familyCount k)).sum ≤ u64Max) :
    FamilyTree root (mergeDescendants binaries [] f) behind where
  distinct := siblingsDistinct_merge f
  found := by
    intro p
    rw [exists_walk_merge_iff]
    constructor
    · rintro ⟨n, hn, rfl⟩
      have hne : n.1.map (keyOf binaries) ≠ [] := by
        rw [Ne, List.map_eq_nil_iff]
        exact path_ne_nil hn
      exact ⟨hne, (hfound _ hne).mp ⟨n, hn, rfl⟩⟩
    · rintro ⟨hne, hbehind⟩
      exact (hfound p hne).mpr hbehind
  weight := by
    intro n hn k
    have hne : n.1.map Prod.fst ≠ [] := by
      rw [Ne, List.map_eq_nil_iff]
      exact path_ne_nil hn
    show (n.2.label.2.acc.counters.get k).val = _
    rw [counters_walk_merge hn, hpath _ hne, val_get_sum, List.map_map]
    · rfl
    · rw [List.map_map]
      exact (hbehind _ k).trans (hfits k)
  dominated := by
    intro k
    -- the root does not saturate, so its counter is the sum of the target's nodes
    have hown : nodeCount k root = (own.map (familyCount k)).sum := by
      show (root.2.acc.counters.get k).val = _
      rw [hroot, val_get_sum, List.map_map]
      · rfl
      · rw [List.map_map]
        exact hfits k
    obtain ⟨hdominated, hle⟩ := hforest k
    refine dominated_cons.mpr ⟨?_, dominated_merge hdominated (hle.trans (hfits k)), dominated_nil⟩
    rw [hown]
    exact (weight_merge_le f).trans hle

/-- The root carries what the target's nodes carry. -/
theorem counters_target :
    ((neighborsOf flameRoot binaries targetAddress).target binaries targetAddress).acc.counters =
      ((ownEntries binaries (symbolOf binaries targetAddress) flameRoot.children).map timed).sum := by
  have hacc := @acc_accumulateAll binaries
    (ownEntries binaries (symbolOf binaries targetAddress) flameRoot.children)
  rw [neighborsOf_eq]
  exact congrArg Acc.counters hacc

/-- The nodes of a family tree have their specified weight, and those that carry enough time are
sent.  For every stack tree without frames at the address zero whose nodes hold at least what their
children hold, every registry and target whose own counters do not saturate: the node of the callers
at a path carries the sum over the target's nodes whose ancestors, innermost first, begin with it;
the node of the callees at a path carries the sum over the nodes that a way down from a node of the
target along it ends at, once for each such node and way; every node carries at least what its
children carry; and what is sent are the roots over exactly the nodes that carry a 2000th of the
target's own time, and at least one nanosecond. -/
theorem family_tree_weights (flameRoot : StackNode) (binaries : BinaryRegistry)
    (targetAddress : Addr) (hframes : ∀ n ∈ nodes flameRoot.children, n.label.1 ≠ 0)
    (hdominated : ∀ k, Dominated (familyCount k) flameRoot.children)
    (hfits : ∀ k, ((ownEntries binaries (symbolOf binaries targetAddress)
      flameRoot.children).map (familyCount k)).sum ≤ u64Max) :
    let key := symbolOf binaries targetAddress
    let st := neighborsOf flameRoot binaries targetAddress
    let root := (key, st.target binaries targetAddress)
    let update := computeNeighborsUpdate flameRoot binaries targetAddress
    FamilyTree root st.callers (callersWith binaries key flameRoot.children) ∧
      FamilyTree root st.callees (descentsTo binaries key flameRoot.children) ∧
      ∃ table : StringInterner, update.strings = table.strings ∧
        SentTree (max (st.own.totalNs.val / 2000) 1) table root st.callers update.callersTree ∧
        SentTree (max (st.own.totalNs.val / 2000) 1) table root st.callees update.calleesTree := by
  intro key st root update
  have hcallers : st.callers =
      mergeDescendants binaries [] (callerForest binaries key [] flameRoot.children) :=
    congrArg Neighbors.callers (neighborsOf_eq flameRoot binaries targetAddress)
  have hcallees : st.callees =
      mergeDescendants binaries [] (calleeForest binaries key flameRoot.children) :=
    congrArg Neighbors.callees (neighborsOf_eq flameRoot binaries targetAddress)
  have hcallerForest (k : Counter) := @dominated_callerForest binaries key k [] flameRoot.children
  have hcalleeForest (k : Counter) := @dominated_calleeForest binaries key k _ (hdominated k)
  rw [hcallers, hcallees]
  refine ⟨?_, ?_, neighborsTable flameRoot binaries targetAddress, rfl, ?_, ?_⟩
  · refine familyTree_merge (fun p hp => exists_callerForest hp hframes) (fun p hp => ?_)
      (fun p k => sum_callersWith_le flameRoot.children p) hcallerForest counters_target hfits
    rw [← map_callersBelow, List.map_map]
    exact pathSum_callerForest (fun c : Counters => { c with pmc := 0 }) hp [] hframes
  · exact familyTree_merge (fun p _ => exists_calleeForest p flameRoot.children)
      (fun p _ => pathSum_calleeForest (fun c : Counters => { c with pmc := 0 }) p _)
      (fun p k => sum_descentsTo_le (hdominated k) p) hcalleeForest counters_target hfits
  · refine ⟨mapForest (neighborEntry binaries) (callerGroups flameRoot binaries targetAddress),
      ?_, pathsOf_perm_heavyPaths _ fun k => (hcallerForest k).1⟩
    rw [mapForest_mapForest]
    exact callersTree_eq
  · refine ⟨mapForest (neighborEntry binaries) (calleeGroups flameRoot binaries targetAddress),
      ?_, pathsOf_perm_heavyPaths _ fun k => (hcalleeForest k).1⟩
    rw [mapForest_mapForest]
    exact calleesTree_eq

/-- `f` has `g` below it at both of its call sites, and one node for it is sent. -/
theorem family_tree_weights_twoCallSites :
    let key := symbolOf callSites 0xa0
    let st := neighborsOf twoCallSites callSites 0xa0
    let root := (key, st.target callSites 0xa0)
    let update := computeNeighborsUpdate twoCallSites callSites 0xa0
    FamilyTree root st.callers (callersWith callSites key twoCallSites.children) ∧
      FamilyTree root st.callees (descentsTo callSites key twoCallSites.children) ∧
      (∃ table : StringInterner, update.strings = table.strings ∧
        SentTree (max (st.own.totalNs.val / 2000) 1) table root st.callers update.callersTree ∧
        SentTree (max (st.own.totalNs.val / 2000) 1) table root st.callees update.calleesTree) ∧
      update.callersTree.children.length = 0 ∧ update.calleesTree.children.length = 1 := by
  intro key st root update
  have hweights := family_tree_weights twoCallSites callSites 0xa0 (by decide +kernel) ?_ ?_
  · exact ⟨hweights.1, hweights.2.1, hweights.2.2, by decide +kernel, by decide +kernel⟩
  · intro k
    unfold Dominated
    cases k with
    | offCpu r => cases r <;> decide +kernel
    | pmc c => cases c <;> decide +kernel
    | _ => decide +kernel
  · intro k
    cases k with
    | offCpu r => cases r <;> decide +kernel
    | pmc c => cases c <;> decide +kernel
    | _ => decide +kernel

end Target

end Stax.Live
