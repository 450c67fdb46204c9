/-
# Stax.Lib.RoseTree — labelled trees with ordered children.

A `Rose` is a label and a list of children; a forest is a list of them.  `walkForest` lists every
node together with the labels on the way down to it, and what is said here about a forest is said
through that list: which nodes it has, the sum of a quantity over the nodes whose path satisfies a
condition, and the condition that a node weighs at least as much as its children together.
Functions on trees come in pairs, one for a tree and one for a forest; proofs go by
`forest_induction`, which takes a forest apart at its first tree.
-/
import Mathlib

namespace Stax.Lib

/-- A label over a list of children. -/
inductive Rose (α : Type*) where
  | node (label : α) (children : List (Rose α))
  deriving Repr

namespace Rose

variable {α β : Type*}

/-- What stands at the root of a tree. -/
def label : Rose α → α
  | node a _ => a

/-- The trees below the root, in order. -/
def children : Rose α → List (Rose α)
  | node _ cs => cs

@[simp] theorem label_node (a : α) (cs : List (Rose α)) : (node a cs).label = a := rfl

@[simp] theorem children_node (a : α) (cs : List (Rose α)) : (node a cs).children = cs := rfl

theorem node_eta : ∀ t : Rose α, node t.label t.children = t
  | node _ _ => rfl

/-- A fact about forests follows from the empty forest and from the forest whose first tree has
the children `cs` and is followed by `ts`. -/
@[elab_as_elim]
theorem forest_induction {P : List (Rose α) → Prop} (nil : P [])
    (cons : ∀ a cs ts, P cs → P ts → P (node a cs :: ts)) : ∀ f, P f
  | [] => nil
  | node a cs :: ts =>
      cons a cs ts (forest_induction nil cons cs) (forest_induction nil cons ts)

/-! ## Size -/

mutual
/-- How many nodes a tree has. -/
def size : Rose α → ℕ
  | node _ cs => 1 + sizeForest cs

/-- The number of nodes of a forest. -/
def sizeForest : List (Rose α) → ℕ
  | [] => 0
  | t :: ts => size t + sizeForest ts
end

@[simp] theorem sizeForest_nil : sizeForest ([] : List (Rose α)) = 0 := by
  rw [sizeForest]

@[simp] theorem sizeForest_cons (t : Rose α) (ts : List (Rose α)) :
    sizeForest (t :: ts) = t.size + sizeForest ts := by
  rw [sizeForest]

theorem size_eq (t : Rose α) : t.size = 1 + sizeForest t.children := by
  cases t
  rw [size, children_node]

theorem sizeForest_eq_sum (f : List (Rose α)) : sizeForest f = (f.map size).sum := by
  induction f with
  | nil => simp
  | cons t ts ih => simp [ih]

@[simp] theorem sizeForest_append (f g : List (Rose α)) :
    sizeForest (f ++ g) = sizeForest f + sizeForest g := by
  rw [sizeForest_eq_sum, sizeForest_eq_sum, sizeForest_eq_sum, List.map_append, List.sum_append]

theorem size_le_of_mem {t : Rose α} {f : List (Rose α)} (h : t ∈ f) : t.size ≤ sizeForest f := by
  rw [sizeForest_eq_sum]
  exact List.single_le_sum (fun _ _ => Nat.zero_le _) _ (List.mem_map_of_mem h)

/-! ## Nodes and the paths to them -/

mutual
/-- Every node of a tree with the labels from the root down to it, parents before children. -/
def walk : Rose α → List (List α × Rose α)
  | node a cs => ([a], node a cs) :: (walkForest cs).map fun n => (a :: n.1, n.2)

/-- Every node of some trees with the labels above it, one tree after the other. -/
def walkForest : List (Rose α) → List (List α × Rose α)
  | [] => []
  | t :: ts => walk t ++ walkForest ts
end

/-- Every node of a forest, parents before children. -/
def nodes (f : List (Rose α)) : List (Rose α) := (walkForest f).map Prod.snd

@[simp] theorem walkForest_nil : walkForest ([] : List (Rose α)) = [] := by
  rw [walkForest]

theorem walkForest_cons (a : α) (cs ts : List (Rose α)) :
    walkForest (node a cs :: ts) =
      ([a], node a cs) :: ((walkForest cs).map fun n => (a :: n.1, n.2)) ++ walkForest ts := by
  rw [walkForest, walk]

theorem walkForest_append (f g : List (Rose α)) :
    walkForest (f ++ g) = walkForest f ++ walkForest g := by
  induction f with
  | nil => simp
  | cons t ts ih =>
      obtain ⟨a, cs⟩ := t
      rw [List.cons_append, walkForest_cons, walkForest_cons, ih, List.append_assoc]

/-- The nodes of a forest with their paths, tree by tree. -/
theorem walkForest_eq_flatMap (f : List (Rose α)) :
    walkForest f = f.flatMap fun t =>
      ([t.label], t) :: (walkForest t.children).map fun n => (t.label :: n.1, n.2) := by
  induction f with
  | nil => simp
  | cons t ts ih =>
      obtain ⟨a, cs⟩ := t
      rw [walkForest_cons, ih, List.flatMap_cons, label_node, children_node]

theorem walkForest_flatMap (h : β → List (Rose α)) (bs : List β) :
    walkForest (bs.flatMap h) = bs.flatMap fun b => walkForest (h b) := by
  induction bs with
  | nil => simp
  | cons b bs ih => rw [List.flatMap_cons, walkForest_append, ih, List.flatMap_cons]

theorem mem_walkForest {n : List α × Rose α} {f : List (Rose α)} :
    n ∈ walkForest f ↔ ∃ t ∈ f, n = ([t.label], t) ∨
      ∃ m ∈ walkForest t.children, n = (t.label :: m.1, m.2) := by
  rw [walkForest_eq_flatMap]
  simp only [List.mem_flatMap, List.mem_cons, List.mem_map, eq_comm]

/-- The path to a node ends with its own label, so it is not empty. -/
theorem path_ne_nil {n : List α × Rose α} {f : List (Rose α)} (h : n ∈ walkForest f) :
    n.1 ≠ [] := by
  induction f using forest_induction generalizing n with
  | nil => simp at h
  | cons a cs ts _ iht =>
      rw [walkForest_cons, List.mem_append, List.mem_cons, List.mem_map] at h
      rcases h with (rfl | ⟨m, _, rfl⟩) | h
      · exact List.cons_ne_nil a []
      · exact List.cons_ne_nil a m.1
      · exact iht h

@[simp] theorem nodes_nil : nodes ([] : List (Rose α)) = [] := by
  rw [nodes, walkForest_nil, List.map_nil]

theorem nodes_cons (a : α) (cs ts : List (Rose α)) :
    nodes (node a cs :: ts) = node a cs :: (nodes cs ++ nodes ts) := by
  simp [nodes, walkForest_cons, Function.comp_def]

theorem nodes_append (f g : List (Rose α)) : nodes (f ++ g) = nodes f ++ nodes g := by
  simp [nodes, walkForest_append]

theorem mem_nodes_self {t : Rose α} {f : List (Rose α)} (h : t ∈ f) : t ∈ nodes f := by
  induction f with
  | nil => cases h
  | cons s ts ih =>
      obtain ⟨a, cs⟩ := s
      rw [nodes_cons]
      rcases List.mem_cons.mp h with rfl | h
      · exact List.mem_cons_self
      · exact List.mem_cons_of_mem _ (List.mem_append_right _ (ih h))

/-- A property of every node of a forest, from the first tree on. -/
theorem forall_nodes_cons {P : Rose α → Prop} {a : α} {cs ts : List (Rose α)} :
    (∀ n ∈ nodes (node a cs :: ts), P n) ↔
      P (node a cs) ∧ (∀ n ∈ nodes cs, P n) ∧ ∀ n ∈ nodes ts, P n := by
  rw [nodes_cons]
  simp only [List.forall_mem_cons, List.forall_mem_append]

theorem exists_nodes_cons {P : Rose α → Prop} {a : α} {cs ts : List (Rose α)} :
    (∃ n ∈ nodes (node a cs :: ts), P n) ↔
      P (node a cs) ∨ (∃ n ∈ nodes cs, P n) ∨ ∃ n ∈ nodes ts, P n := by
  rw [nodes_cons]
  simp only [List.exists_mem_cons_iff, List.mem_append, or_and_right, exists_or]

theorem forall_nodes_append {P : Rose α → Prop} {f g : List (Rose α)} :
    (∀ n ∈ nodes (f ++ g), P n) ↔ (∀ n ∈ nodes f, P n) ∧ ∀ n ∈ nodes g, P n := by
  rw [nodes_append]
  exact List.forall_mem_append

/-- The nodes of a forest are the nodes of its trees. -/
theorem mem_nodes_iff {n : Rose α} {f : List (Rose α)} :
    n ∈ nodes f ↔ ∃ t ∈ f, n = t ∨ n ∈ nodes t.children := by
  induction f with
  | nil => simp
  | cons t ts ih =>
      obtain ⟨a, cs⟩ := t
      rw [nodes_cons, List.mem_cons, List.mem_append, ih]
      simp [or_assoc]

theorem mem_nodes_of_child {n t : Rose α} {f : List (Rose α)} (hn : n ∈ nodes f)
    (ht : t ∈ n.children) : t ∈ nodes f := by
  induction f using forest_induction with
  | nil => simp at hn
  | cons a cs ts ihc iht =>
      rw [nodes_cons, List.mem_cons, List.mem_append] at hn ⊢
      rcases hn with rfl | hn | hn
      · exact Or.inr (Or.inl (mem_nodes_self ht))
      · exact Or.inr (Or.inl (ihc hn))
      · exact Or.inr (Or.inr (iht hn))

/-- The labels on the way down to a node are labels of the forest. -/
theorem exists_node_of_mem_path {n : List α × Rose α} {f : List (Rose α)} (hn : n ∈ walkForest f)
    {a : α} (ha : a ∈ n.1) : ∃ m ∈ nodes f, m.label = a := by
  induction f using forest_induction generalizing n with
  | nil => simp at hn
  | cons b cs ts ihc iht =>
      rw [walkForest_cons, List.mem_append, List.mem_cons, List.mem_map] at hn
      rw [exists_nodes_cons]
      rcases hn with (rfl | ⟨m, hm, rfl⟩) | hn
      · exact Or.inl (List.mem_singleton.mp ha).symm
      · rcases List.mem_cons.mp ha with rfl | ha
        · exact Or.inl rfl
        · exact Or.inr (Or.inl (ihc hm ha))
      · exact Or.inr (Or.inr (iht hn ha))

/-! ## Sums over the nodes with a given path -/

section PathSum

variable {M : Type*} [AddCommMonoid M]

/-- The sum of `g` over the nodes whose path satisfies `q`. -/
def pathSum (q : List α → Bool) (g : Rose α → M) (f : List (Rose α)) : M :=
  (((walkForest f).filter fun n => q n.1).map fun n => g n.2).sum

variable (q : List α → Bool) (g : Rose α → M)

@[simp] theorem pathSum_nil : pathSum q g [] = 0 := by
  simp [pathSum]

theorem pathSum_cons (a : α) (cs ts : List (Rose α)) :
    pathSum q g (node a cs :: ts) =
      (if q [a] then g (node a cs) else 0) + pathSum (fun p => q (a :: p)) g cs +
        pathSum q g ts := by
  have hmap : (((walkForest cs).map fun n => (a :: n.1, n.2)).filter fun n => q n.1) =
      ((walkForest cs).filter fun n => q (a :: n.1)).map fun n => (a :: n.1, n.2) := by
    rw [List.filter_map]
    rfl
  rw [pathSum, walkForest_cons, List.cons_append, List.filter_cons]
  split <;>
  · simp only [List.filter_append, hmap, List.map_cons, List.map_append, List.map_map,
      List.sum_cons, List.sum_append, pathSum, Function.comp_def, zero_add, add_assoc]

theorem pathSum_append (f f' : List (Rose α)) :
    pathSum q g (f ++ f') = pathSum q g f + pathSum q g f' := by
  rw [pathSum, walkForest_append, List.filter_append, List.map_append, List.sum_append]
  rfl

theorem pathSum_flatMap (h : β → List (Rose α)) (bs : List β) :
    pathSum q g (bs.flatMap h) = (bs.map fun b => pathSum q g (h b)).sum := by
  induction bs with
  | nil => simp
  | cons b bs ih => rw [List.flatMap_cons, pathSum_append, ih, List.map_cons, List.sum_cons]

variable {q g}

/-- Conditions that agree on the paths of the forest select the same nodes. -/
theorem pathSum_congr_walk {q' : List α → Bool} {g' : Rose α → M} {f : List (Rose α)}
    (hq : ∀ n ∈ walkForest f, q n.1 = q' n.1) (hg : ∀ n ∈ nodes f, g n = g' n) :
    pathSum q g f = pathSum q' g' f := by
  unfold pathSum
  rw [List.filter_congr hq]
  congr 1
  apply List.map_congr_left
  intro n hn
  exact hg n.2 (List.mem_map_of_mem (List.mem_filter.mp hn).1)

theorem pathSum_congr {q' : List α → Bool} {g' : Rose α → M} {f : List (Rose α)}
    (hq : ∀ a p, q (a :: p) = q' (a :: p)) (hg : ∀ n ∈ nodes f, g n = g' n) :
    pathSum q g f = pathSum q' g' f := by
  refine pathSum_congr_walk ?_ hg
  intro n hn
  obtain ⟨a, p, hp⟩ := List.exists_cons_of_ne_nil (path_ne_nil hn)
  rw [hp, hq]

theorem pathSum_eq_zero {f : List (Rose α)} (hq : ∀ a p, q (a :: p) = false) :
    pathSum q g f = 0 :=
  calc pathSum q g f = pathSum (fun _ => false) g f := pathSum_congr hq fun _ _ => rfl
    _ = 0 := by simp [pathSum]

/-! ### Paths by a key of their labels -/

variable {K : Type*} (κ : α → K)

/-- Siblings have pairwise distinct keys, at every depth. -/
def SiblingsDistinct (f : List (Rose α)) : Prop :=
  (f.map fun t => κ t.label).Nodup ∧ ∀ n ∈ nodes f, (n.children.map fun t => κ t.label).Nodup

theorem siblingsDistinct_iff {f : List (Rose α)} :
    SiblingsDistinct κ f ↔
      (f.map fun t => κ t.label).Nodup ∧ ∀ t ∈ f, SiblingsDistinct κ t.children := by
  unfold SiblingsDistinct
  refine and_congr_right fun _ => ?_
  constructor
  · intro h t ht
    refine ⟨h t (mem_nodes_self ht), fun n hn => h n ?_⟩
    exact mem_nodes_iff.mpr ⟨t, ht, Or.inr hn⟩
  · intro h n hn
    obtain ⟨t, ht, rfl | hn⟩ := mem_nodes_iff.mp hn
    · exact (h n ht).1
    · exact (h t ht).2 n hn

theorem siblingsDistinct_congr {κ κ' : α → K} {f : List (Rose α)}
    (h : ∀ n ∈ nodes f, κ n.label = κ' n.label) :
    SiblingsDistinct κ f ↔ SiblingsDistinct κ' f := by
  unfold SiblingsDistinct
  rw [List.map_congr_left fun t ht => h t (mem_nodes_self ht)]
  refine and_congr_right fun _ => forall₂_congr fun n hn => ?_
  rw [List.map_congr_left fun t ht => h t (mem_nodes_of_child hn ht)]

variable [DecidableEq K]

/-- The path has the keys `p`. -/
def atKeys (p : List K) (path : List α) : Bool := path.map κ = p

@[simp] theorem pathSum_atKeys_nil (g : Rose α → M) (f : List (Rose α)) :
    pathSum (atKeys κ []) g f = 0 :=
  pathSum_eq_zero fun a p => by simp [atKeys]

/-- The nodes at a key path are found among the trees with its first key. -/
theorem pathSum_atKeys_cons (k : K) (ks : List K) (g : Rose α → M) (f : List (Rose α)) :
    pathSum (atKeys κ (k :: ks)) g f =
      (f.map fun t => if κ t.label = k then
        (if ks = [] then g t else 0) + pathSum (atKeys κ ks) g t.children else 0).sum := by
  induction f with
  | nil => simp
  | cons t ts ih =>
      obtain ⟨a, cs⟩ := t
      have hstep : (fun p => atKeys κ (k :: ks) (a :: p)) =
          fun p => decide (κ a = k) && atKeys κ ks p := by
        funext p
        simp [atKeys]
      rw [pathSum_cons, ih, List.map_cons, List.sum_cons, hstep, label_node, children_node]
      congr 1
      by_cases hk : κ a = k
      · have hbelow : (fun p => decide (κ a = k) && atKeys κ ks p) = atKeys κ ks := by
          funext p
          simp [hk]
        rw [hbelow, if_pos hk]
        congr 1
        simp [atKeys, hk, eq_comm]
      · rw [if_neg (by simp [atKeys, hk]), if_neg hk, zero_add]
        exact pathSum_eq_zero fun b p => by simp [hk]

theorem count_atKeys_singleton (k : K) (f : List (Rose α)) :
    pathSum (atKeys κ [k]) (fun _ => 1) f ≠ 0 ↔ ∃ t ∈ f, κ t.label = k := by
  rw [pathSum_atKeys_cons]
  induction f with
  | nil => simp
  | cons t ts ih =>
      rw [List.map_cons, List.sum_cons, List.exists_mem_cons_iff, ← ih]
      by_cases hk : κ t.label = k
      · simp [hk]
      · simp [hk]

/-- Where siblings are distinct at most one node has a given key path. -/
theorem count_atKeys_le_one {f : List (Rose α)} (h : SiblingsDistinct κ f) (p : List K) :
    pathSum (atKeys κ p) (fun _ => 1) f ≤ 1 := by
  induction p generalizing f with
  | nil => simp
  | cons k ks ih =>
      obtain ⟨hnodup, hchildren⟩ := (siblingsDistinct_iff κ).mp h
      rw [pathSum_atKeys_cons]
      have hone : ∀ t ∈ f, (if ks = [] then 1 else 0) +
          pathSum (atKeys κ ks) (fun _ => 1) t.children ≤ 1 := by
        intro t ht
        split
        · rename_i hks
          rw [hks, pathSum_atKeys_nil]
          exact le_rfl
        · have hrest := ih (hchildren t ht)
          omega
      clear hchildren h
      induction f with
      | nil => exact Nat.zero_le 1
      | cons t ts iht =>
          rw [List.map_cons, List.nodup_cons] at hnodup
          rw [List.forall_mem_cons] at hone
          rw [List.map_cons, List.sum_cons]
          split
          · rename_i hk
            -- no other tree has this key
            have hnone : (ts.map fun t => if κ t.label = k then (if ks = [] then 1 else 0) +
                pathSum (atKeys κ ks) (fun _ => 1) t.children else 0).sum = 0 := by
              refine List.sum_eq_zero fun n hn => ?_
              obtain ⟨s, hs, rfl⟩ := List.mem_map.mp hn
              refine if_neg fun hsk => hnodup.1 ?_
              exact List.mem_map.mpr ⟨s, hs, hsk.trans hk.symm⟩
            rw [hnone]
            exact hone.1
          · rw [Nat.zero_add]
            exact iht hnodup.2 hone.2

/-- A node there is the whole sum at its key path. -/
theorem pathSum_atKeys_path {f : List (Rose α)} (h : SiblingsDistinct κ f) (g : Rose α → M)
    {n : List α × Rose α} (hn : n ∈ walkForest f) :
    pathSum (atKeys κ (n.1.map κ)) g f = g n.2 := by
  have hmem : n ∈ (walkForest f).filter fun m => atKeys κ (n.1.map κ) m.1 :=
    List.mem_filter.mpr ⟨hn, by simp [atKeys]⟩
  have hcount := count_atKeys_le_one κ h (n.1.map κ)
  unfold pathSum at hcount ⊢
  generalize (walkForest f).filter (fun m => atKeys κ (n.1.map κ) m.1) = found at hmem hcount
  rw [List.map_const', List.sum_replicate, smul_eq_mul, mul_one] at hcount
  obtain ⟨m, rfl⟩ := List.length_eq_one_iff.mp
    (Nat.le_antisymm hcount (List.length_pos_of_mem hmem))
  rw [List.mem_singleton.mp hmem, List.map_singleton, List.sum_singleton]

end PathSum

/-! ## Weights -/

/-- The weights of a forest's trees, their descendants not counted. -/
def weight (w : α → ℕ) (f : List (Rose α)) : ℕ := (f.map fun t => w t.label).sum

/-- What a node weighs beyond its children. -/
def selfWeight (w : α → ℕ) (t : Rose α) : ℕ := w t.label - weight w t.children

/-- Every node weighs at least as much as its children together. -/
def Dominated (w : α → ℕ) (f : List (Rose α)) : Prop :=
  ∀ n ∈ nodes f, weight w n.children ≤ w n.label

section Weight

variable {w : α → ℕ}

@[simp] theorem weight_nil : weight w [] = 0 := rfl

@[simp] theorem weight_cons (t : Rose α) (ts : List (Rose α)) :
    weight w (t :: ts) = w t.label + weight w ts := by
  simp [weight]

@[simp] theorem weight_append (f g : List (Rose α)) :
    weight w (f ++ g) = weight w f + weight w g := by
  simp [weight]

theorem weight_flatten (fs : List (List (Rose α))) :
    weight w fs.flatten = (fs.map (weight w)).sum := by
  induction fs with
  | nil => rfl
  | cons f fs ih => rw [List.flatten_cons, weight_append, ih, List.map_cons, List.sum_cons]

theorem dominated_nil : Dominated w [] := by
  intro n hn
  simp at hn

theorem dominated_cons {a : α} {cs ts : List (Rose α)} :
    Dominated w (node a cs :: ts) ↔
      weight w cs ≤ w a ∧ Dominated w cs ∧ Dominated w ts :=
  forall_nodes_cons

/-- Dominance tree by tree. -/
theorem dominated_iff {f : List (Rose α)} :
    Dominated w f ↔ ∀ t ∈ f, weight w t.children ≤ w t.label ∧ Dominated w t.children := by
  induction f with
  | nil => simp [dominated_nil]
  | cons t ts ih =>
      obtain ⟨a, cs⟩ := t
      rw [dominated_cons, ih, List.forall_mem_cons, and_assoc]
      rfl

theorem dominated_append {f g : List (Rose α)} :
    Dominated w (f ++ g) ↔ Dominated w f ∧ Dominated w g :=
  forall_nodes_append

/-- Under dominance no node outweighs the forest's trees together. -/
theorem weight_le_of_mem_nodes {f : List (Rose α)} (h : Dominated w f) {n : Rose α}
    (hn : n ∈ nodes f) : w n.label ≤ weight w f := by
  induction f using forest_induction with
  | nil => simp at hn
  | cons a cs ts ihc iht =>
      obtain ⟨hle, hcs, hts⟩ := dominated_cons.mp h
      rw [weight_cons, label_node]
      rw [nodes_cons, List.mem_cons, List.mem_append] at hn
      rcases hn with rfl | hn | hn
      · exact Nat.le_add_right _ _
      · have := ihc hcs hn
        omega
      · have := iht hts hn
        omega

/-- Under dominance the nodes at a key path weigh at most as much as the forest's trees. -/
theorem pathSum_atKeys_le_weight {f : List (Rose α)} (h : Dominated w f)
    {K : Type*} [DecidableEq K] (κ : α → K) (p : List K) :
    pathSum (atKeys κ p) (fun n => w n.label) f ≤ weight w f := by
  induction p generalizing f with
  | nil => simp
  | cons k ks ih =>
      rw [pathSum_atKeys_cons, weight]
      apply List.sum_le_sum
      intro t ht
      obtain ⟨hle, hchildren⟩ := dominated_iff.mp h t ht
      split_ifs with hk hks
      · rw [hks, pathSum_atKeys_nil, add_zero]
      · have hbelow := ih hchildren
        omega
      · exact Nat.zero_le _

end Weight

/-! ## Relabelling -/

mutual
/-- The tree with every label replaced by its image. -/
def map (φ : α → β) : Rose α → Rose β
  | node a cs => node (φ a) (mapForest φ cs)

/-- Some trees with every label replaced by its image. -/
def mapForest (φ : α → β) : List (Rose α) → List (Rose β)
  | [] => []
  | t :: ts => map φ t :: mapForest φ ts
end

@[simp] theorem mapForest_nil (φ : α → β) : mapForest φ [] = [] := by
  rw [mapForest]

@[simp] theorem mapForest_cons (φ : α → β) (a : α) (cs ts : List (Rose α)) :
    mapForest φ (node a cs :: ts) = node (φ a) (mapForest φ cs) :: mapForest φ ts := by
  rw [mapForest, map]

theorem walkForest_mapForest (φ : α → β) (f : List (Rose α)) :
    walkForest (mapForest φ f) = (walkForest f).map fun n => (n.1.map φ, n.2.map φ) := by
  induction f using forest_induction with
  | nil => simp
  | cons a cs ts ihc iht =>
      rw [mapForest_cons, walkForest_cons, walkForest_cons, ihc, iht]
      simp [map]

theorem pathSum_mapForest {M : Type*} [AddCommMonoid M] (φ : α → β) (q : List β → Bool)
    (g : Rose β → M) (f : List (Rose α)) :
    pathSum q g (mapForest φ f) =
      pathSum (fun p => q (p.map φ)) (fun n => g (n.map φ)) f := by
  rw [pathSum, walkForest_mapForest, List.filter_map, List.map_map]
  rfl

theorem nodes_mapForest (φ : α → β) (f : List (Rose α)) :
    nodes (mapForest φ f) = (nodes f).map (map φ) := by
  rw [nodes, walkForest_mapForest, nodes, List.map_map, List.map_map]
  rfl

theorem mapForest_eq_map (φ : α → β) (f : List (Rose α)) : mapForest φ f = f.map (map φ) := by
  induction f with
  | nil => rfl
  | cons t ts ih => rw [mapForest, ih, List.map_cons]

@[simp] theorem label_map (φ : α → β) (t : Rose α) : (t.map φ).label = φ t.label := by
  obtain ⟨a, cs⟩ := t
  rw [map, label_node, label_node]

@[simp] theorem children_map (φ : α → β) (t : Rose α) :
    (t.map φ).children = mapForest φ t.children := by
  obtain ⟨a, cs⟩ := t
  rw [map, children_node, children_node]

theorem mapForest_mapForest {γ : Type*} (φ : α → β) (ψ : β → γ) (f : List (Rose α)) :
    mapForest ψ (mapForest φ f) = mapForest (ψ ∘ φ) f := by
  induction f using forest_induction with
  | nil => simp
  | cons a cs ts ihc iht => simp [ihc, iht]

/-- Relabelling that keeps every label of a forest keeps the forest. -/
theorem mapForest_eq_self {φ : α → α} {f : List (Rose α)} (h : ∀ n ∈ nodes f, φ n.label = n.label) :
    mapForest φ f = f := by
  induction f using forest_induction with
  | nil => simp
  | cons a cs ts ihc iht =>
      obtain ⟨ha, hcs, hts⟩ := forall_nodes_cons.mp h
      rw [mapForest_cons, ihc hcs, iht hts, show φ a = a from ha]

theorem siblingsDistinct_mapForest {K : Type*} {φ : α → β} {κ : β → K} {f : List (Rose α)} :
    SiblingsDistinct κ (mapForest φ f) ↔ SiblingsDistinct (κ ∘ φ) f := by
  have hkeys (g : List (Rose α)) :
      (mapForest φ g).map (fun t => κ t.label) = g.map fun t => (κ ∘ φ) t.label := by
    rw [mapForest_eq_map, List.map_map]
    exact List.map_congr_left fun t _ => congrArg κ (label_map φ t)
  unfold SiblingsDistinct
  rw [hkeys, nodes_mapForest, List.forall_mem_map]
  refine and_congr_right fun _ => forall₂_congr fun n _ => ?_
  rw [children_map, hkeys]

theorem weight_mapForest (φ : α → β) (w : β → ℕ) (f : List (Rose α)) :
    weight w (mapForest φ f) = weight (w ∘ φ) f := by
  rw [mapForest_eq_map, weight, List.map_map]
  simp [weight, Function.comp_def]

theorem dominated_mapForest {φ : α → β} {w : β → ℕ} {f : List (Rose α)} :
    Dominated w (mapForest φ f) ↔ Dominated (w ∘ φ) f := by
  unfold Dominated
  rw [nodes_mapForest]
  simp [weight_mapForest]

end Rose

end Stax.Lib
