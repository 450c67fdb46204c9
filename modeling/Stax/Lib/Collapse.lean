/-
# Stax.Lib.Collapse — pulling up the nodes that repeat their parent.

Where a child repeats its parent, `collapse` puts the child's children in its place, again and again
until no child repeats its parent.  On a path that drops every label that repeats the last one kept.
The nodes that stay keep their labels and their order; the ones that go leave what they weigh beyond
their children to the node they repeat, so along collapsed paths nothing is moved elsewhere.
-/
import Mathlib
import Stax.Lib.RoseTree

namespace Stax.Lib

namespace Rose

variable {α : Type*} (same : α → α → Bool)

/-! ## Pulling up -/

mutual
/-- What a tree becomes below a node labelled `s`: what is below it where it repeats the label, or
else itself. -/
def pullTree (s : α) : Rose α → List (Rose α)
  | node a cs => if same a s then pull s cs else [node a cs]

/-- The trees a node labelled `s` has below it once its repetitions are pulled up. -/
def pull (s : α) : List (Rose α) → List (Rose α)
  | [] => []
  | t :: ts => pullTree s t ++ pull s ts
end

mutual
/-- The same for a tree that is collapsed as well, all the way down. -/
def collapseTree (s : α) : Rose α → List (Rose α)
  | node a cs => if same a s then collapse s cs else [node a (collapse a cs)]

/-- What the forest below a node labelled `s` becomes. -/
def collapse (s : α) : List (Rose α) → List (Rose α)
  | [] => []
  | t :: ts => collapseTree s t ++ collapse s ts
end

/-- A path below `s` without the labels that repeat the last one kept. -/
def collapsePath (s : α) : List α → List α
  | [] => []
  | a :: p => if same a s then collapsePath s p else a :: collapsePath a p

/-- Whether the node at the end of a path below `s` stays. -/
def stays (s : α) : List α → Bool
  | [] => false
  | [a] => !same a s
  | a :: p => stays (if same a s then s else a) p

/-- Whether the node at the end of a path below `s` is pulled up to `s`. -/
def surfaces (s : α) : List α → Bool
  | [] => false
  | [a] => !same a s
  | a :: p => same a s && surfaces s p

variable {same}

@[simp] theorem pull_nil (s : α) : pull same s [] = [] := by
  rw [pull]

theorem pull_cons (s a : α) (cs ts : List (Rose α)) :
    pull same s (node a cs :: ts) =
      (if same a s then pull same s cs else [node a cs]) ++ pull same s ts := by
  rw [pull, pullTree]

theorem pull_append (s : α) (f g : List (Rose α)) :
    pull same s (f ++ g) = pull same s f ++ pull same s g := by
  induction f with
  | nil => simp
  | cons t ts ih =>
      obtain ⟨a, cs⟩ := t
      rw [List.cons_append, pull_cons, pull_cons, ih, List.append_assoc]

@[simp] theorem collapse_nil (s : α) : collapse same s [] = [] := by
  rw [collapse]

theorem collapse_cons (s a : α) (cs ts : List (Rose α)) :
    collapse same s (node a cs :: ts) =
      (if same a s then collapse same s cs else [node a (collapse same a cs)]) ++
        collapse same s ts := by
  rw [collapse, collapseTree]

/-- Collapsing is pulling up and then collapsing below what is pulled up. -/
theorem collapse_eq_map_pull (s : α) (f : List (Rose α)) :
    collapse same s f =
      (pull same s f).map fun t => node t.label (collapse same t.label t.children) := by
  induction f using forest_induction generalizing s with
  | nil => simp
  | cons a cs ts ihc iht =>
      rw [collapse_cons, pull_cons, List.map_append, ← iht s]
      congr 1
      split
      · exact ihc s
      · rfl

/-- Where nothing repeats `s` nothing is pulled up. -/
theorem pull_eq_self {s : α} {f : List (Rose α)} (h : ∀ t ∈ f, same t.label s = false) :
    pull same s f = f := by
  induction f with
  | nil => exact pull_nil s
  | cons t ts ih =>
      obtain ⟨ht, hts⟩ := List.forall_mem_cons.mp h
      obtain ⟨a, cs⟩ := t
      rw [label_node] at ht
      rw [pull_cons, ht, ih hts]
      rfl

/-! ## Collapsed paths -/

/-- Below `s`, collapsing keeps what the destuttered path has after it. -/
theorem destutter_cons_eq (s : α) (p : List α) :
    (s :: p).destutter (fun a b => ¬ same b a = true) = s :: collapsePath same s p := by
  rw [List.destutter_cons']
  induction p generalizing s with
  | nil => rfl
  | cons a p ih =>
      rw [List.destutter'_cons, collapsePath]
      by_cases hsame : same a s = true
      · rw [if_neg (not_not.mpr hsame), if_pos hsame]
        exact ih s
      · rw [if_pos hsame, if_neg hsame]
        exact congrArg (s :: ·) (ih a)

/-- Where repeating is seen from a key, paths may be collapsed by their keys. -/
theorem map_collapsePath {K : Type*} {κ : α → K} {sameKey : K → K → Bool}
    (h : ∀ a b, same a b = sameKey (κ a) (κ b)) (s : α) (p : List α) :
    (collapsePath same s p).map κ = collapsePath sameKey (κ s) (p.map κ) := by
  induction p generalizing s with
  | nil => rfl
  | cons a p ih =>
      rw [List.map_cons, collapsePath, collapsePath, ← h]
      split
      · exact ih s
      · rw [List.map_cons, ih]

/-! ## The nodes that stay -/

/-- No node has a child that repeats it. -/
theorem not_same_of_collapse (s : α) (f : List (Rose α)) :
    (∀ t ∈ collapse same s f, same t.label s = false) ∧
      ∀ n ∈ nodes (collapse same s f), ∀ c ∈ n.children, same c.label n.label = false := by
  induction f using forest_induction generalizing s with
  | nil => simp
  | cons a cs ts ihc iht =>
      obtain ⟨htop, hbelow⟩ := iht s
      rw [collapse_cons, forall_nodes_append, List.forall_mem_append]
      split
      · exact ⟨⟨(ihc s).1, htop⟩, (ihc s).2, hbelow⟩
      · rename_i hnot
        refine ⟨⟨?_, htop⟩, ?_, hbelow⟩
        · intro t ht
          rw [List.mem_singleton.mp ht]
          exact Bool.eq_false_iff.mpr hnot
        · rw [forall_nodes_cons, nodes_nil]
          exact ⟨(ihc a).1, (ihc a).2, by simp⟩

/-- The nodes that stay keep their labels and their order. -/
theorem labels_collapse (s : α) (f : List (Rose α)) :
    (nodes (collapse same s f)).map label =
      ((walkForest f).filter fun n => stays same s n.1).map fun n => n.2.label := by
  have hbelow (s a : α) (cs : List (Rose α)) :
      (((walkForest cs).map fun n => (a :: n.1, n.2)).filter fun n =>
        stays same s n.1).map (fun n => n.2.label) =
      ((walkForest cs).filter fun n => stays same (if same a s then s else a) n.1).map
        fun n => n.2.label := by
    rw [List.filter_map, List.map_map]
    refine congrArg (List.map _) (List.filter_congr fun n hn => ?_)
    obtain ⟨b, p, hp⟩ := List.exists_cons_of_ne_nil (path_ne_nil hn)
    show stays same s (a :: n.1) = _
    rw [hp]
    rfl
  induction f using forest_induction generalizing s with
  | nil => simp
  | cons a cs ts ihc iht =>
      rw [collapse_cons, nodes_append, List.map_append, iht, walkForest_cons, List.filter_append,
        List.map_append, List.filter_cons]
      congr 1
      split
      · rename_i hsame
        rw [ihc, if_neg (by simp [stays, hsame]), hbelow, if_pos hsame]
      · rename_i hnot
        rw [nodes_cons, nodes_nil, List.append_nil, List.map_cons, ihc,
          if_pos (by simp [stays, hnot]), List.map_cons, hbelow, if_neg hnot]
        rfl

/-- Pulling up repetitions below the trees of a forest adds no labels. -/
theorem exists_of_mem_collapseBelow {f : List (Rose α)} {n : Rose α}
    (hn : n ∈ nodes (f.map fun t => node t.label (collapse same t.label t.children))) :
    ∃ m ∈ nodes f, m.label = n.label := by
  obtain ⟨t, ht, hn⟩ := mem_nodes_iff.mp hn
  obtain ⟨c, hc, rfl⟩ := List.mem_map.mp ht
  rw [children_node] at hn
  rcases hn with rfl | hn
  · exact ⟨c, mem_nodes_self hc, rfl⟩
  · have hlabel : n.label ∈ (nodes (collapse same c.label c.children)).map label :=
      List.mem_map_of_mem hn
    rw [labels_collapse] at hlabel
    obtain ⟨m, hm, hlabel⟩ := List.mem_map.mp hlabel
    refine ⟨m.2, mem_nodes_iff.mpr ⟨c, hc, Or.inr ?_⟩, hlabel⟩
    exact List.mem_map_of_mem (List.mem_filter.mp hm).1

/-! ## Siblings -/

section Siblings

/-- What is pulled up keeps its label and its order. -/
theorem labels_pull (s : α) (f : List (Rose α)) :
    (pull same s f).map label =
      ((walkForest f).filter fun n => surfaces same s n.1).map fun n => n.2.label := by
  have hbelow (a : α) (cs : List (Rose α)) :
      (((walkForest cs).map fun n => (a :: n.1, n.2)).filter fun n =>
        surfaces same s n.1).map (fun n => n.2.label) =
      ((walkForest cs).filter fun n => same a s && surfaces same s n.1).map
        fun n => n.2.label := by
    rw [List.filter_map, List.map_map]
    refine congrArg (List.map _) (List.filter_congr fun n hn => ?_)
    obtain ⟨b, p, hp⟩ := List.exists_cons_of_ne_nil (path_ne_nil hn)
    show surfaces same s (a :: n.1) = _
    rw [hp]
    rfl
  induction f using forest_induction with
  | nil => simp
  | cons a cs ts ihc iht =>
      rw [pull_cons, List.map_append, iht, walkForest_cons, List.filter_append, List.map_append,
        List.filter_cons]
      congr 1
      split
      · rename_i hsame
        rw [ihc, if_neg (by simp [surfaces, hsame]), hbelow, hsame]
        rfl
      · rename_i hnot
        rw [if_pos (by simp [surfaces, hnot]), List.map_cons, List.map_cons, hbelow,
          Bool.eq_false_iff.mpr hnot]
        simp

/-- A relation between what is pulled up is one between the nodes of the forest that surface. -/
theorem pairwise_pull_iff {R : α → α → Prop} (s : α) (f : List (Rose α)) :
    (pull same s f).Pairwise (fun t u => R t.label u.label) ↔
      (walkForest f).Pairwise fun m n => surfaces same s m.1 = true →
        surfaces same s n.1 = true → R m.2.label n.2.label := by
  rw [← List.pairwise_map, labels_pull, List.pairwise_map, List.pairwise_filter]

theorem surfaces_map {β : Type*} (φ : β → α) (s : β) (p : List β) :
    surfaces same (φ s) (p.map φ) = surfaces (fun a b => same (φ a) (φ b)) s p := by
  induction p with
  | nil => rfl
  | cons a p ih =>
      cases p with
      | nil => rfl
      | cons b p => exact congrArg (same (φ a) (φ s) && ·) ih

variable (htrans : ∀ a b c : α, same a b = true → same c a = same c b)
include htrans

/-- A repetition of `s` pulls up what `s` would. -/
theorem pull_eq_of_same {a s : α} (h : same a s = true) (f : List (Rose α)) :
    pull same a f = pull same s f := by
  induction f using forest_induction with
  | nil => simp
  | cons b cs ts ihc iht =>
      rw [pull_cons, pull_cons, htrans a s b h, ihc, iht]

/-- A relation holds between the siblings of a collapsed forest when it holds between what every
node pulls up, whether the node stays or not. -/
theorem pairwise_siblings_collapse {R : α → α → Prop} (s : α) (f : List (Rose α)) :
    ((collapse same s f).Pairwise (fun t u => R t.label u.label) ∧
      ∀ n ∈ nodes (collapse same s f), n.children.Pairwise fun t u => R t.label u.label) ↔
    (pull same s f).Pairwise (fun t u => R t.label u.label) ∧
      ∀ n ∈ nodes f, (pull same n.label n.children).Pairwise fun t u => R t.label u.label := by
  have htop (s : α) (f : List (Rose α)) :
      (collapse same s f).Pairwise (fun t u => R t.label u.label) ↔
        (pull same s f).Pairwise fun t u => R t.label u.label := by
    rw [collapse_eq_map_pull, List.pairwise_map]
    rfl
  rw [htop]
  refine and_congr_right fun hpull => ?_
  induction f using forest_induction generalizing s with
  | nil => simp
  | cons a cs ts ihc iht =>
      rw [pull_cons, List.pairwise_append] at hpull
      obtain ⟨hfirst, hrest, -⟩ := hpull
      rw [collapse_cons, forall_nodes_append, forall_nodes_cons, label_node, children_node,
        iht s hrest]
      split
      · rename_i hsame
        rw [if_pos hsame] at hfirst
        rw [ihc s hfirst, pull_eq_of_same htrans hsame]
        tauto
      · rw [forall_nodes_cons, children_node, nodes_nil, htop]
        constructor
        · rintro ⟨⟨hown, hbelow, -⟩, hts⟩
          exact ⟨hown, (ihc a hown).mp hbelow, hts⟩
        · rintro ⟨hown, hbelow, hts⟩
          exact ⟨⟨hown, (ihc a hown).mpr hbelow, by simp⟩, hts⟩

end Siblings

/-! ## Weights -/

section Weights

variable {w : α → ℕ}

/-- What the pulled up repetitions of `s` in a forest weigh beyond their children. -/
def absorbed (same : α → α → Bool) (w : α → ℕ) (s : α) (f : List (Rose α)) : ℕ :=
  pathSum (fun p => (collapsePath same s p).isEmpty) (selfWeight w) f

/-- Along the paths below a node, with the label dropped when it repeats `s`. -/
theorem pathSum_collapsePath_cons {q : List α → Bool} {g : Rose α → ℕ} (s a : α)
    (cs ts : List (Rose α)) :
    pathSum (fun p => q (collapsePath same s p)) g (node a cs :: ts) =
      (if same a s then
        (if q [] then g (node a cs) else 0) +
          pathSum (fun p => q (collapsePath same s p)) g cs
      else
        (if q [a] then g (node a cs) else 0) +
          pathSum (fun p => q (a :: collapsePath same a p)) g cs) +
        pathSum (fun p => q (collapsePath same s p)) g ts := by
  rw [pathSum_cons]
  congr 1
  by_cases hsame : same a s = true
  · simp only [collapsePath, hsame, if_true]
  · simp only [collapsePath, hsame, Bool.false_eq_true, if_false]

theorem absorbed_cons (s a : α) (cs ts : List (Rose α)) :
    absorbed same w s (node a cs :: ts) =
      (if same a s then selfWeight w (node a cs) + absorbed same w s cs else 0) +
        absorbed same w s ts := by
  have hkept : pathSum (fun p => (a :: collapsePath same a p).isEmpty) (selfWeight w) cs = 0 :=
    pathSum_eq_zero fun _ _ => rfl
  unfold absorbed
  rw [pathSum_collapsePath_cons, hkept]
  rfl

/-- A forest's weight goes to what it collapses to and to the node its repetitions are pulled up
to. -/
theorem weight_collapse (s : α) {f : List (Rose α)} (h : Dominated w f) :
    weight w (collapse same s f) + absorbed same w s f = weight w f := by
  induction f using forest_induction generalizing s with
  | nil => simp [absorbed]
  | cons a cs ts ihc iht =>
      obtain ⟨hle, hcs, hts⟩ := dominated_cons.mp h
      have htail := iht s hts
      rw [collapse_cons, weight_append, weight_cons, label_node, absorbed_cons]
      split
      · have hbelow := ihc s hcs
        rw [selfWeight, label_node, children_node]
        omega
      · rw [weight_cons, label_node, weight_nil]
        omega

theorem weight_collapse_le (s : α) {f : List (Rose α)} (h : Dominated w f) :
    weight w (collapse same s f) ≤ weight w f := by
  have hsplit : weight w (collapse same s f) + absorbed same w s f = weight w f :=
    weight_collapse s h
  omega

/-- Dominance survives. -/
theorem dominated_collapse (s : α) {f : List (Rose α)} (h : Dominated w f) :
    Dominated w (collapse same s f) := by
  induction f using forest_induction generalizing s with
  | nil =>
      rw [collapse_nil]
      exact dominated_nil
  | cons a cs ts ihc iht =>
      obtain ⟨hle, hcs, hts⟩ := dominated_cons.mp h
      rw [collapse_cons, dominated_append]
      refine ⟨?_, iht s hts⟩
      split
      · exact ihc s hcs
      · exact dominated_cons.mpr ⟨(weight_collapse_le a hcs).trans hle, ihc a hcs, dominated_nil⟩

/-- A node that takes in its repetitions weighs beyond its children what it and they did. -/
theorem selfWeight_collapse {a : α} {cs : List (Rose α)} (hle : weight w cs ≤ w a)
    (hcs : Dominated w cs) :
    selfWeight w (node a (collapse same a cs)) =
      selfWeight w (node a cs) + absorbed same w a cs := by
  have hsplit : weight w (collapse same a cs) + absorbed same w a cs = weight w cs :=
    weight_collapse a hcs
  unfold selfWeight
  rw [label_node, label_node, children_node, children_node]
  omega

/-- Along collapsed paths nothing is moved: what a condition on them selects in the collapsed
forest, and in the node above when it selects the empty path, is what it selects in the forest. -/
theorem pathSum_collapse_add (q : List α → Bool) (s : α) {f : List (Rose α)}
    (h : Dominated w f) :
    pathSum q (selfWeight w) (collapse same s f) + (if q [] then absorbed same w s f else 0) =
      pathSum (fun p => q (collapsePath same s p)) (selfWeight w) f := by
  induction f using forest_induction generalizing s q with
  | nil => simp [absorbed]
  | cons a cs ts ihc iht =>
      obtain ⟨hle, hcs, hts⟩ := dominated_cons.mp h
      have htail := iht q s hts
      rw [collapse_cons, pathSum_append, pathSum_collapsePath_cons, absorbed_cons, ← htail]
      split
      · have hbelow := ihc q s hcs
        rw [← hbelow]
        split <;> omega
      · have hbelow := ihc (fun p => q (a :: p)) a hcs
        rw [pathSum_cons, pathSum_nil, selfWeight_collapse hle hcs, ← hbelow]
        split <;> split <;> omega

end Weights

end Rose

end Stax.Lib
