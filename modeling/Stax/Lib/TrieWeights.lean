/-
# Stax.Lib.TrieWeights — what the credits of a trie of natural numbers add up to.

A trie built by crediting natural numbers along paths is dominated: a node holds at least what its
children hold together.  For a key `x`, the nodes that are the first with that key on their path
hold together the credits whose path passes `x`, however often it does so; what the nodes with that
key hold beyond their children is together the credits whose path ends in `x`.
-/
import Mathlib
import Stax.Lib.PathTrie

namespace Stax.Lib

namespace Trie

open Rose

variable {K M N : Type*} [DecidableEq K]

/-! ## Paths by their keys -/

/-- The path leads to a node with key `x`. -/
def endsAt (x : K) (p : List (K × M)) : Bool := (p.map Prod.fst).getLast? = some x

/-- The path leads to a node with key `x` and passes no other. -/
def firstEndsAt (x : K) (p : List (K × M)) : Bool :=
  endsAt x p && decide (x ∉ (p.map Prod.fst).dropLast)

variable {x k : K} {v : M}

@[simp] theorem endsAt_singleton : endsAt x [(k, v)] = decide (k = x) := by
  simp [endsAt]

@[simp] theorem endsAt_cons_cons (a b : K × M) (p : List (K × M)) :
    endsAt x (a :: b :: p) = endsAt x (b :: p) := by
  simp [endsAt]

@[simp] theorem firstEndsAt_singleton : firstEndsAt x [(k, v)] = decide (k = x) := by
  simp [firstEndsAt]

@[simp] theorem firstEndsAt_cons_cons (b : K × M) (p : List (K × M)) :
    firstEndsAt x ((k, v) :: b :: p) = (decide (k ≠ x) && firstEndsAt x (b :: p)) := by
  rw [firstEndsAt, endsAt_cons_cons, firstEndsAt, Bool.and_left_comm]
  congr 1
  simp [not_or, eq_comm]

section Sums

variable [AddCommMonoid N] (g : Rose (K × M) → N) (cs ts : Trie K M)

theorem pathSum_endsAt_cons :
    pathSum (endsAt x) g (node (k, v) cs :: ts) =
      (if k = x then g (node (k, v) cs) else 0) + pathSum (endsAt x) g cs +
        pathSum (endsAt x) g ts := by
  rw [pathSum_cons, pathSum_congr (fun a p => endsAt_cons_cons (k, v) a p) fun _ _ => rfl]
  simp

theorem pathSum_firstEndsAt_cons :
    pathSum (firstEndsAt x) g (node (k, v) cs :: ts) =
      (if k = x then g (node (k, v) cs) else pathSum (firstEndsAt x) g cs) +
        pathSum (firstEndsAt x) g ts := by
  rw [pathSum_cons, firstEndsAt_singleton]
  rcases eq_or_ne k x with rfl | hne
  · rw [pathSum_eq_zero fun a p => by simp]
    simp
  · rw [pathSum_congr (fun a p => by rw [firstEndsAt_cons_cons, decide_eq_true hne, Bool.true_and])
      fun _ _ => rfl]
    simp [hne]

end Sums

/-- Relabelling the values leaves the keys of a path. -/
theorem endsAt_map (φ : M → N) (p : List (K × M)) :
    endsAt x (p.map (Prod.map id φ)) = endsAt x p := by
  simp [endsAt, Function.comp_def]

theorem firstEndsAt_map (φ : M → N) (p : List (K × M)) :
    firstEndsAt x (p.map (Prod.map id φ)) = firstEndsAt x p := by
  rw [firstEndsAt, endsAt_map, firstEndsAt]
  simp [Function.comp_def]

/-! ## One credit -/

section Adjust

variable (m : ℕ) {path : List K} {ts : Trie K ℕ}

/-- The weight of an entry is its value. -/
abbrev value : K × ℕ → ℕ := Prod.snd

theorem weight_adjust (path : List K) (ts : Trie K ℕ) :
    weight value (adjust (· + m) path ts) =
      weight value ts + if path = [] then 0 else m := by
  cases path with
  | nil => simp [adjust]
  | cons k path =>
      rw [adjust, if_neg (List.cons_ne_nil k path)]
      refine upsert_additive weight_append weight_nil (by simp [fresh]) ?_
      rintro t _ _
      simp

/-- Adding a weight along a path keeps every node at least as heavy as its children. -/
theorem dominated_adjust (path : List K) (h : Dominated value ts) :
    Dominated value (adjust (· + m) path ts) := by
  induction path generalizing ts with
  | nil => exact h
  | cons k path ih =>
      rw [dominated_iff] at h ⊢
      rw [adjust]
      refine forall_upsert h ?_
      rintro t ht _
      have htree : weight value t.children ≤ t.label.2 ∧ Dominated value t.children := by
        rcases ht with ht | rfl
        · exact h t ht
        · exact ⟨Nat.zero_le _, dominated_nil⟩
      refine ⟨?_, ih htree.2⟩
      rw [children_node, weight_adjust]
      show weight value t.children + _ ≤ t.label.2 + m
      split <;> omega

/-- The first nodes with key `x` gain the credit when its path passes `x`. -/
theorem firstSum_adjust (x : K) (path : List K) (ts : Trie K ℕ) :
    pathSum (firstEndsAt x) (fun n => value n.label) (adjust (· + m) path ts) =
      pathSum (firstEndsAt x) (fun n => value n.label) ts + if x ∈ path then m else 0 := by
  induction path generalizing ts with
  | nil => simp [adjust]
  | cons k path ih =>
      rw [adjust]
      refine upsert_additive (pathSum_append _ _) (pathSum_nil _ _) ?_ ?_
      · simp [fresh, pathSum_firstEndsAt_cons]
      rintro ⟨⟨k', v⟩, cs⟩ _ rfl
      rw [pathSum_firstEndsAt_cons, pathSum_firstEndsAt_cons]
      simp only [label_node, children_node, pathSum_nil, add_zero, ih]
      rcases eq_or_ne k' x with rfl | hne
      · simp
      · simp [hne, hne.symm]

/-- What the nodes with key `x` hold beyond their children grows by the credit when its path ends
in `x`. -/
theorem selfSum_adjust (x : K) (path : List K) (h : Dominated value ts) :
    pathSum (endsAt x) (selfWeight value) (adjust (· + m) path ts) =
      pathSum (endsAt x) (selfWeight value) ts + if path.getLast? = some x then m else 0 := by
  induction path generalizing ts with
  | nil => simp [adjust]
  | cons k path ih =>
      rw [adjust]
      refine upsert_additive (pathSum_append _ _) (pathSum_nil _ _) ?_ ?_
      · simp [fresh, pathSum_endsAt_cons, selfWeight]
      rintro t ht hk
      have htree : weight value t.children ≤ t.label.2 ∧ Dominated value t.children := by
        rcases ht with ht | rfl
        · exact dominated_iff.mp h t ht
        · exact ⟨Nat.zero_le _, dominated_nil⟩
      obtain ⟨⟨k', v⟩, cs⟩ := t
      obtain ⟨hle, hcs⟩ := htree
      obtain rfl : k' = k := hk
      simp only [label_node, children_node] at hle hcs ⊢
      rw [pathSum_endsAt_cons, pathSum_endsAt_cons, ih hcs, pathSum_nil]
      simp only [selfWeight, label_node, children_node, weight_adjust]
      rcases path with _ | ⟨k'', path⟩
      · -- the path ends here: the node keeps the whole credit
        simp only [List.getLast?_nil, List.getLast?_singleton, Option.some.injEq, reduceCtorEq,
          if_true, if_false, add_zero, value]
        split
        · show v + m - weight value cs + _ = v - weight value cs + _ + m
          omega
        · omega
      · -- the credit goes on to a child
        have hself : value (k', v + m) - (weight value cs + m) = v - weight value cs :=
          Nat.add_sub_add_right v m (weight value cs)
        simp only [List.getLast?_cons_cons, List.cons_ne_nil, if_false, add_zero, hself]
        exact (add_assoc _ _ _).symm

end Adjust

/-! ## All credits -/

section Credits

variable (es : List (List K × ℕ))

theorem dominated_credit {ts : Trie K ℕ} (h : Dominated value ts) :
    Dominated value (credit ts es) := by
  induction es generalizing ts with
  | nil => exact h
  | cons e es ih => exact ih (dominated_adjust e.2 e.1 h)

/-- A quantity that each credit `e` raises by `c e` is raised by the sum. -/
theorem credit_additive {F : Trie K ℕ → ℕ} {c : List K × ℕ → ℕ}
    (hstep : ∀ e ∈ es, ∀ ts, Dominated value ts → F (adjust (· + e.2) e.1 ts) = F ts + c e)
    {ts : Trie K ℕ} (h : Dominated value ts) : F (credit ts es) = F ts + (es.map c).sum := by
  induction es generalizing ts with
  | nil => simp [credit]
  | cons e es ih =>
      have hrest := ih (fun e' he' => hstep e' (List.mem_cons_of_mem e he'))
        (dominated_adjust e.2 e.1 h)
      rw [List.map_cons, List.sum_cons, ← add_assoc, ← hstep e List.mem_cons_self ts h]
      exact hrest

/-- Under dominance a node with key `x` holds at most what the first ones on their paths hold. -/
theorem value_le_firstSum {ts : Trie K ℕ} (h : Dominated value ts) {n : Rose (K × ℕ)}
    (hn : n ∈ nodes ts) :
    n.label.2 ≤ pathSum (firstEndsAt n.label.1) (fun n => value n.label) ts := by
  induction ts using forest_induction with
  | nil => simp at hn
  | cons a cs ts ihc iht =>
      obtain ⟨k, v⟩ := a
      obtain ⟨hle, hcs, hts⟩ := dominated_cons.mp h
      rw [pathSum_firstEndsAt_cons]
      rw [nodes_cons, List.mem_cons, List.mem_append] at hn
      rcases hn with rfl | hn | hn
      · simp
      · -- below the entry of `k`
        have hweight := weight_le_of_mem_nodes hcs hn
        have hbelow := ihc hcs hn
        have hvalue : n.label.2 = value n.label := rfl
        split
        · show n.label.2 ≤ v + _
          have hroot : value (k, v) = v := rfl
          omega
        · omega
      · have hbeside := iht hts hn
        omega

theorem weight_credit :
    weight value (credit [] es) = (es.map fun e => if e.1 = [] then 0 else e.2).sum := by
  rw [credit_additive es (fun e _ ts _ => weight_adjust e.2 e.1 ts) dominated_nil, weight_nil,
    zero_add]

theorem firstSum_credit (x : K) :
    pathSum (firstEndsAt x) (fun n => value n.label) (credit [] es) =
      (es.map fun e => if x ∈ e.1 then e.2 else 0).sum := by
  rw [credit_additive es (fun e _ ts _ => firstSum_adjust e.2 x e.1 ts) dominated_nil, pathSum_nil,
    zero_add]

theorem selfSum_credit (x : K) :
    pathSum (endsAt x) (selfWeight value) (credit [] es) =
      (es.map fun e => if e.1.getLast? = some x then e.2 else 0).sum := by
  rw [credit_additive es (fun e _ ts h => selfSum_adjust e.2 x e.1 h) dominated_nil, pathSum_nil,
    zero_add]

end Credits

end Trie

end Stax.Lib
