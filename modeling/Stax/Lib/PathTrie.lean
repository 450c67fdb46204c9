/-
# Stax.Lib.PathTrie — tries whose nodes accumulate what was credited along paths.

A trie is a forest of entries `(k, v)`: `v` is what has been accumulated at the node reached through
the key `k`.  `adjust` walks a path, adding the entries that are missing, and changes the value of
every node on it; `merge` adds one trie into another node by node.  What a trie holds is `valueAt`:
the value at a path, or nothing where there is no node (the zero adjoined by `WithZero`).  In these
terms crediting adds the credit at every prefix of the path, merging adds values pointwise, and so a
trie built by credits holds at each path the sum of the credits that pass through it.
-/
import Mathlib
import Stax.Lib.RoseTree

namespace Stax.Lib

/-- A forest of entries, each a key and the value accumulated under it. -/
abbrev Trie (K M : Type*) := List (Rose (K × M))

namespace Trie

open Rose

variable {K M N : Type*} [DecidableEq K]

section Ops

variable [Zero M]

/-- The entry an absent key gets before it is changed. -/
def fresh (k : K) : Rose (K × M) := node (k, 0) []

/-- Changes the entry of `k`, adding it first where it is missing. -/
def upsert (k : K) (g : Rose (K × M) → Rose (K × M)) : Trie K M → Trie K M
  | [] => [g (fresh k)]
  | t :: ts => if t.label.1 = k then g t :: ts else t :: upsert k g ts

/-- Changes the value of every node along a path by `f`. -/
def adjust (f : M → M) : List K → Trie K M → Trie K M
  | [], ts => ts
  | k :: ks, ts => upsert k (fun t => node (k, f t.label.2) (adjust f ks t.children)) ts

end Ops

mutual
/-- Adds the second entry, with everything below it, into the first. -/
def mergeEntry [AddZeroClass M] (t : Rose (K × M)) : Rose (K × M) → Rose (K × M)
  | node (_, v) cs => node (t.label.1, t.label.2 + v) (merge t.children cs)

/-- Adds every entry of the second trie into the first. -/
def merge [AddZeroClass M] (ts : Trie K M) : Trie K M → Trie K M
  | [] => ts
  | u :: us => merge (upsert u.label.1 (fun t => mergeEntry t u) ts) us
end

/-- The value at a path: nothing where there is no node. -/
def valueAt : List K → Trie K M → WithZero M
  | [], _ => 0
  | k :: ks, ts =>
    match ts.find? fun t => t.label.1 = k with
    | none => 0
    | some t => if ks = [] then (t.label.2 : WithZero M) else valueAt ks t.children

/-! ## Changing one entry -/

section Upsert

variable [Zero M] {k k' : K} {g : Rose (K × M) → Rose (K × M)}

theorem upsert_cons_self (k : K) (v : M) (cs ts : Trie K M) :
    upsert k g (node (k, v) cs :: ts) = g (node (k, v) cs) :: ts :=
  if_pos rfl

theorem upsert_cons_ne (hne : k' ≠ k) (v : M) (cs ts : Trie K M) :
    upsert k g (node (k', v) cs :: ts) = node (k', v) cs :: upsert k g ts :=
  if_neg hne

/-- A quantity that is additive over forests, vanishes on a fresh entry and grows by `c` when an
entry of `k` is changed grows by `c` when the entry is changed in place. -/
theorem upsert_additive [AddCommMonoid N] {F : Trie K M → N} {c : N} {ts : Trie K M}
    (happend : ∀ f f', F (f ++ f') = F f + F f') (hnil : F [] = 0) (hfresh : F [fresh k] = 0)
    (hstep : ∀ t, t ∈ ts ∨ t = fresh k → t.label.1 = k → F [g t] = F [t] + c) :
    F (upsert k g ts) = F ts + c := by
  induction ts with
  | nil => rw [upsert, hstep (fresh k) (Or.inr rfl) rfl, hfresh, hnil]
  | cons t ts ih =>
      rw [upsert]
      split
      · rename_i hk
        have hleft : F (g t :: ts) = F [g t] + F ts := happend [g t] ts
        have hright : F (t :: ts) = F [t] + F ts := happend [t] ts
        rw [hleft, hright, hstep t (Or.inl List.mem_cons_self) hk, add_right_comm]
      · have hleft : F (t :: upsert k g ts) = F [t] + F (upsert k g ts) := happend [t] _
        have hright : F (t :: ts) = F [t] + F ts := happend [t] ts
        rw [hleft, hright, ih fun s hs => hstep s (hs.imp_left (List.mem_cons_of_mem t)), add_assoc]

/-- A property of every entry survives a change of one entry that keeps it. -/
theorem forall_upsert {P : Rose (K × M) → Prop} {ts : Trie K M} (h : ∀ t ∈ ts, P t)
    (hstep : ∀ t, t ∈ ts ∨ t = fresh k → t.label.1 = k → P (g t)) :
    ∀ t ∈ upsert k g ts, P t := by
  induction ts with
  | nil =>
      intro t ht
      rw [upsert, List.mem_singleton] at ht
      subst ht
      exact hstep (fresh k) (Or.inr rfl) rfl
  | cons s ts ih =>
      rw [List.forall_mem_cons] at h
      rw [upsert]
      split
      · rename_i hk
        exact List.forall_mem_cons.mpr ⟨hstep s (Or.inl List.mem_cons_self) hk, h.2⟩
      · exact List.forall_mem_cons.mpr ⟨h.1, ih h.2 fun t ht =>
          hstep t (ht.imp_left (List.mem_cons_of_mem s))⟩

/-- The entry of `k`, or the fresh one. -/
def entry (k : K) (ts : Trie K M) : Rose (K × M) :=
  (ts.find? fun t => t.label.1 = k).getD (fresh k)

theorem find_upsert_self (hkey : ∀ t, t.label.1 = k → (g t).label.1 = k) (ts : Trie K M) :
    (upsert k g ts).find? (fun t => t.label.1 = k) = some (g (entry k ts)) := by
  induction ts with
  | nil => simp [upsert, entry, hkey (fresh k) rfl]
  | cons t ts ih =>
      rw [upsert]
      split
      · rename_i hk
        simp [entry, hkey t hk, hk]
      · rename_i hk
        rw [List.find?_cons_of_neg (by simpa using hk), ih, entry, entry,
          List.find?_cons_of_neg (by simpa using hk)]

theorem find_upsert_ne (hkey : ∀ t, t.label.1 = k → (g t).label.1 = k) (hne : k' ≠ k) (ts : Trie K M) :
    (upsert k g ts).find? (fun t => t.label.1 = k') = ts.find? fun t => t.label.1 = k' := by
  induction ts with
  | nil => simp [upsert, hkey (fresh k) rfl, hne.symm]
  | cons t ts ih =>
      rw [upsert]
      split
      · rename_i hk
        rw [List.find?_cons_of_neg (by simp [hkey t hk, hne.symm]),
          List.find?_cons_of_neg (by simp [hk, hne.symm])]
      · rw [List.find?_cons, List.find?_cons, ih]

theorem keys_upsert (hkey : ∀ t, t.label.1 = k → (g t).label.1 = k) (ts : Trie K M) :
    (upsert k g ts).map (fun t => t.label.1) =
      if k ∈ ts.map (fun t => t.label.1) then ts.map (fun t => t.label.1)
      else ts.map (fun t => t.label.1) ++ [k] := by
  induction ts with
  | nil => simp [upsert, hkey (fresh k) rfl]
  | cons t ts ih =>
      rw [upsert]
      split
      · rename_i hk
        simp [hkey t hk, hk]
      · rename_i hk
        rw [List.map_cons, ih]
        simp only [List.map_cons, List.mem_cons, Ne.symm hk, false_or]
        split <;> rfl

end Upsert

/-! ## Values -/

@[simp] theorem valueAt_nil_path (ts : Trie K M) : valueAt [] ts = 0 := rfl

@[simp] theorem valueAt_nil (p : List K) : valueAt p ([] : Trie K M) = 0 := by
  cases p <;> rfl

/-- The value at a path through the entry `t`. -/
def below (ks : List K) (t : Rose (K × M)) : WithZero M :=
  if ks = [] then (t.label.2 : WithZero M) else valueAt ks t.children

theorem valueAt_cons_some {k : K} {ks : List K} {ts : Trie K M} {t : Rose (K × M)}
    (h : ts.find? (fun t => t.label.1 = k) = some t) : valueAt (k :: ks) ts = below ks t := by
  rw [valueAt, h]
  rfl

theorem valueAt_cons_none {k : K} {ks : List K} {ts : Trie K M}
    (h : ts.find? (fun t => t.label.1 = k) = none) : valueAt (k :: ks) ts = 0 := by
  rw [valueAt, h]

theorem valueAt_congr {k : K} {ks : List K} {ts ts' : Trie K M}
    (h : ts.find? (fun t => t.label.1 = k) = ts'.find? fun t => t.label.1 = k) :
    valueAt (k :: ks) ts = valueAt (k :: ks) ts' := by
  rw [valueAt, valueAt, h]

section Additive

variable [AddCommMonoid M]

/-- Where a change of an entry adds `c` at the paths through it, the changed trie holds `c` more
there. -/
theorem valueAt_upsert {k : K} {g : Rose (K × M) → Rose (K × M)} {c : List K → WithZero M}
    (hkey : ∀ t, t.label.1 = k → (g t).label.1 = k) {ts : Trie K M} {ks : List K}
    (hfresh : ts.find? (fun t => t.label.1 = k) = none → below ks (g (fresh k)) = c ks)
    (hstep : ∀ t, ts.find? (fun t => t.label.1 = k) = some t → below ks (g t) = below ks t + c ks) :
    valueAt (k :: ks) (upsert k g ts) = valueAt (k :: ks) ts + c ks := by
  rw [valueAt_cons_some (find_upsert_self hkey ts), entry]
  cases hfind : ts.find? fun t => t.label.1 = k with
  | none => rw [valueAt_cons_none hfind, zero_add, Option.getD_none, hfresh hfind]
  | some t => rw [valueAt_cons_some hfind, Option.getD_some, hstep t hfind]

/-- What a credit of `m` along `path` contributes at `p`. -/
def creditAt (p path : List K) (m : M) : WithZero M :=
  if p ≠ [] ∧ p <+: path then (m : WithZero M) else 0

omit [AddCommMonoid M] in
theorem creditAt_cons (k : K) (ks path : List K) (m : M) :
    creditAt (k :: ks) (k :: path) m =
      if ks = [] then (m : WithZero M) else creditAt ks path m := by
  unfold creditAt
  rcases ks with _ | ⟨k', ks⟩
  · simp
  · simp [List.cons_prefix_cons]

/-- Crediting `m` along a path adds `m` at each of its non-empty prefixes. -/
theorem valueAt_adjust (m : M) (path p : List K) (ts : Trie K M) :
    valueAt p (adjust (· + m) path ts) = valueAt p ts + creditAt p path m := by
  induction path generalizing p ts with
  | nil =>
      have hnone : creditAt p ([] : List K) m = 0 := if_neg fun h => h.1 (List.prefix_nil.mp h.2)
      rw [adjust, hnone, add_zero]
  | cons k path ih =>
      rcases p with _ | ⟨k', ks⟩
      · simp [creditAt]
      rw [adjust]
      rcases eq_or_ne k' k with rfl | hne
      · refine valueAt_upsert (c := fun ks => creditAt (k' :: ks) (k' :: path) m)
          ?_ (fun _ => ?_) fun t _ => ?_
        · intro t _
          rfl
        · -- a fresh entry holds nothing yet
          rw [creditAt_cons, below]
          split
          · simp [fresh]
          · rw [children_node, ih, fresh, children_node, valueAt_nil, zero_add]
        · rw [creditAt_cons, below, below]
          split
          · simp
          · rw [children_node, ih]
      · have hnone : creditAt (k' :: ks) (k :: path) m = 0 :=
          if_neg fun h => hne (List.cons_prefix_cons.mp h.2).1
        rw [hnone, add_zero]
        refine valueAt_congr (find_upsert_ne ?_ hne ts)
        intro t _
        rfl

/-- Siblings have pairwise distinct keys, at every depth. -/
def Keyed (ts : Trie K M) : Prop :=
  (ts.map fun t => t.label.1).Nodup ∧ ∀ n ∈ nodes ts, (n.children.map fun t => t.label.1).Nodup

omit [DecidableEq K] [AddCommMonoid M] in
theorem keyed_nil : Keyed ([] : Trie K M) :=
  ⟨List.nodup_nil, by simp⟩

omit [DecidableEq K] [AddCommMonoid M] in
theorem keyed_cons {k : K} {v : M} {cs ts : Trie K M} :
    Keyed (node (k, v) cs :: ts) ↔ k ∉ ts.map (fun t => t.label.1) ∧ Keyed cs ∧ Keyed ts := by
  unfold Keyed
  rw [List.map_cons, List.nodup_cons, forall_nodes_cons]
  simp only [label_node, children_node]
  tauto

omit [AddCommMonoid M] in
/-- A forest is keyed when its keys are distinct and each tree's children are keyed. -/
theorem keyed_iff {ts : Trie K M} :
    Keyed ts ↔ (ts.map fun t => t.label.1).Nodup ∧ ∀ t ∈ ts, Keyed t.children := by
  induction ts with
  | nil => simp [keyed_nil]
  | cons t ts ih =>
      obtain ⟨⟨k, v⟩, cs⟩ := t
      rw [keyed_cons, ih, List.map_cons, List.nodup_cons, List.forall_mem_cons]
      simp only [label_node, children_node]
      tauto

theorem keyed_upsert {k : K} {g : Rose (K × M) → Rose (K × M)} {ts : Trie K M} (h : Keyed ts)
    (hkey : ∀ t, t.label.1 = k → (g t).label.1 = k)
    (hg : ∀ t, Keyed t.children → Keyed (g t).children) : Keyed (upsert k g ts) := by
  obtain ⟨hnodup, hchildren⟩ := keyed_iff.mp h
  refine keyed_iff.mpr ⟨?_, ?_⟩
  · rw [keys_upsert hkey]
    split
    · exact hnodup
    · rename_i hk
      rw [← List.concat_eq_append]
      exact hnodup.concat hk
  · refine forall_upsert hchildren ?_
    rintro t (ht | rfl) _
    · exact hg t (hchildren t ht)
    · exact hg (fresh k) keyed_nil

theorem keyed_adjust (f : M → M) (path : List K) {ts : Trie K M} (h : Keyed ts) :
    Keyed (adjust f path ts) := by
  induction path generalizing ts with
  | nil => exact h
  | cons k path ih =>
      rw [adjust]
      refine keyed_upsert h ?_ fun t ht => ?_
      · intro t _
        rfl
      · exact ih ht

/-- Merging adds the values at every path. -/
theorem valueAt_merge {us : Trie K M} (hus : Keyed us) (p : List K) (ts : Trie K M) :
    valueAt p (merge ts us) = valueAt p ts + valueAt p us := by
  induction us using forest_induction generalizing p ts with
  | nil => rw [merge, valueAt_nil, add_zero]
  | cons a cs us ihc ihu =>
      obtain ⟨k, v⟩ := a
      obtain ⟨hk, hcs, hus⟩ := keyed_cons.mp hus
      rw [merge, ihu hus]
      rcases p with _ | ⟨k', ks⟩
      · simp
      rcases eq_or_ne k' k with rfl | hne
      · have habsent : us.find? (fun t => t.label.1 = k') = none := by
          rw [List.find?_eq_none]
          intro t ht htk
          exact hk (List.mem_map.mpr ⟨t, ht, of_decide_eq_true htk⟩)
        have hhead : valueAt (k' :: ks) (node (k', v) cs :: us) = below ks (node (k', v) cs) :=
          valueAt_cons_some (by simp)
        rw [valueAt_cons_none habsent, hhead, add_zero]
        -- the entry of `k` receives `v` and everything below it
        refine valueAt_upsert (c := fun ks => below ks (node (k', v) cs)) ?_ (fun _ => ?_)
          fun t _ => ?_
        · intro t ht
          rw [mergeEntry, label_node, ht]
        · rw [mergeEntry, below, below, label_node, children_node, ihc hcs]
          simp [fresh]
        · rw [mergeEntry, below, below, below, label_node, children_node, ihc hcs]
          split <;> simp
      · have hskip : valueAt (k' :: ks) (node (k, v) cs :: us) = valueAt (k' :: ks) us := by
          refine valueAt_congr ?_
          simp [hne.symm]
        rw [hskip]
        congr 1
        refine valueAt_congr (find_upsert_ne ?_ hne ts)
        intro t ht
        rw [mergeEntry, label_node, ht]

/-! ## Tries built by credits -/

/-- Credits `(path, m)` one after the other. -/
def credit (ts : Trie K M) (es : List (List K × M)) : Trie K M :=
  es.foldl (fun ts e => adjust (· + e.2) e.1 ts) ts

theorem credit_append (ts : Trie K M) (es es' : List (List K × M)) :
    credit ts (es ++ es') = credit (credit ts es) es' :=
  List.foldl_append

theorem keyed_credit (es : List (List K × M)) {ts : Trie K M} (h : Keyed ts) :
    Keyed (credit ts es) := by
  induction es generalizing ts with
  | nil => exact h
  | cons e es ih => exact ih (keyed_adjust _ e.1 h)

/-- A trie built by credits holds at each path the sum of the credits through it. -/
theorem valueAt_credit (es : List (List K × M)) (p : List K) (ts : Trie K M) :
    valueAt p (credit ts es) = valueAt p ts + (es.map fun e => creditAt p e.1 e.2).sum := by
  induction es generalizing ts with
  | nil => simp [credit]
  | cons e es ih =>
      rw [List.map_cons, List.sum_cons, ← add_assoc, ← valueAt_adjust]
      exact ih _

/-! ### The keys of the nodes -/

/-- A credit adds no keys but those of its path. -/
theorem forall_keys_adjust {P : K → Prop} (f : M → M) {path : List K} (hpath : ∀ k ∈ path, P k)
    {ts : Trie K M} (h : ∀ n ∈ nodes ts, P n.label.1) :
    ∀ n ∈ nodes (adjust f path ts), P n.label.1 := by
  induction path generalizing ts with
  | nil => exact h
  | cons k path ih =>
      rw [List.forall_mem_cons] at hpath
      have htrees : ∀ t ∈ adjust f (k :: path) ts, ∀ n ∈ nodes [t], P n.label.1 := by
        refine forall_upsert (P := fun t => ∀ n ∈ nodes [t], P n.label.1) (fun t ht n hn => ?_) ?_
        · refine h n (mem_nodes_iff.mpr ⟨t, ht, ?_⟩)
          obtain ⟨u, hu, hn⟩ := mem_nodes_iff.mp hn
          rw [List.mem_singleton] at hu
          rw [← hu]
          exact hn
        · intro t ht hk
          refine forall_nodes_cons.mpr ⟨hpath.1, ih hpath.2 fun n hn => ?_, by simp⟩
          rcases ht with ht | rfl
          · exact h n (mem_nodes_iff.mpr ⟨t, ht, Or.inr hn⟩)
          · rw [fresh, children_node, nodes_nil] at hn
            cases hn
      intro n hn
      obtain ⟨t, ht, hn⟩ := mem_nodes_iff.mp hn
      exact htrees t ht n (mem_nodes_iff.mpr ⟨t, List.mem_singleton_self t, hn⟩)

theorem forall_keys_credit {P : K → Prop} {es : List (List K × M)}
    (hpaths : ∀ e ∈ es, ∀ k ∈ e.1, P k) {ts : Trie K M} (h : ∀ n ∈ nodes ts, P n.label.1) :
    ∀ n ∈ nodes (credit ts es), P n.label.1 := by
  induction es generalizing ts with
  | nil => exact h
  | cons e es ih =>
      rw [List.forall_mem_cons] at hpaths
      exact ih hpaths.2 (forall_keys_adjust _ hpaths.1 h)

/-! ### Sums over the nodes of a kind of key -/

/-- The sum of the values at the nodes whose key satisfies `p`. -/
def nodeSum (p : K → Bool) (ts : Trie K M) : M :=
  ((nodes ts).map fun n => if p n.label.1 then n.label.2 else 0).sum

omit [DecidableEq K] in
theorem nodeSum_append (p : K → Bool) (ts us : Trie K M) :
    nodeSum p (ts ++ us) = nodeSum p ts + nodeSum p us := by
  rw [nodeSum, nodes_append, List.map_append, List.sum_append]
  rfl

omit [DecidableEq K] in
theorem nodeSum_singleton (p : K → Bool) (k : K) (v : M) (cs : Trie K M) :
    nodeSum p [node (k, v) cs] = (if p k then v else 0) + nodeSum p cs := by
  rw [nodeSum, nodes_cons, nodes_nil, List.append_nil, List.map_cons, List.sum_cons]
  rfl

/-- A credit along a path is in the sum as often as the path has such keys. -/
theorem nodeSum_adjust (p : K → Bool) (m : M) (path : List K) (ts : Trie K M) :
    nodeSum p (adjust (· + m) path ts) = nodeSum p ts + path.countP p • m := by
  induction path generalizing ts with
  | nil => rw [adjust, List.countP_nil, zero_nsmul, add_zero]
  | cons k path ih =>
      refine upsert_additive (nodeSum_append p) rfl ?_ ?_
      · rw [fresh, nodeSum_singleton, ite_self, zero_add]
        rfl
      · rintro ⟨⟨k', v⟩, cs⟩ - hk
        obtain rfl : k' = k := hk
        rw [nodeSum_singleton, nodeSum_singleton, label_node, children_node, ih, List.countP_cons]
        split
        · rw [succ_nsmul, add_add_add_comm, add_comm m]
        · rw [add_zero, zero_add, zero_add]

theorem nodeSum_credit (p : K → Bool) (es : List (List K × M)) (ts : Trie K M) :
    nodeSum p (credit ts es) = nodeSum p ts + (es.map fun e => e.1.countP p • e.2).sum := by
  induction es generalizing ts with
  | nil => simp [credit]
  | cons e es ih =>
      rw [List.map_cons, List.sum_cons, ← add_assoc, ← nodeSum_adjust]
      exact ih _

end Additive

/-! ## Changing the values -/

section Values

variable [Zero M] [Zero N] {φ : M → N}

/-- Applies `φ` to every value of a trie. -/
def mapValues (φ : M → N) : Trie K M → Trie K N := mapForest (Prod.map id φ)

omit [DecidableEq K] [Zero M] [Zero N] in
@[simp] theorem mapValues_nil : mapValues φ ([] : Trie K M) = [] := by
  rw [mapValues, mapForest_nil]

omit [DecidableEq K] [Zero M] [Zero N] in
@[simp] theorem mapValues_cons (k : K) (v : M) (cs ts : Trie K M) :
    mapValues φ (node (k, v) cs :: ts) = node (k, φ v) (mapValues φ cs) :: mapValues φ ts := by
  rw [mapValues, mapForest_cons]
  rfl

/-- Mapping the values and putting one in commute, if the maps do. -/
theorem mapValues_upsert {k : K} {g : Rose (K × M) → Rose (K × M)}
    {g' : Rose (K × N) → Rose (K × N)} {ts : Trie K M} (hzero : φ 0 = 0)
    (hg : ∀ t, t ∈ ts ∨ t = fresh k → mapValues φ [g t] = [g' (t.map (Prod.map id φ))]) :
    mapValues φ (upsert k g ts) = upsert k g' (mapValues φ ts) := by
  induction ts with
  | nil =>
      rw [upsert, hg (fresh k) (Or.inr rfl), mapValues_nil, upsert, fresh, fresh, Rose.map]
      simp [hzero]
  | cons t ts ih =>
      obtain ⟨⟨k', v⟩, cs⟩ := t
      have htail := ih fun t ht => hg t (ht.imp_left (List.mem_cons_of_mem _))
      have hhead := hg (node (k', v) cs) (Or.inl List.mem_cons_self)
      rcases eq_or_ne k' k with rfl | hne
      · have hcons (u : Rose (K × M)) : mapValues φ (u :: ts) = mapValues φ [u] ++ mapValues φ ts := by
          obtain ⟨⟨_, _⟩, _⟩ := u
          simp
        rw [upsert_cons_self, hcons, hhead, mapValues_cons, upsert_cons_self, Rose.map]
        rfl
      · rw [upsert_cons_ne hne, mapValues_cons, mapValues_cons, htail, upsert_cons_ne hne]

/-- Crediting commutes with a map of the values that carries the one change to the other. -/
theorem mapValues_adjust {f : M → M} {f' : N → N} (hzero : φ 0 = 0)
    (hf : ∀ v, φ (f v) = f' (φ v)) (path : List K) (ts : Trie K M) :
    mapValues φ (adjust f path ts) = adjust f' path (mapValues φ ts) := by
  induction path generalizing ts with
  | nil => rfl
  | cons k path ih =>
      rw [adjust, adjust]
      refine mapValues_upsert hzero ?_
      rintro ⟨⟨k', v⟩, cs⟩ _
      rw [mapValues_cons, mapValues_nil, label_node, children_node, ih, hf, Rose.map]
      rfl

end Values

/-- A map of the values that carries sums to sums carries credits to credits. -/
theorem mapValues_credit [AddCommMonoid M] [AddCommMonoid N] (φ : M →+ N)
    (es : List (List K × M)) (ts : Trie K M) :
    mapValues φ (credit ts es) = credit (mapValues φ ts) (es.map fun e => (e.1, φ e.2)) := by
  induction es generalizing ts with
  | nil => rfl
  | cons e es ih =>
      have hstep : mapValues φ (adjust (· + e.2) e.1 ts) =
          adjust (· + φ e.2) e.1 (mapValues φ ts) :=
        mapValues_adjust (map_zero φ) (fun v => map_add φ v e.2) e.1 ts
      rw [List.map_cons]
      show mapValues φ (credit (adjust (· + e.2) e.1 ts) es) = _
      rw [ih, hstep]
      rfl

end Trie
end Stax.Lib
