/-
# Stax.Lib.GroupTree — forests grouped by a key at every level.

`groupTree` merges the trees of a forest whose labels have the same key, and below a group merges
the children of its members in the same way; groups may be left out and are sorted by a comparison
of what they weigh.  A node of it is a key with the labels of the members in the order of the
forest.  The order of siblings in the forest does not matter: it permutes the members of a group and
changes nothing else.
-/
import Mathlib
import Stax.Lib.RoseTree
import Stax.Lib.Collapse

namespace Stax.Lib

/-! ## Sorting by a comparison -/

/-- A list in the order of a comparison. -/
def sortBy {α : Type*} (cmp : α → α → Ordering) (l : List α) : List α :=
  l.insertionSort fun a b => (cmp a b).isLE

section SortBy

variable {α β : Type*} {cmp : α → α → Ordering}

theorem sortBy_perm (l : List α) : (sortBy cmp l).Perm l := List.perm_insertionSort _ l

@[simp] theorem mem_sortBy {l : List α} {a : α} : a ∈ sortBy cmp l ↔ a ∈ l :=
  (sortBy_perm l).mem_iff

/-- A map that keeps the comparison of a list's elements keeps its order. -/
theorem map_sortBy {cmp' : β → β → Ordering} {f : α → β} {l : List α}
    (h : ∀ a ∈ l, ∀ b ∈ l, cmp a b = cmp' (f a) (f b)) :
    (sortBy cmp l).map f = sortBy cmp' (l.map f) := by
  apply List.map_insertionSort
  intro a ha b hb
  rw [h a ha b hb]

/-- Every element of a list has one that corresponds to it. -/
theorem exists_of_forall₂ {R : α → β → Prop} {l : List α} {m : List β} (h : List.Forall₂ R l m)
    {a : α} (ha : a ∈ l) : ∃ b ∈ m, R a b := by
  induction h with
  | nil => cases ha
  | cons hhere _ ih =>
      rcases List.mem_cons.mp ha with rfl | ha
      · exact ⟨_, List.mem_cons_self, hhere⟩
      · obtain ⟨b, hb, hR⟩ := ih ha
        exact ⟨b, List.mem_cons_of_mem _ hb, hR⟩

variable [Std.TransCmp cmp]

theorem pairwise_sortBy (l : List α) : (sortBy cmp l).Pairwise fun a b => (cmp a b).isLE := by
  have : Std.Total fun a b : α => (cmp a b).isLE = true :=
    ⟨fun a b => by
      have hswap : cmp b a = (cmp a b).swap := Std.OrientedCmp.eq_swap
      rw [hswap]
      cases cmp a b <;> simp⟩
  have : IsTrans α fun a b => (cmp a b).isLE = true := ⟨fun _ _ _ => Std.TransCmp.isLE_trans⟩
  exact List.pairwise_insertionSort _ l

/-- Where the comparison tells the elements apart the order they come in does not matter. -/
theorem sortBy_eq_of_perm {l l' : List α} (hperm : l.Perm l')
    (h : ∀ a ∈ l, ∀ b ∈ l, cmp a b = .eq → a = b) : sortBy cmp l = sortBy cmp l' := by
  refine List.Perm.eq_of_pairwise (fun a b ha hb hab hba => ?_) (pairwise_sortBy l)
    (pairwise_sortBy l') (((sortBy_perm l).trans hperm).trans (sortBy_perm l').symm)
  refine h a (mem_sortBy.mp ha) b (hperm.mem_iff.mpr (mem_sortBy.mp hb)) ?_
  have hswap : cmp b a = (cmp a b).swap := Std.OrientedCmp.eq_swap
  rw [hswap] at hba
  cases hcmp : cmp a b with
  | eq => rfl
  | lt => simp [hcmp] at hba
  | gt => simp [hcmp] at hab

omit [Std.TransCmp cmp] in
/-- Lists that correspond up to order correspond in place once they are sorted, where the comparisons
agree and tell the elements apart. -/
theorem forall₂_sortBy {R : α → β → Prop} {cmp' : β → β → Ordering} [Std.TransCmp cmp'] {l : List α}
    {l' m : List β} (hR : List.Forall₂ R l m) (hperm : m.Perm l')
    (hcmp : ∀ a ∈ l, ∀ b ∈ l, ∀ a' ∈ m, ∀ b' ∈ m, R a a' → R b b' → cmp a b = cmp' a' b')
    (heq : ∀ a ∈ m, ∀ b ∈ m, cmp' a b = .eq → a = b) :
    List.Forall₂ R (sortBy cmp l) (sortBy cmp' l') := by
  obtain ⟨hlength, hzip⟩ := List.forall₂_iff_zip.mp hR
  set pairs := l.zip m with hpairs
  have hfst : pairs.map Prod.fst = l := List.map_fst_zip hlength.le
  have hsnd : pairs.map Prod.snd = m := List.map_snd_zip hlength.ge
  have hleft : (sortBy (fun p q : α × β => cmp p.1 q.1) pairs).map Prod.fst = sortBy cmp l := by
    rw [← hfst]
    exact map_sortBy fun _ _ _ _ => rfl
  have hright : (sortBy (fun p q : α × β => cmp p.1 q.1) pairs).map Prod.snd = sortBy cmp' l' := by
    rw [← sortBy_eq_of_perm hperm heq, ← hsnd]
    apply map_sortBy
    intro p hp q hq
    obtain ⟨hpl, hpm⟩ := List.of_mem_zip hp
    obtain ⟨hql, hqm⟩ := List.of_mem_zip hq
    exact hcmp p.1 hpl q.1 hql p.2 hpm q.2 hqm (hzip hp) (hzip hq)
  rw [← hleft, ← hright, List.forall₂_map_left_iff, List.forall₂_map_right_iff, List.forall₂_same]
  exact fun p hp => hzip (mem_sortBy.mp hp)

end SortBy

namespace Rose

variable {α β γ : Type*}

/-! ## Forests up to the order of siblings -/

/-- The same forest but for the order of siblings. -/
inductive Rearranged : List (Rose α) → List (Rose α) → Prop
  | nil : Rearranged [] []
  | cons (a : α) {cs ds ts us : List (Rose α)} (below : Rearranged cs ds)
      (rest : Rearranged ts us) : Rearranged (node a cs :: ts) (node a ds :: us)
  | swap (t u : Rose α) (ts : List (Rose α)) : Rearranged (t :: u :: ts) (u :: t :: ts)
  | trans {f g h : List (Rose α)} (first : Rearranged f g) (second : Rearranged g h) :
      Rearranged f h

namespace Rearranged

variable {f g : List (Rose α)}

theorem refl (f : List (Rose α)) : Rearranged f f := by
  induction f using forest_induction with
  | nil => exact .nil
  | cons a cs ts ihc iht => exact .cons a ihc iht

theorem symm (h : Rearranged f g) : Rearranged g f := by
  induction h with
  | nil => exact .nil
  | cons a _ _ ihc iht => exact .cons a ihc iht
  | swap t u ts => exact .swap u t ts
  | trans _ _ ih ih' => exact ih'.trans ih

theorem of_perm (h : f.Perm g) : Rearranged f g := by
  induction h with
  | nil => exact .nil
  | cons t _ ih =>
      obtain ⟨a, cs⟩ := t
      exact .cons a (refl cs) ih
  | swap t u ts => exact .swap u t ts
  | trans _ _ ih ih' => exact ih.trans ih'

theorem append_left (e : List (Rose α)) (h : Rearranged f g) : Rearranged (e ++ f) (e ++ g) := by
  induction e with
  | nil => exact h
  | cons t e ih =>
      obtain ⟨a, cs⟩ := t
      exact .cons a (refl cs) ih

theorem append {f' g' : List (Rose α)} (h : Rearranged f g) (h' : Rearranged f' g') :
    Rearranged (f ++ f') (g ++ g') := by
  refine (h'.append_left f).trans ?_
  induction h with
  | nil => exact refl g'
  | cons a below _ _ iht => exact .cons a below iht
  | swap t u ts => exact .swap t u (ts ++ g')
  | trans _ _ ih ih' => exact ih.trans ih'

theorem labels (h : Rearranged f g) : (f.map label).Perm (g.map label) := by
  induction h with
  | nil => exact .nil
  | cons a _ _ _ iht => exact iht.cons a
  | swap t u ts => exact List.Perm.swap u.label t.label (ts.map label)
  | trans _ _ ih ih' => exact ih.trans ih'

theorem filter (p : α → Bool) (h : Rearranged f g) :
    Rearranged (f.filter fun t => p t.label) (g.filter fun t => p t.label) := by
  induction h with
  | nil => exact .nil
  | cons a below _ _ iht =>
      rw [List.filter_cons, List.filter_cons, label_node, label_node]
      split
      · exact .cons a below iht
      · exact iht
  | swap t u ts => exact of_perm ((List.Perm.swap u t ts).filter _)
  | trans _ _ ih ih' => exact ih.trans ih'

theorem children (h : Rearranged f g) :
    Rearranged (f.flatMap Rose.children) (g.flatMap Rose.children) := by
  induction h with
  | nil => exact .nil
  | cons a below _ _ iht => exact below.append iht
  | swap t u ts => exact of_perm ((List.Perm.swap u t ts).flatMap_right _)
  | trans _ _ ih ih' => exact ih.trans ih'

theorem nodes_labels (h : Rearranged f g) : ((nodes f).map label).Perm ((nodes g).map label) := by
  induction h with
  | nil => exact .nil
  | cons a _ _ ihc iht =>
      rw [nodes_cons, nodes_cons, List.map_cons, List.map_cons, List.map_append, List.map_append]
      exact (ihc.append iht).cons a
  | swap t u ts =>
      have hsplit (t u : Rose α) : nodes (t :: u :: ts) = nodes [t] ++ (nodes [u] ++ nodes ts) := by
        rw [← nodes_append, ← nodes_append]
        rfl
      rw [hsplit, hsplit]
      exact (List.perm_append_comm_assoc _ _ _).map label
  | trans _ _ ih ih' => exact ih.trans ih'

end Rearranged

/-! ## Forests of the same shape -/

/-- Forests of the same shape whose labels are related place by place. -/
inductive Related (R : α → β → Prop) : List (Rose α) → List (Rose β) → Prop
  | nil : Related R [] []
  | cons {a : α} {b : β} {cs ts : List (Rose α)} {ds us : List (Rose β)} (here : R a b)
      (below : Related R cs ds) (rest : Related R ts us) :
      Related R (node a cs :: ts) (node b ds :: us)

namespace Related

variable {R : α → β → Prop} {f : List (Rose α)} {g : List (Rose β)}

theorem imp {S : α → β → Prop} (h : Related R f g) (himp : ∀ a b, R a b → S a b) :
    Related S f g := by
  induction h with
  | nil => exact .nil
  | cons here _ _ ihc iht => exact .cons (himp _ _ here) ihc iht

/-- What is known of the labels of both forests may be used. -/
theorem imp_of_mem {S : α → β → Prop} {P : α → Prop} {Q : β → Prop} (h : Related R f g)
    (hP : ∀ n ∈ nodes f, P n.label) (hQ : ∀ n ∈ nodes g, Q n.label)
    (himp : ∀ a b, P a → Q b → R a b → S a b) : Related S f g := by
  induction h with
  | nil => exact .nil
  | cons here _ _ ihc iht =>
      obtain ⟨hPhere, hPbelow, hPrest⟩ := forall_nodes_cons.mp hP
      obtain ⟨hQhere, hQbelow, hQrest⟩ := forall_nodes_cons.mp hQ
      exact .cons (himp _ _ hPhere hQhere here) (ihc hPbelow hQbelow) (iht hPrest hQrest)

theorem append {f' : List (Rose α)} {g' : List (Rose β)} (h : Related R f g)
    (h' : Related R f' g') : Related R (f ++ f') (g ++ g') := by
  induction h with
  | nil => exact h'
  | cons here below _ _ iht => exact .cons here below iht

theorem mapForest {α' β' : Type*} {φ : α → α'} {ψ : β → β'} {S : α' → β' → Prop}
    (h : Related (fun a b => S (φ a) (ψ b)) f g) :
    Related S (Rose.mapForest φ f) (Rose.mapForest ψ g) := by
  induction h with
  | nil => exact .nil
  | cons here _ _ ihc iht =>
      rw [mapForest_cons, mapForest_cons]
      exact .cons here ihc iht

theorem labels (h : Related R f g) : List.Forall₂ R (f.map label) (g.map label) := by
  induction h with
  | nil => exact .nil
  | cons here _ _ _ iht => exact .cons here iht

/-- Pulling up repetitions keeps the relation when it repeats the same. -/
theorem collapse {same : α → α → Bool} {same' : β → β → Bool}
    (hsame : ∀ a b s s', R a b → R s s' → same a s = same' b s') {s : α} {s' : β} (hs : R s s')
    (h : Related R f g) : Related R (Rose.collapse same s f) (Rose.collapse same' s' g) := by
  induction h generalizing s s' with
  | nil =>
      rw [collapse_nil, collapse_nil]
      exact .nil
  | cons here _ _ ihc iht =>
      rw [collapse_cons, collapse_cons, hsame _ _ _ _ here hs]
      refine append ?_ (iht hs)
      split
      · exact ihc hs
      · exact .cons here (ihc here) .nil

/-- So does pulling up repetitions below every tree. -/
theorem collapseBelow {same : α → α → Bool} {same' : β → β → Bool}
    (hsame : ∀ a b s s', R a b → R s s' → same a s = same' b s') (h : Related R f g) :
    Related R (f.map fun t => node t.label (Rose.collapse same t.label t.children))
      (g.map fun t => node t.label (Rose.collapse same' t.label t.children)) := by
  induction h with
  | nil => exact .nil
  | cons here below _ _ iht => exact .cons here (below.collapse hsame here) iht

end Related

/-! ## Groups -/

section Groups

variable {K M : Type*} [DecidableEq K] [AddCommMonoid M] (key : α → K) (w : α → M)
  (keep : K × M → Bool) (cmp : K × M → K × M → Ordering)

/-- The trees with a key. -/
def withKey (k : K) (f : List (Rose α)) : List (Rose α) := f.filter fun t => key t.label = k

/-- What the trees with a key have below them. -/
def belowKey (k : K) (f : List (Rose α)) : List (Rose α) := (withKey key k f).flatMap children

/-- A key with what the trees that have it weigh. -/
def weighed (f : List (Rose α)) (k : K) : K × M :=
  (k, ((withKey key k f).map fun t => w t.label).sum)

/-- The keys of the groups that are kept, in order. -/
def groupKeys (f : List (Rose α)) : List K :=
  sortBy (fun a b => cmp (weighed key w f a) (weighed key w f b))
    ((f.map fun t => key t.label).dedup.filter fun k => keep (weighed key w f k))

variable {key w keep cmp} {f g : List (Rose α)} {k : K}

theorem mem_withKey {t : Rose α} : t ∈ withKey key k f ↔ t ∈ f ∧ key t.label = k := by
  unfold withKey
  rw [List.mem_filter, decide_eq_true_iff]

theorem withKey_append (f g : List (Rose α)) :
    withKey key k (f ++ g) = withKey key k f ++ withKey key k g :=
  List.filter_append f g

theorem mem_groupKeys :
    k ∈ groupKeys key w keep cmp f ↔
      withKey key k f ≠ [] ∧ keep (weighed key w f k) = true := by
  unfold groupKeys
  rw [mem_sortBy, List.mem_filter, List.mem_dedup]
  refine and_congr_left fun _ => ?_
  rw [List.mem_map]
  constructor
  · rintro ⟨t, ht, hk⟩
    exact List.ne_nil_of_mem (mem_withKey.mpr ⟨ht, hk⟩)
  · intro hne
    obtain ⟨t, ht⟩ := List.exists_mem_of_ne_nil _ hne
    exact ⟨t, mem_withKey.mp ht⟩

/-- A group has less below it than the forest it was found in. -/
theorem sizeForest_belowKey_lt (h : withKey key k f ≠ []) :
    sizeForest (belowKey key k f) < sizeForest f := by
  have hmembers (ts : List (Rose α)) (hts : ts ≠ []) :
      sizeForest (ts.flatMap children) < sizeForest ts := by
    induction ts with
    | nil => exact absurd rfl hts
    | cons t ts ih =>
        rw [List.flatMap_cons, sizeForest_append, sizeForest_cons, size_eq]
        rcases ts with _ | ⟨u, us⟩
        · simp
        · have hrest := ih (List.cons_ne_nil u us)
          omega
  have hsub : sizeForest (withKey key k f) ≤ sizeForest f := by
    rw [sizeForest_eq_sum, sizeForest_eq_sum]
    exact (List.filter_sublist.map size).sum_le_sum fun _ _ => Nat.zero_le _
  exact (hmembers _ h).trans_le hsub

variable (key w keep cmp) in
/-- The forest of groups: each a key with the labels of its members. -/
def groupTree (f : List (Rose α)) : List (Rose (K × List α)) :=
  (groupKeys key w keep cmp f).attach.map fun k =>
    node (k.1, (withKey key k.1 f).map label) (groupTree (belowKey key k.1 f))
termination_by sizeForest f
decreasing_by exact sizeForest_belowKey_lt (mem_groupKeys.mp k.2).1

theorem groupTree_eq (f : List (Rose α)) :
    groupTree key w keep cmp f = (groupKeys key w keep cmp f).map fun k =>
      node (k, (withKey key k f).map label) (groupTree key w keep cmp (belowKey key k f)) := by
  rw [groupTree]
  exact List.attach_map_val (f := fun k =>
    node (k, (withKey key k f).map label) (groupTree key w keep cmp (belowKey key k f)))

variable (key) in
/-- What holds of a forest when it holds of what its groups have below them holds of all. -/
theorem groupTree_induction {P : List (Rose α) → Prop}
    (step : ∀ f, (∀ k, withKey key k f ≠ [] → P (belowKey key k f)) → P f) (f : List (Rose α)) :
    P f := by
  induction hsize : sizeForest f using Nat.strong_induction_on generalizing f with
  | _ n ih =>
      refine step f fun k hk => ih (sizeForest (belowKey key k f)) ?_ (belowKey key k f) rfl
      rw [← hsize]
      exact sizeForest_belowKey_lt hk

/-! ### The groups of a forest -/

variable (key) in
/-- A key and labels of the members of a group: the trees of the forest with that key, or a group of
what some of them have below. -/
inductive IsGroup : List (Rose α) → K × List α → Prop
  | here {f : List (Rose α)} (k : K) (found : withKey key k f ≠ []) :
      IsGroup f (k, (withKey key k f).map label)
  | under {f : List (Rose α)} (k : K) {e : K × List α} (group : IsGroup (belowKey key k f) e) :
      IsGroup f e

theorem isGroup_of_mem_groupTree {n : Rose (K × List α)}
    (hn : n ∈ nodes (groupTree key w keep cmp f)) : IsGroup key f n.label := by
  induction f using groupTree_induction key with
  | step f ih =>
      rw [groupTree_eq] at hn
      obtain ⟨t, ht, hn⟩ := mem_nodes_iff.mp hn
      obtain ⟨k, hk, rfl⟩ := List.mem_map.mp ht
      have hsome := (mem_groupKeys.mp hk).1
      rcases hn with rfl | hn
      · exact .here k hsome
      · exact .under k (ih k hsome hn)

/-- A group has members, and they are nodes of the forest with the group's key. -/
theorem IsGroup.members {e : K × List α} (h : IsGroup key f e) :
    e.2 ≠ [] ∧ ∀ a ∈ e.2, key a = e.1 ∧ ∃ m ∈ nodes f, m.label = a := by
  induction h with
  | here k found =>
      refine ⟨by simpa using found, fun a ha => ?_⟩
      obtain ⟨t, ht, rfl⟩ := List.mem_map.mp ha
      obtain ⟨ht, hk⟩ := mem_withKey.mp ht
      exact ⟨hk, t, mem_nodes_self ht, rfl⟩
  | under k group ih =>
      refine ⟨ih.1, fun a ha => ?_⟩
      obtain ⟨hk, m, hm, hlabel⟩ := ih.2 a ha
      obtain ⟨t, ht, hmt⟩ := mem_nodes_iff.mp hm
      obtain ⟨u, hu, ht⟩ := List.mem_flatMap.mp ht
      refine ⟨hk, m, mem_nodes_iff.mpr ⟨u, (mem_withKey.mp hu).1, Or.inr ?_⟩, hlabel⟩
      exact mem_nodes_iff.mpr ⟨t, ht, hmt⟩

/-! ### The nodes at a key path -/

/-- The nodes at a key path are the members of its first group, or lie below them. -/
theorem pathSum_atKeys_group (k : K) (ks : List K) (g : Rose α → M) (f : List (Rose α)) :
    pathSum (atKeys key (k :: ks)) g f =
      (if ks = [] then ((withKey key k f).map g).sum else 0) +
        pathSum (atKeys key ks) g (belowKey key k f) := by
  rw [pathSum_atKeys_cons, belowKey, pathSum_flatMap]
  induction f with
  | nil => simp [withKey]
  | cons t ts ih =>
      have hwith : withKey key k (t :: ts) =
          (if key t.label = k then [t] else []) ++ withKey key k ts := by
        unfold withKey
        rw [List.filter_cons]
        by_cases hk : key t.label = k <;> simp [hk]
      rw [List.map_cons, List.sum_cons, ih, hwith]
      by_cases hk : key t.label = k
      · by_cases hks : ks = []
        · simp [hk, hks]
        · simp [hk, hks]
      · simp [hk]

/-- A key path leads to a node when it does among the members of its first group, or below them. -/
theorem exists_atKeys_group {f : List (Rose α)} {k : K} {ks : List K} :
    (∃ n ∈ walkForest f, n.1.map key = k :: ks) ↔
      withKey key k f ≠ [] ∧ (ks = [] ∨ ∃ n ∈ walkForest (belowKey key k f), n.1.map key = ks) := by
  have hbelow : (∃ n ∈ walkForest (belowKey key k f), n.1.map key = ks) ↔
      ∃ t ∈ withKey key k f, ∃ m ∈ walkForest t.children, m.1.map key = ks := by
    rw [belowKey, walkForest_flatMap]
    simp only [List.mem_flatMap]
    constructor
    · rintro ⟨n, ⟨t, ht, hn⟩, hkeys⟩
      exact ⟨t, ht, n, hn, hkeys⟩
    · rintro ⟨t, ht, n, hn, hkeys⟩
      exact ⟨n, ⟨t, ht, hn⟩, hkeys⟩
  rw [hbelow]
  constructor
  · rintro ⟨n, hn, hkeys⟩
    obtain ⟨t, ht, rfl | ⟨m, hm, rfl⟩⟩ := mem_walkForest.mp hn
    · obtain ⟨hk, hks⟩ := List.cons_eq_cons.mp hkeys
      exact ⟨List.ne_nil_of_mem (mem_withKey.mpr ⟨ht, hk⟩), Or.inl hks.symm⟩
    · obtain ⟨hk, hks⟩ := List.cons_eq_cons.mp hkeys
      have hwith := mem_withKey.mpr ⟨ht, hk⟩
      exact ⟨List.ne_nil_of_mem hwith, Or.inr ⟨t, hwith, m, hm, hks⟩⟩
  · rintro ⟨hne, rfl | ⟨t, ht, m, hm, rfl⟩⟩
    · obtain ⟨t, ht⟩ := List.exists_mem_of_ne_nil _ hne
      obtain ⟨ht, hk⟩ := mem_withKey.mp ht
      exact ⟨_, mem_walkForest.mpr ⟨t, ht, Or.inl rfl⟩, by rw [List.map_singleton, hk]⟩
    · obtain ⟨ht, hk⟩ := mem_withKey.mp ht
      exact ⟨_, mem_walkForest.mpr ⟨t, ht, Or.inr ⟨m, hm, rfl⟩⟩, by rw [List.map_cons, hk]⟩

/-! ### The order of siblings -/

theorem Rearranged.withKey (h : Rearranged f g) (k : K) :
    Rearranged (withKey key k f) (Rose.withKey key k g) :=
  h.filter fun a => key a = k

theorem Rearranged.belowKey (h : Rearranged f g) (k : K) :
    Rearranged (belowKey key k f) (Rose.belowKey key k g) :=
  (h.withKey k).children

theorem Rearranged.weighed_eq (h : Rearranged f g) (k : K) :
    weighed key w f k = weighed key w g k := by
  have hperm : (((Rose.withKey key k f).map label).map w).Perm
      (((Rose.withKey key k g).map label).map w) := (h.withKey k).labels.map w
  rw [List.map_map, List.map_map] at hperm
  exact congrArg (k, ·) hperm.sum_eq

variable [Std.TransCmp cmp]

/-- The order of siblings does not change which groups there are, nor their order. -/
theorem Rearranged.groupKeys_eq (hcmp : ∀ a b, cmp a b = .eq → a.1 = b.1)
    (h : Rearranged f g) : groupKeys key w keep cmp f = groupKeys key w keep cmp g := by
  have hweighed : weighed key w f = weighed key w g := funext fun k => h.weighed_eq k
  have hkeys : (f.map fun t => key t.label).Perm (g.map fun t => key t.label) := by
    have hperm := h.labels.map key
    rw [List.map_map, List.map_map] at hperm
    exact hperm
  have : Std.TransCmp fun a b => cmp (weighed key w g a) (weighed key w g b) :=
    { eq_swap := Std.OrientedCmp.eq_swap
      isLE_trans := Std.TransCmp.isLE_trans }
  unfold groupKeys
  rw [hweighed]
  exact sortBy_eq_of_perm (hkeys.dedup.filter _) fun a _ b _ hab => hcmp _ _ hab

/-- The order of siblings only permutes the members of the groups. -/
theorem Rearranged.groupTree (hcmp : ∀ a b, cmp a b = .eq → a.1 = b.1) (h : Rearranged f g) :
    Related (fun e e' => e.1 = e'.1 ∧ e.2.Perm e'.2) (groupTree key w keep cmp f)
      (Rose.groupTree key w keep cmp g) := by
  induction f using groupTree_induction key generalizing g with
  | step f ih =>
      have hkeys : groupKeys key w keep cmp f = groupKeys key w keep cmp g :=
        h.groupKeys_eq hcmp
      have hkept : ∀ k ∈ groupKeys key w keep cmp f, Rose.withKey key k f ≠ [] :=
        fun k hk => (mem_groupKeys.mp hk).1
      rw [groupTree_eq, groupTree_eq, ← hkeys]
      generalize groupKeys key w keep cmp f = keys at hkept
      induction keys with
      | nil => exact .nil
      | cons k keys ihk =>
          rw [List.forall_mem_cons] at hkept
          exact .cons ⟨rfl, (h.withKey k).labels⟩ (ih k hkept.1 (h.belowKey k)) (ihk hkept.2)

end Groups

end Rose

end Stax.Lib
