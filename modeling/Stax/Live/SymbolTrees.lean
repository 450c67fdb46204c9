/-
# Stax.Live.SymbolTrees — the trees that are sent, as trees of groups.

The flame graph and the two trees of a symbol's neighbours are built by different code from
different sources, but all are the forest of groups of some stack forest: a node is a symbol with
the entries that were added up in it.  They differ in which groups are left out, and in how a group
chooses the address it shows: the first of its entries with most on-CPU time, or, in the neighbours,
nothing as long as no entry has any.
-/
import Stax.Live.Neighbors
import Stax.Live.FlameSiblings

namespace Stax.Live

open Stax.Lib Stax.Lib.Rose

/-! ## The order of groups -/

/-- The on-CPU time of an entry. -/
def onCpuOf (a : Addr × Counters) : ℕ := a.2.onCpuNs.val

/-- Longest first, then by function and by binary. -/
def compareTotals (a b : SymbolKey × Counters) : Ordering :=
  (compare b.2.durationNs.val a.2.durationNs.val).then
    ((compare a.1.1 b.1.1).then (compare a.1.2 b.1.2))

theorem compareTotals_eq :
    compareTotals = compareLex
      (fun a b => compareOn (fun e : SymbolKey × Counters => e.2.durationNs.val) b a)
      (compareLex (compareOn fun e => e.1.1) (compareOn fun e => e.1.2)) :=
  rfl

instance : Std.TransCmp compareTotals := by
  rw [compareTotals_eq]
  infer_instance

/-- Different symbols are told apart. -/
theorem key_eq_of_compareTotals {a b : SymbolKey × Counters} (h : compareTotals a b = .eq) :
    a.1 = b.1 := by
  obtain ⟨-, hkeys⟩ := Ordering.then_eq_eq.mp h
  obtain ⟨hname, hbinary⟩ := Ordering.then_eq_eq.mp hkeys
  exact Prod.ext (Std.compare_eq_iff_eq.mp hname) (Std.compare_eq_iff_eq.mp hbinary)

/-! ## What a symbol node has accumulated -/

section Accumulate

variable {binaries : BinaryRegistry}

/-- Counters without those of the PMU. -/
def timed (a : Addr × Counters) : Counters := { a.2 with pmc := 0 }

/-- The representative a symbol node starts with. -/
def noEntry : Addr × Counters := (0, 0)

/-- The entry a symbol node shows: the first of those with most on-CPU time, if any has some. -/
def shownEntry (entries : List (Addr × Counters)) : Addr × Counters :=
  RunningMax.leader onCpuOf noEntry entries

/-- An entry with on-CPU time is shown when there is one. -/
theorem shownEntry_mem {entries : List (Addr × Counters)} {a : Addr × Counters} (ha : a ∈ entries)
    (htime : onCpuOf a ≠ 0) : shownEntry entries ∈ entries ∧ onCpuOf (shownEntry entries) ≠ 0 := by
  have hpos : 0 < onCpuOf a := Nat.pos_of_ne_zero htime
  have hle : onCpuOf a ≤ onCpuOf (shownEntry entries) := RunningMax.le_leader a ha
  refine ⟨RunningMax.leader_mem ha hpos, ?_⟩
  omega

theorem shownEntry_eq_noEntry {entries : List (Addr × Counters)}
    (h : ∀ a ∈ entries, onCpuOf a = 0) : shownEntry entries = noEntry :=
  RunningMax.leader_eq_start fun a ha => Nat.le_of_eq (h a ha)

/-- What a symbol node says its code is. -/
def shownCode (binaries : BinaryRegistry) (entries : List (Addr × Counters)) : Bool × Language :=
  if onCpuOf (shownEntry entries) = 0 then (false, .unknown)
  else
    ((classify (shownEntry entries).1 binaries).isMain,
      (classify (shownEntry entries).1 binaries).language)

/-- A group of the neighbours, as it is sent. -/
def neighborAcc (binaries : BinaryRegistry) (entries : List (Addr × Counters)) : Acc where
  counters := (entries.map timed).sum
  repAddr := (shownEntry entries).1
  repSelfNs := (shownEntry entries).2.onCpuNs
  isMain := (shownCode binaries entries).1
  language := (shownCode binaries entries).2

theorem acc_accumulateAt (sn : SymbolNode) (a : Addr × Counters) :
    (accumulateAt binaries sn a.1 a.2).acc =
      if sn.repSelfNs.val < onCpuOf a then
        { counters := sn.acc.counters + timed a
          repAddr := a.1
          repSelfNs := a.2.onCpuNs
          isMain := (classify a.1 binaries).isMain
          language := (classify a.1 binaries).language }
      else { sn.acc with counters := sn.acc.counters + timed a } := by
  unfold accumulateAt accumulate onCpuOf
  dsimp only
  split <;> rfl

/-- A symbol node has added up its entries, and shows the first of those with most on-CPU time. -/
theorem acc_accumulateAll (entries : List (Addr × Counters)) :
    (accumulateAll binaries {} entries).acc = neighborAcc binaries entries := by
  induction entries using List.reverseRecOn with
  | nil => rfl
  | append_singleton entries a ih =>
      have hconcat : accumulateAll binaries {} (entries ++ [a]) =
          accumulateAt binaries (accumulateAll binaries {} entries) a.1 a.2 := by
        simp [accumulateAll]
      have hsum : ((entries ++ [a]).map timed).sum = (entries.map timed).sum + timed a := by
        rw [List.map_append, List.sum_append, List.map_singleton, List.sum_singleton]
      have hrep : (accumulateAll binaries {} entries).repSelfNs = (shownEntry entries).2.onCpuNs :=
        congrArg Acc.repSelfNs ih
      have hshown : shownEntry (entries ++ [a]) =
          RunningMax.challenge onCpuOf (shownEntry entries) a :=
        RunningMax.leader_concat a
      rw [hconcat, acc_accumulateAt, ih, hrep]
      unfold neighborAcc shownCode
      rw [hsum, hshown, RunningMax.challenge]
      by_cases hlt : (shownEntry entries).2.onCpuNs.val < onCpuOf a
      · have hpos : ¬ onCpuOf a = 0 := by omega
        rw [if_pos hlt, if_pos (show onCpuOf (shownEntry entries) < onCpuOf a from hlt),
          if_neg hpos]
      · rw [if_neg hlt, if_neg (show ¬ onCpuOf (shownEntry entries) < onCpuOf a from hlt)]

end Accumulate

/-! ## Merging is grouping -/

section Merge

variable {binaries : BinaryRegistry}

/-- The trees of a forest collected under their symbols. -/
def collect (binaries : BinaryRegistry) (f : List (Rose (Addr × Counters))) :
    List (SymbolKey × List (Rose (Addr × Counters))) :=
  Grouping.group (fun t : Rose (Addr × Counters) => keyOf binaries t.label) (fun _ => [])
    (fun members t => members ++ [t]) f

/-- The symbol node of some members, over what they have below them. -/
def mergedNode (binaries : BinaryRegistry)
    (e : SymbolKey × List (Rose (Addr × Counters))) : Rose (SymbolKey × SymbolNode) :=
  node (e.1, accumulateAll binaries {} (e.2.map label))
    (mergeDescendants binaries [] (e.2.flatMap children))

/-- Each symbol is collected with the trees at whose roots it stands, and only where there are any.
-/
theorem mem_collect {f : List (Rose (Addr × Counters))}
    {e : SymbolKey × List (Rose (Addr × Counters))} :
    e ∈ collect binaries f ↔ e.2 = withKey (keyOf binaries) e.1 f ∧ e.2 ≠ [] := by
  have hfold (members ts : List (Rose (Addr × Counters))) :
      ts.foldl (fun members t => members ++ [t]) members = members ++ ts := by
    induction ts generalizing members with
    | nil => simp
    | cons t ts ih => rw [List.foldl_cons, ih, List.append_assoc, List.singleton_append]
  unfold collect
  rw [Grouping.mem_group]
  constructor
  · rintro ⟨t, ts, hmembers, he⟩
    rw [hfold, List.nil_append] at he
    rw [he]
    exact ⟨hmembers.symm, List.cons_ne_nil t ts⟩
  · rintro ⟨he, hne⟩
    obtain ⟨t, ts, hcons⟩ := List.exists_cons_of_ne_nil hne
    refine ⟨t, ts, ?_, ?_⟩
    · rw [← hcons, he]
      rfl
    · rw [hfold, List.nil_append, hcons]

theorem nodup_collect (f : List (Rose (Addr × Counters))) :
    ((collect binaries f).map Prod.fst).Nodup :=
  Grouping.nodup_group f

/-- The keys collected are those of the forest. -/
theorem keys_collect_perm (f : List (Rose (Addr × Counters))) :
    ((collect binaries f).map Prod.fst).Perm (f.map fun t => keyOf binaries t.label).dedup := by
  refine (List.perm_ext_iff_of_nodup (nodup_collect f) (List.nodup_dedup _)).mpr fun k => ?_
  rw [List.mem_dedup, List.mem_map, List.mem_map]
  constructor
  · rintro ⟨e, he, rfl⟩
    obtain ⟨hmembers, hne⟩ := mem_collect.mp he
    rw [hmembers] at hne
    obtain ⟨t, ht⟩ := List.exists_mem_of_ne_nil _ hne
    exact ⟨t, mem_withKey.mp ht⟩
  · rintro ⟨t, ht, hk⟩
    refine ⟨(k, withKey (keyOf binaries) k f), mem_collect.mpr ⟨rfl, ?_⟩, rfl⟩
    exact List.ne_nil_of_mem (mem_withKey.mpr ⟨ht, hk⟩)

/-- Merging one more child adds it to its group. -/
theorem upsert_mergedNode (t : Rose (Addr × Counters))
    (es : List (SymbolKey × List (Rose (Addr × Counters)))) :
    mergeDescendants binaries (es.map (mergedNode binaries)) [t] =
      (Grouping.upsert (keyOf binaries t.label) [] (fun members => members ++ [t]) es).map
        (mergedNode binaries) := by
  obtain ⟨a, cs⟩ := t
  have hgrow (k : SymbolKey) (members : List (Rose (Addr × Counters))) :
      mergedNode binaries (k, members ++ [node a cs]) =
        node (k, accumulateAt binaries (mergedNode binaries (k, members)).label.2 a.1 a.2)
          (mergeDescendants binaries (mergedNode binaries (k, members)).children cs) := by
    unfold mergedNode
    rw [List.map_append, List.flatMap_append, mergeDescendants_append]
    simp [accumulateAll]
  rw [mergeDescendants_cons, mergeDescendants_nil, label_node]
  induction es with
  | nil =>
      rw [Grouping.upsert, List.map_singleton, hgrow, List.map_nil, Trie.upsert]
      rfl
  | cons e es ih =>
      obtain ⟨k, members⟩ := e
      rw [List.map_cons, Trie.upsert, Grouping.upsert, ih]
      have hkey : (mergedNode binaries (k, members)).label.1 = k := rfl
      rw [hkey]
      dsimp only
      split
      · rename_i hk
        rw [List.map_cons, ← hk, hgrow]
      · rw [List.map_cons]

/-- Merging a forest makes a symbol node of each of its groups. -/
theorem mergeDescendants_eq (f : List (Rose (Addr × Counters))) :
    mergeDescendants binaries [] f = (collect binaries f).map (mergedNode binaries) := by
  induction f using List.reverseRecOn with
  | nil => exact mergeDescendants_nil []
  | append_singleton f t ih =>
      rw [mergeDescendants_append, ih, upsert_mergedNode, collect, collect, Grouping.group_concat]

/-- The symbol nodes are the groups of the forest. -/
theorem mem_mergeDescendants {f : List (Rose (Addr × Counters))}
    {t : Rose (SymbolKey × SymbolNode)} :
    t ∈ mergeDescendants binaries [] f ↔ ∃ k, withKey (keyOf binaries) k f ≠ [] ∧
      t = mergedNode binaries (k, withKey (keyOf binaries) k f) := by
  rw [mergeDescendants_eq, List.mem_map]
  constructor
  · rintro ⟨⟨k, members⟩, he, rfl⟩
    obtain ⟨hmembers, hne⟩ := mem_collect.mp he
    obtain rfl : members = withKey (keyOf binaries) k f := hmembers
    exact ⟨k, hne, rfl⟩
  · rintro ⟨k, hne, rfl⟩
    exact ⟨(k, withKey (keyOf binaries) k f), mem_collect.mpr ⟨rfl, hne⟩, rfl⟩

/-- Whether a group carries enough time to be sent. -/
def longEnough (threshold : ℕ) (e : SymbolKey × Counters) : Bool :=
  threshold ≤ e.2.durationNs.val

/-- The groups of the neighbours that are sent. -/
def neighborGroups (binaries : BinaryRegistry) (threshold : ℕ)
    (f : List (Rose (Addr × Counters))) : List (Rose (SymbolKey × List (Addr × Counters))) :=
  groupTree (keyOf binaries) timed (longEnough threshold) compareTotals f

/-- The children that are sent are the groups that carry enough time, in order. -/
theorem visible_mergeDescendants (threshold : ℕ) (f : List (Rose (Addr × Counters))) :
    visible threshold (mergeDescendants binaries [] f) =
      (groupKeys (keyOf binaries) timed (longEnough threshold) compareTotals f).map
        fun k => mergedNode binaries (k, withKey (keyOf binaries) k f) := by
  set keys := (collect binaries f).map Prod.fst with hkeys
  have hcollect : mergeDescendants binaries [] f =
      keys.map fun k => mergedNode binaries (k, withKey (keyOf binaries) k f) := by
    rw [mergeDescendants_eq, hkeys, List.map_map]
    refine List.map_congr_left fun e he => ?_
    show mergedNode binaries e = mergedNode binaries (e.1, withKey (keyOf binaries) e.1 f)
    rw [← (mem_collect.mp he).1]
  have hweighed (k : SymbolKey) :
      ((mergedNode binaries (k, withKey (keyOf binaries) k f)).label.1,
        (mergedNode binaries (k, withKey (keyOf binaries) k f)).label.2.acc.counters) =
      weighed (keyOf binaries) timed f k := by
    unfold mergedNode weighed
    rw [label_node, acc_accumulateAll]
    show (k, (((withKey (keyOf binaries) k f).map label).map timed).sum) = _
    rw [List.map_map]
    rfl
  have hperm : keys.Perm (f.map fun t => keyOf binaries t.label).dedup := keys_collect_perm f
  have : Std.TransCmp fun a b =>
      compareTotals (weighed (keyOf binaries) timed f a) (weighed (keyOf binaries) timed f b) :=
    { eq_swap := Std.OrientedCmp.eq_swap
      isLE_trans := Std.TransCmp.isLE_trans }
  have hkept : keys.filter ((fun c => decide (threshold ≤ c.label.2.totalNs.val)) ∘
        fun k => mergedNode binaries (k, withKey (keyOf binaries) k f)) =
      keys.filter fun k => longEnough threshold (weighed (keyOf binaries) timed f k) := by
    refine List.filter_congr fun k _ => ?_
    rw [← hweighed]
    rfl
  have hsorted : groupKeys (keyOf binaries) timed (longEnough threshold) compareTotals f =
      sortBy (fun a b => compareTotals (weighed (keyOf binaries) timed f a)
        (weighed (keyOf binaries) timed f b))
        (keys.filter fun k => longEnough threshold (weighed (keyOf binaries) timed f k)) :=
    (sortBy_eq_of_perm (hperm.filter _) fun a _ b _ hab => key_eq_of_compareTotals hab).symm
  rw [hcollect, visible, List.filter_map, hkept, hsorted]
  symm
  apply map_sortBy
  intro a _ b _
  rw [← hweighed, ← hweighed]
  rfl

end Merge

/-! ## The trees of the neighbours, by the indices of a table -/

section Sent

variable {binaries : BinaryRegistry}

/-- A group of the neighbours with its symbol, as it is sent. -/
def neighborEntry (binaries : BinaryRegistry) (e : SymbolKey × List (Addr × Counters)) :
    SymbolKey × Acc :=
  (e.1, neighborAcc binaries e.2)

theorem cacheSound_none (binaries : BinaryRegistry) (interner : StringInterner) :
    CacheSound binaries ({ interner } : BuildState).symbolCache := by
  intro addr r hr
  cases hr

/-- The trees sent for a merged forest are its groups by the indices of the table. -/
theorem built_toFlameNodes (threshold : ℕ) (f : List (Rose (Addr × Counters)))
    (interner : StringInterner) (hwf : interner.WF) :
    let sent := toFlameNodes threshold (visible threshold (mergeDescendants binaries [] f)) interner
    Built binaries (mapForest (neighborEntry binaries) (neighborGroups binaries threshold f))
      { interner } (sent.1, { interner := sent.2 }) := by
  induction f using groupTree_induction (keyOf binaries) generalizing interner with
  | step f ih =>
      have hkept : ∀ k ∈ groupKeys (keyOf binaries) timed (longEnough threshold) compareTotals f,
          withKey (keyOf binaries) k f ≠ [] := fun k hk => (mem_groupKeys.mp hk).1
      rw [visible_mergeDescendants, neighborGroups, groupTree_eq]
      generalize groupKeys (keyOf binaries) timed (longEnough threshold) compareTotals f = keys
        at hkept
      induction keys generalizing interner with
      | nil =>
          rw [List.map_nil, List.map_nil, mapForest_nil, toFlameNodes]
          exact Built.nil (cacheSound_none binaries interner) hwf
      | cons k keys ihk =>
          rw [List.forall_mem_cons] at hkept
          have hbelow := ih k hkept.1 interner hwf
          have hacc : (accumulateAll binaries {} ((withKey (keyOf binaries) k f).map label)).acc =
              neighborAcc binaries ((withKey (keyOf binaries) k f).map label) :=
            acc_accumulateAll _
          rw [List.map_cons, List.map_cons, mapForest_cons, toFlameNodes, mergedNode, toFlameNode,
            hacc]
          have hwf' := (internData_spec hbelow.wf k
            (neighborAcc binaries ((withKey (keyOf binaries) k f).map label))).1
          exact hbelow.cons (ihk _ hwf' hkept.2)

end Sent

/-! ## The flame graph as a tree of groups -/

section FlameGroups

variable {binaries : BinaryRegistry}

/-- The entry a group of the flame graph shows: the first of those with most on-CPU time. -/
def flameRep : List (Addr × Counters) → Addr × Counters
  | [] => noEntry
  | first :: rest => RunningMax.leader onCpuOf first rest

/-- A group of the flame graph with its symbol, as it is sent. -/
def flameEntry (binaries : BinaryRegistry) (e : SymbolKey × List (Addr × Counters)) :
    SymbolKey × Acc :=
  (e.1,
    { counters := (e.2.map Prod.snd).sum
      repAddr := (flameRep e.2).1
      isMain := (classify (flameRep e.2).1 binaries).isMain
      language := (classify (flameRep e.2).1 binaries).language })

/-- The groups of the flame graph: all of them, longest first. -/
def flameGroups (binaries : BinaryRegistry) (f : List (Rose (Addr × Counters))) :
    List (Rose (SymbolKey × List (Addr × Counters))) :=
  groupTree (keyOf binaries) Prod.snd (fun _ => true) compareTotals f

/-- What an accumulator shows: an address with its time and what it resolves to. -/
def Acc.shown (self : Acc) : Addr × U64 × Bool × Language :=
  (self.repAddr, self.repSelfNs, self.isMain, self.language)

/-- What an accumulator shows of an entry. -/
def shownAs (binaries : BinaryRegistry) (a : Addr × Counters) : Addr × U64 × Bool × Language :=
  (a.1, a.2.onCpuNs, (classify a.1 binaries).isMain, (classify a.1 binaries).language)

theorem shown_add (acc : Acc) (child : Rose (Addr × Counters)) :
    (acc.add (withSymbol binaries child)).shown =
      if acc.repSelfNs.val < onCpuOf child.label then shownAs binaries child.label
      else acc.shown := by
  by_cases hlt : acc.repSelfNs.val < onCpuOf child.label
  · have hadd : acc.add (withSymbol binaries child) = _ := if_pos hlt
    rw [hadd, if_pos hlt]
    rfl
  · have hadd : acc.add (withSymbol binaries child) = _ := if_neg hlt
    rw [hadd, if_neg hlt]
    rfl

/-- An accumulator shows the first of its entries with most on-CPU time. -/
theorem shown_foldl_add (a : Addr × Counters) (acc : Acc) (h : acc.shown = shownAs binaries a)
    (cs : List (Rose (Addr × Counters))) :
    ((cs.map (withSymbol binaries)).foldl Acc.add acc).shown =
      shownAs binaries (RunningMax.leader onCpuOf a (cs.map label)) := by
  induction cs generalizing a acc with
  | nil => exact h
  | cons c cs ih =>
      refine ih (RunningMax.challenge onCpuOf a c.label) (acc.add (withSymbol binaries c)) ?_
      have htime : acc.repSelfNs.val = onCpuOf a := congrArg (fun s => s.2.1.val) h
      rw [shown_add, htime, RunningMax.challenge]
      split
      · rfl
      · exact h

theorem membersOf_eq (k : SymbolKey) (f : List (Rose (Addr × Counters))) :
    membersOf binaries k f = withKey (keyOf binaries) k f :=
  rfl

/-- A group shows the first of its entries with most on-CPU time. -/
theorem shown_group {f : List (Rose (Addr × Counters))} {e : SymbolKey × Acc}
    (he : e ∈ groupsOf binaries f) :
    e.2.repAddr = (flameEntry binaries (e.1, (withKey (keyOf binaries) e.1 f).map label)).2.repAddr ∧
      e.2.isMain = (flameEntry binaries (e.1, (withKey (keyOf binaries) e.1 f).map label)).2.isMain ∧
      e.2.language =
        (flameEntry binaries (e.1, (withKey (keyOf binaries) e.1 f).map label)).2.language := by
  obtain ⟨first, rest, hmembers, hacc⟩ := Grouping.mem_group.mp he
  rw [members_withSymbol, membersOf_eq] at hmembers
  obtain ⟨t, ts, hsplit, rfl, rfl⟩ := List.map_eq_cons_iff.mp hmembers
  -- adding the first member to the group it starts only sets the time
  have hstart : ((Acc.new (withSymbol binaries t)).add (withSymbol binaries t)).shown =
      shownAs binaries t.label := by
    rw [shown_add]
    split
    · rfl
    · rename_i hzero
      have htime : t.label.2.onCpuNs = 0 := by
        ext
        exact Nat.eq_zero_of_not_pos hzero
      show (t.label.1, 0, _, _) = _
      rw [shownAs, htime]
      rfl
  have hshown := shown_foldl_add t.label _ hstart ts
  rw [← List.foldl_cons, ← hacc] at hshown
  rw [hsplit, List.map_cons]
  refine ⟨congrArg (fun s => s.1) hshown, congrArg (fun s => s.2.2.1) hshown, ?_⟩
  exact congrArg (fun s => s.2.2.2) hshown

/-- What is sent of a group. -/
def sentPart (e : SymbolKey × Acc) : SymbolKey × Acc :=
  (e.1,
    { counters := e.2.counters
      repAddr := e.2.repAddr
      isMain := e.2.isMain
      language := e.2.language })

/-- A group is sent as the entries of the children with its symbol. -/
theorem sentPart_group {f : List (Rose (Addr × Counters))} {e : SymbolKey × Acc}
    (he : e ∈ groupsOf binaries f) :
    sentPart e = flameEntry binaries (e.1, (withKey (keyOf binaries) e.1 f).map label) := by
  obtain ⟨haddr, hmain, hlanguage⟩ := shown_group he
  have hcounters : e.2.counters =
      (((withKey (keyOf binaries) e.1 f).map label).map Prod.snd).sum := by
    rw [List.map_map]
    exact counters_eq_sum he
  unfold sentPart
  rw [haddr, hmain, hlanguage, hcounters]
  rfl

/-- What a group hands on is what the children with its symbol have below them. -/
theorem below_group {f : List (Rose (Addr × Counters))} {e : SymbolKey × Acc}
    (he : e ∈ groupsOf binaries f) : e.2.below = belowKey (keyOf binaries) e.1 f := by
  rw [Acc.below, subSources_eq he, membersOf_eq, belowKey, List.flatMap_def]

/-- The sorted groups have the keys of the tree of groups. -/
theorem keys_sortEntries (f : List (Rose (Addr × Counters))) :
    (sortEntries (groupsOf binaries f)).map Prod.fst =
      groupKeys (keyOf binaries) Prod.snd (fun _ => true) compareTotals f := by
  have hweighed : ∀ e ∈ groupsOf binaries f,
      (e.1, e.2.counters) = weighed (keyOf binaries) Prod.snd f e.1 := by
    intro e he
    rw [counters_eq_sum he]
    rfl
  have hsort : (sortEntries (groupsOf binaries f)).map Prod.fst =
      sortBy (fun a b => compareTotals (weighed (keyOf binaries) Prod.snd f a)
        (weighed (keyOf binaries) Prod.snd f b)) ((groupsOf binaries f).map Prod.fst) := by
    apply map_sortBy
    intro a ha b hb
    rw [← hweighed a ha, ← hweighed b hb]
    rfl
  have hperm : ((groupsOf binaries f).map Prod.fst).Perm
      ((f.map fun t => keyOf binaries t.label).dedup.filter fun _ => true) := by
    rw [List.filter_true]
    refine (List.perm_ext_iff_of_nodup (nodup_groupsOf f) (List.nodup_dedup _)).mpr fun k => ?_
    rw [List.mem_dedup, groupsOf, Grouping.mem_keys_group, members_withSymbol, membersOf_eq,
      List.mem_map, Ne, List.map_eq_nil_iff]
    constructor
    · intro hne
      obtain ⟨t, ht⟩ := List.exists_mem_of_ne_nil _ hne
      exact ⟨t, mem_withKey.mp ht⟩
    · rintro ⟨t, ht, hk⟩
      exact List.ne_nil_of_mem (mem_withKey.mpr ⟨ht, hk⟩)
  have : Std.TransCmp fun a b => compareTotals (weighed (keyOf binaries) Prod.snd f a)
      (weighed (keyOf binaries) Prod.snd f b) :=
    { eq_swap := Std.OrientedCmp.eq_swap
      isLE_trans := Std.TransCmp.isLE_trans }
  rw [hsort]
  exact sortBy_eq_of_perm hperm fun a _ b _ hab => key_eq_of_compareTotals hab

/-- The quotient is the tree of groups. -/
theorem mapForest_quotient (f : List (Rose (Addr × Counters))) :
    mapForest sentPart (quotient binaries f) =
      mapForest (flameEntry binaries) (flameGroups binaries f) := by
  induction f using groups_induction binaries with
  | step f ih =>
      set toNode := fun k => node
        (flameEntry binaries (k, (withKey (keyOf binaries) k f).map label))
        (mapForest (flameEntry binaries) (flameGroups binaries (belowKey (keyOf binaries) k f)))
        with htoNode
      have hgroups : mapForest (flameEntry binaries) (flameGroups binaries f) =
          (groupKeys (keyOf binaries) Prod.snd (fun _ => true) compareTotals f).map toNode := by
        rw [flameGroups, groupTree_eq, mapForest_eq_map, List.map_map]
        exact List.map_congr_left fun k _ => by rw [htoNode, Function.comp_apply, Rose.map]; rfl
      rw [hgroups, quotient_eq, mapForest_eq_map, List.map_map, ← keys_sortEntries, List.map_map]
      refine List.map_congr_left fun e he => ?_
      have he := mem_sortEntries.mp he
      rw [Function.comp_apply, Rose.map, ih e he, sentPart_group he, below_group he]
      rfl

end FlameGroups

end Stax.Live
