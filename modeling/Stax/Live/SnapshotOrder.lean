/-
# Stax.Live.SnapshotOrder — snapshots and the order of maps.

The children of a stack node come out of a map in any order.  Another order rearranges the forest
from which a tree of groups is made, and that only permutes the members of the groups: the groups,
their order and their counters stay, and what a group shows stays unless two of its members tie.
The strings come into the table in the same order but for the languages of such groups, so indices
may differ while the names they read stay.
-/
import Stax.Live.SentTrees
import Stax.Live.TopOrder

namespace Stax.Live

open Stax.Lib Stax.Lib.Rose

/-! ## The maps in which groups are collected -/

/-! ## The forests of the neighbours -/

section Forests

variable {binaries : BinaryRegistry} {targetKey : SymbolKey} {f g : List (Rose (Addr × Counters))}

theorem ownEntries_perm (h : Rearranged f g) :
    (ownEntries binaries targetKey f).Perm (ownEntries binaries targetKey g) := by
  have hlabels (f : List (Rose (Addr × Counters))) : ownEntries binaries targetKey f =
      ((nodes f).map label).filter (isTarget binaries targetKey) := by
    unfold ownEntries
    rw [List.filter_map]
    rfl
  rw [hlabels, hlabels]
  exact h.nodes_labels.filter _

theorem callerForest_append (ancestors : List Addr) (f g : List (Rose (Addr × Counters))) :
    callerForest binaries targetKey ancestors (f ++ g) =
      callerForest binaries targetKey ancestors f ++ callerForest binaries targetKey ancestors g := by
  induction f with
  | nil => rw [callerForest_nil, List.nil_append, List.nil_append]
  | cons t ts ih =>
      obtain ⟨a, cs⟩ := t
      rw [List.cons_append, callerForest_cons, callerForest_cons, ih]
      simp only [List.append_assoc]

/-- The trees of callers of two orders of siblings differ in the order of siblings only. -/
theorem callerForest_rearranged (h : Rearranged f g) (ancestors : List Addr) :
    Rearranged (callerForest binaries targetKey ancestors f)
      (callerForest binaries targetKey ancestors g) := by
  induction h generalizing ancestors with
  | nil => exact Rearranged.refl _
  | cons a _ _ ihc iht =>
      rw [callerForest_cons, callerForest_cons]
      exact ((Rearranged.refl _).append (ihc _)).append (iht ancestors)
  | swap t u ts =>
      have hsplit (t u : Rose (Addr × Counters)) :
          callerForest binaries targetKey ancestors (t :: u :: ts) =
            callerForest binaries targetKey ancestors [t] ++
              (callerForest binaries targetKey ancestors [u] ++
                callerForest binaries targetKey ancestors ts) := by
        rw [← callerForest_append, ← callerForest_append]
        rfl
      rw [hsplit, hsplit]
      exact Rearranged.of_perm (List.perm_append_comm_assoc _ _ _)
  | trans _ _ ih ih' => exact (ih ancestors).trans (ih' ancestors)

theorem calleeForest_append (f g : List (Rose (Addr × Counters))) :
    calleeForest binaries targetKey (f ++ g) =
      calleeForest binaries targetKey f ++ calleeForest binaries targetKey g := by
  unfold calleeForest
  rw [nodes_append, List.filter_append, List.flatMap_append]

/-- The trees of callees of two orders of siblings differ in the order of siblings only. -/
theorem calleeForest_rearranged (h : Rearranged f g) :
    Rearranged (calleeForest binaries targetKey f) (calleeForest binaries targetKey g) := by
  induction h with
  | nil => exact Rearranged.refl _
  | cons a below _ ihc iht =>
      rw [calleeForest_cons, calleeForest_cons]
      refine Rearranged.append (Rearranged.append ?_ ihc) iht
      split
      · exact below
      · exact Rearranged.refl _
  | swap t u ts =>
      have hsplit (t u : Rose (Addr × Counters)) : calleeForest binaries targetKey (t :: u :: ts) =
          calleeForest binaries targetKey [t] ++ (calleeForest binaries targetKey [u] ++
            calleeForest binaries targetKey ts) := by
        rw [← calleeForest_append, ← calleeForest_append]
        rfl
      rw [hsplit, hsplit]
      exact Rearranged.of_perm (List.perm_append_comm_assoc _ _ _)
  | trans _ _ ih ih' => exact ih.trans ih'

end Forests

/-! ## What a node shows -/

/-- What the node of a group shows: its symbol and counters, and, as one of its members has it, an
address and what is said of its code. -/
structure View where
  key : SymbolKey
  members : List (Addr × Counters)
  counters : Counters
  address : Addr
  isMain : Bool
  language : Language

/-- What is sent of a group, as a view. -/
def View.of (members : List (Addr × Counters)) (e : SymbolKey × Acc) : View where
  key := e.1
  members := members
  counters := e.2.counters
  address := e.2.repAddr
  isMain := e.2.isMain
  language := e.2.language

/-- A node's indices read a symbol's names. -/
def FlameData.ReadsNames (strings : List String) (d : FlameData) (key : SymbolKey) : Prop :=
  d.functionName.map (fun i => strings[i.toNat]?) = key.1.map some ∧
  d.binary.map (fun i => strings[i.toNat]?) = key.2.map some

/-- A node shows a view, but for the address and what goes with it when members of the group tie for
most on-CPU time. -/
structure View.ShownBy (strings : List String) (v : View) (d : FlameData) : Prop where
  names : d.ReadsNames strings v.key
  counters : d.counters = v.counters
  code : (d.address = v.address ∧ d.isMain = v.isMain ∧
      strings[d.language.toNat]? = some v.language.asStr) ∨
    RunningMax.Tied onCpuOf v.members

section Shows

variable {binaries : BinaryRegistry} {table : StringInterner}

/-- The node of a group shows the view of another if only their representatives may differ. -/
theorem shownBy_flameData (hwf : table.WF) (hfits : table.Fits) {members : List (Addr × Counters)}
    {e e' : SymbolKey × Acc} (hnames : ∀ s ∈ namesOf e', s ∈ table.strings) (hkey : e.1 = e'.1)
    (hcounters : e.2.counters = e'.2.counters)
    (hcode : ¬ RunningMax.Tied onCpuOf members →
      e.2.repAddr = e'.2.repAddr ∧ e.2.isMain = e'.2.isMain ∧ e.2.language = e'.2.language) :
    (View.of members e).ShownBy table.strings (flameData table e') := by
  obtain ⟨hname, hbinary, hlanguage⟩ := reads_flameData hwf hfits hnames
  refine ⟨?_, hcounters.symm, ?_⟩
  · show FlameData.ReadsNames _ _ e.1
    rw [hkey]
    exact ⟨hname, hbinary⟩
  · by_cases htied : RunningMax.Tied onCpuOf members
    · exact Or.inr htied
    · obtain ⟨haddr, hmain, hlang⟩ := hcode htied
      refine Or.inl ⟨haddr.symm, hmain.symm, ?_⟩
      show _ = some e.2.language.asStr
      rw [hlang]
      exact hlanguage

/-- Without a tie the flame graph shows the same member in every order. -/
theorem flameRep_eq_of_perm {members members' : List (Addr × Counters)} (hne : members ≠ [])
    (hperm : members.Perm members') (htied : ¬ RunningMax.Tied onCpuOf members) :
    flameRep members = flameRep members' := by
  have hspec (first : Addr × Counters) (rest : List (Addr × Counters)) :
      flameRep (first :: rest) ∈ first :: rest ∧
        ∀ c ∈ first :: rest, onCpuOf c ≤ onCpuOf (flameRep (first :: rest)) := by
    refine ⟨RunningMax.leader_mem_cons, fun c hc => ?_⟩
    rcases List.mem_cons.mp hc with rfl | hc
    · exact RunningMax.start_le_leader
    · exact RunningMax.le_leader c hc
  cases members with
  | nil => exact absurd rfl hne
  | cons first rest =>
      cases members' with
      | nil => exact absurd hperm.eq_nil hne
      | cons first' rest' =>
          obtain ⟨hmem, hmax⟩ := hspec first rest
          obtain ⟨hmem', hmax'⟩ := hspec first' rest'
          exact RunningMax.eq_of_not_tied htied hmem (hperm.mem_iff.mpr hmem') hmax
            fun c hc => hmax' c (hperm.mem_iff.mp hc)

/-- A group of the flame graph in another order of its members. -/
theorem shownBy_flameEntry (hwf : table.WF) (hfits : table.Fits)
    {e e' : SymbolKey × List (Addr × Counters)} (hne : e.2 ≠ [])
    (hnames : ∀ s ∈ namesOf (flameEntry binaries e'), s ∈ table.strings)
    (hsame : e.1 = e'.1 ∧ e.2.Perm e'.2) :
    (View.of e.2 (flameEntry binaries e)).ShownBy table.strings
      (flameData table (flameEntry binaries e')) := by
  obtain ⟨hkey, hperm⟩ := hsame
  refine shownBy_flameData hwf hfits hnames hkey (hperm.map Prod.snd).sum_eq fun htied => ?_
  unfold flameEntry
  rw [flameRep_eq_of_perm hne hperm htied]
  exact ⟨rfl, rfl, rfl⟩

/-- A group of the neighbours in another order of its members. -/
theorem shownBy_neighborEntry (hwf : table.WF) (hfits : table.Fits)
    {e e' : SymbolKey × List (Addr × Counters)}
    (hnames : ∀ s ∈ namesOf (neighborEntry binaries e'), s ∈ table.strings)
    (hsame : e.1 = e'.1 ∧ e.2.Perm e'.2) :
    (View.of e.2 (neighborEntry binaries e)).ShownBy table.strings
      (flameData table (neighborEntry binaries e')) := by
  obtain ⟨hkey, hperm⟩ := hsame
  refine shownBy_flameData hwf hfits hnames hkey (hperm.map timed).sum_eq fun htied => ?_
  have hshown : shownEntry e.2 = shownEntry e'.2 := RunningMax.leader_perm htied hperm
  unfold neighborEntry neighborAcc shownCode
  rw [hshown]
  exact ⟨rfl, rfl, rfl⟩

/-- Two names are at one index exactly when they are the same. -/
theorem index_eq_iff {strings : List String} (hnodup : strings.Nodup) {i j : Option UInt32}
    {s t : Option String} (hi : i.map (fun i => strings[i.toNat]?) = s.map some)
    (hj : j.map (fun i => strings[i.toNat]?) = t.map some) : i = j ↔ s = t := by
  have hsome : Function.Injective (Option.map (some : String → Option String)) :=
    Option.map_injective (Option.some_injective _)
  constructor
  · rintro rfl
    exact hsome (hi.symm.trans hj)
  · rintro rfl
    cases i with
    | none =>
        rw [Option.map_none] at hi
        rw [← hi, Option.map_eq_none_iff] at hj
        exact hj.symm
    | some i =>
        cases j with
        | none =>
            rw [Option.map_none] at hj
            rw [← hj] at hi
            cases hi
        | some j =>
            have hread : strings[i.toNat]? = strings[j.toNat]? :=
              Option.some.inj (hi.trans hj.symm)
            have hlt : i.toNat < strings.length := by
              cases s with
              | none => cases hi
              | some s => exact (List.getElem?_eq_some_iff.mp (Option.some.inj hi)).1
            rw [UInt32.toNat_inj.mp ((List.getElem?_inj hlt hnodup).mp hread)]

/-- A node repeats its parent where the symbols do. -/
theorem symbolEq_of_shownBy {strings : List String} (hnodup : strings.Nodup) {v s : View}
    {d ds : FlameData} (h : v.ShownBy strings d) (hs : s.ShownBy strings ds) :
    decide (v.key.1.isSome ∧ v.key = s.key) = symbolEq d ds := by
  have hsome : d.functionName.isSome = v.key.1.isSome := by
    have hread := congrArg Option.isSome h.names.1
    rw [Option.isSome_map, Option.isSome_map] at hread
    exact hread
  have hname := index_eq_iff hnodup h.names.1 hs.names.1
  have hbinary := index_eq_iff hnodup h.names.2 hs.names.2
  unfold symbolEq
  rw [Bool.eq_iff_iff, decide_eq_true_iff, Bool.and_eq_true, Bool.and_eq_true, beq_iff_eq,
    beq_iff_eq, hname, hbinary, hsome, and_assoc, Prod.ext_iff]

end Shows

/-! ## Another order -/

/-- An aggregation whose stack tree has its nodes in another order. -/
def Aggregation.reordered (self : Aggregation) (children : List (Rose (Addr × Counters))) :
    Aggregation :=
  { self with flameRoot := { self.flameRoot with children } }

/-- Every view is of a group of the forest, or of no group. -/
def OfGroups (binaries : BinaryRegistry) (f : List (Rose (Addr × Counters)))
    (views : List (Rose View)) : Prop :=
  ∀ n ∈ nodes views,
    n.label.members = [] ∨ IsGroup (keyOf binaries) f (n.label.key, n.label.members)

section Flame

variable {binaries : BinaryRegistry} {aggregation : Aggregation}
  {children : List (Rose (Addr × Counters))} {targetAddress : Addr}

/-- Reordering siblings shows no other names, so they still fit the table. -/
theorem namesFit_reordered (h : Rearranged aggregation.flameRoot.children children)
    (hfit : NamesFit binaries aggregation.flameRoot targetAddress) :
    NamesFit binaries (aggregation.reordered children).flameRoot targetAddress := by
  have hlabels (f : List (Rose (Addr × Counters))) : tableNames binaries f =
      ((nodes f).map label).flatMap fun a => (classify a.1 binaries).names := by
    rw [List.flatMap_map]
    rfl
  have hnames : (tableNames binaries aggregation.flameRoot.children).Perm
      (tableNames binaries children) := by
    rw [hlabels, hlabels]
    exact h.nodes_labels.flatMap_right _
  have hupdate : (updateNames binaries aggregation.flameRoot targetAddress).Perm
      (updateNames binaries (aggregation.reordered children).flameRoot targetAddress) :=
    (hnames.append_left _).append_right _
  unfold NamesFit at hfit ⊢
  rw [← List.toFinset_eq_of_perm _ _ hupdate]
  exact hfit

/-- A node repeats another in the flame graph when it has its symbol and that has a name. -/
def View.repeats (v s : View) : Bool := v.key.1.isSome ∧ v.key = s.key

/-- The synthetic root, over children with given counters. -/
def rootEntry (aggregation : Aggregation) (binaries : BinaryRegistry) : SymbolKey × Acc :=
  ((some "(all)", none),
    { counters := (computeFlameUpdate aggregation binaries).root.label.counters
      repAddr := 0
      isMain := false
      language := .unknown })

/-- What the flame graph shows below its root. -/
def flameChildViews (aggregation : Aggregation) (binaries : BinaryRegistry) : List (Rose View) :=
  (mapForest (fun e => View.of e.2 (flameEntry binaries e))
    (flameGroups binaries aggregation.flameRoot.children)).map fun t =>
      node t.label (collapse View.repeats t.label t.children)

/-- What the flame graph shows. -/
def flameViews (aggregation : Aggregation) (binaries : BinaryRegistry) : List (Rose View) :=
  [node (View.of [] (rootEntry aggregation binaries)) (flameChildViews aggregation binaries)]

theorem ofGroups_flameViews :
    OfGroups binaries aggregation.flameRoot.children (flameViews aggregation binaries) := by
  refine forall_nodes_cons.mpr ⟨Or.inl rfl, fun n hn => Or.inr ?_, by simp⟩
  obtain ⟨m, hm, hlabel⟩ := exists_of_mem_collapseBelow hn
  rw [nodes_mapForest] at hm
  obtain ⟨q, hq, rfl⟩ := List.mem_map.mp hm
  rw [label_map] at hlabel
  rw [← hlabel]
  exact isGroup_of_mem_groupTree hq

theorem label_flame_root :
    (computeFlameUpdate aggregation binaries).root.label =
      flameData (flameTable aggregation.flameRoot binaries) (rootEntry aggregation binaries) := by
  set interner := (buildChildren binaries [aggregation.flameRoot.children] {}).2.interner
    with hinterner
  have hunknown : (flameTable aggregation.flameRoot binaries).index Language.unknown.asStr =
      some (interner.intern Language.unknown.asStr).1 :=
    StringInterner.extends_intern _ _ _ _ (StringInterner.index_intern interner _)
  have hall : (flameTable aggregation.flameRoot binaries).index "(all)" =
      some ((interner.intern Language.unknown.asStr).2.intern "(all)").1 :=
    StringInterner.index_intern _ _
  unfold flameData rootEntry
  dsimp only
  rw [Option.bind_some, Option.bind_none, hunknown, hall]
  rfl

/-- The root adds up the counters of its children. -/
theorem counters_flame_root (h : ((computeFlameUpdate aggregation binaries).root.children.map
      fun c => c.label.counters) =
    (computeFlameUpdate (aggregation.reordered children) binaries).root.children.map
      fun c => c.label.counters) :
    (computeFlameUpdate aggregation binaries).root.label.counters =
      (computeFlameUpdate (aggregation.reordered children) binaries).root.label.counters := by
  have htotal (k : Counter) : ((computeFlameUpdate aggregation binaries).root.children.map
        fun c => c.label.counters.get k) =
      (computeFlameUpdate (aggregation.reordered children) binaries).root.children.map
        fun c => c.label.counters.get k := by
    have hget := congrArg (List.map fun c : Counters => c.get k) h
    rw [List.map_map, List.map_map] at hget
    exact hget
  unfold computeFlameUpdate at htotal ⊢
  dsimp only [children_node, label_node] at htotal ⊢
  simp only [htotal]
  rfl

/-- Whatever order the children come in, the flame graph shows the same below its root. -/
theorem flame_children_shown (h : Rearranged aggregation.flameRoot.children children)
    (hfit : NamesFit binaries aggregation.flameRoot targetAddress) :
    Related (View.ShownBy (computeFlameUpdate (aggregation.reordered children) binaries).strings)
      (flameChildViews aggregation binaries)
      (computeFlameUpdate (aggregation.reordered children) binaries).root.children := by
  have hfits : (flameTable (aggregation.reordered children).flameRoot binaries).Fits :=
    fits_of_updateNames flameTable_wf flameTable_names (namesFit_reordered h hfit)
  have hgroups : Related (fun e e' => e.1 = e'.1 ∧ e.2.Perm e'.2)
      (flameGroups binaries aggregation.flameRoot.children)
      (flameGroups binaries (aggregation.reordered children).flameRoot.children) :=
    h.groupTree fun _ _ hab => key_eq_of_compareTotals hab
  have hshown := Related.mapForest (hgroups.imp_of_mem
    (fun n hn => (isGroup_of_mem_groupTree hn).members.1)
    (fun n hn => names_subset_flameTable hn)
    fun e e' hne hnames hsame => shownBy_flameEntry flameTable_wf hfits hne hnames hsame)
  rw [flame_children, flame_groups, map_foldRecursion]
  exact hshown.collapseBelow fun v d s ds hv hs => symbolEq_of_shownBy flameTable_wf.nodup hv hs

/-- The children have the counters of what they show. -/
theorem counters_of_related {strings : List String} {views : List (Rose View)}
    {nodes : List FlameNode} (h : Related (View.ShownBy strings) views nodes) :
    views.map (fun v => v.label.counters) = nodes.map fun n => n.label.counters := by
  induction h with
  | nil => rfl
  | cons here _ _ _ iht =>
      rw [List.map_cons, List.map_cons, iht, label_node, label_node, here.counters]

/-- Whatever order the children come in, the flame graph shows the same. -/
theorem flame_shown (h : Rearranged aggregation.flameRoot.children children)
    (hfit : NamesFit binaries aggregation.flameRoot targetAddress) :
    Related (View.ShownBy (computeFlameUpdate (aggregation.reordered children) binaries).strings)
      (flameViews aggregation binaries)
      [(computeFlameUpdate (aggregation.reordered children) binaries).root] := by
  have hchildren := flame_children_shown h hfit
  have hsame := flame_children_shown (Rearranged.refl aggregation.flameRoot.children) hfit
  have hroot : (computeFlameUpdate aggregation binaries).root.label.counters =
      (computeFlameUpdate (aggregation.reordered children) binaries).root.label.counters :=
    counters_flame_root ((counters_of_related hsame).symm.trans (counters_of_related hchildren))
  have hfits : (flameTable (aggregation.reordered children).flameRoot binaries).Fits :=
    fits_of_updateNames flameTable_wf flameTable_names (namesFit_reordered h hfit)
  have hnames : ∀ s ∈ namesOf (rootEntry (aggregation.reordered children) binaries),
      s ∈ (flameTable (aggregation.reordered children).flameRoot binaries).strings := by
    intro s hs
    refine mem_flameTable.mpr (Or.inr ?_)
    rcases mem_names.mp hs with hname | hbinary | hlanguage
    · exact Or.inr (Option.some.inj hname).symm
    · cases hbinary
    · exact Or.inl hlanguage
  rw [← node_eta (computeFlameUpdate (aggregation.reordered children) binaries).root,
    label_flame_root]
  exact .cons (shownBy_flameData flameTable_wf hfits hnames rfl hroot fun _ => ⟨rfl, rfl, rfl⟩)
    hchildren .nil

end Flame

/-! ## The neighbours -/

section Neighbors

variable {flameRoot : StackNode} {binaries : BinaryRegistry}
  {children : List (Rose (Addr × Counters))} {targetAddress : Addr}

variable (flameRoot binaries targetAddress) in
/-- What the tree of the callers shows. -/
def callerViews : List (Rose View) :=
  [node (View.of [] (targetEntry flameRoot binaries targetAddress))
    (mapForest (fun e => View.of e.2 (neighborEntry binaries e))
      (callerGroups flameRoot binaries targetAddress))]

variable (flameRoot binaries targetAddress) in
/-- What the tree of the callees shows. -/
def calleeViews : List (Rose View) :=
  [node (View.of [] (targetEntry flameRoot binaries targetAddress))
    (mapForest (fun e => View.of e.2 (neighborEntry binaries e))
      (calleeGroups flameRoot binaries targetAddress))]

theorem ofGroups_neighborViews {threshold : ℕ} {f : List (Rose (Addr × Counters))} {root : View}
    (hroot : root.members = []) :
    OfGroups binaries f [node root (mapForest (fun e => View.of e.2 (neighborEntry binaries e))
      (neighborGroups binaries threshold f))] := by
  refine forall_nodes_cons.mpr ⟨Or.inl hroot, fun n hn => Or.inr ?_, by simp⟩
  rw [nodes_mapForest] at hn
  obtain ⟨q, hq, rfl⟩ := List.mem_map.mp hn
  rw [label_map]
  exact isGroup_of_mem_groupTree hq

variable (binaries targetAddress) in
/-- The target's own counters are a sum. -/
theorem own_reordered (h : Rearranged flameRoot.children children) :
    (neighborsOf flameRoot binaries targetAddress).own.acc.counters =
      (neighborsOf { flameRoot with children } binaries targetAddress).own.acc.counters := by
  rw [neighborsOf_eq, neighborsOf_eq]
  dsimp only
  rw [acc_accumulateAll, acc_accumulateAll]
  exact ((ownEntries_perm h).map timed).sum_eq

theorem threshold_reordered (h : Rearranged flameRoot.children children) :
    (neighborsOf flameRoot binaries targetAddress).threshold =
      (neighborsOf { flameRoot with children } binaries targetAddress).threshold := by
  have htotal := congrArg Counters.durationNs (own_reordered binaries targetAddress h)
  exact congrArg (fun n : U64 => max (n.val / 2000) 1) htotal

theorem targetEntry_reordered (h : Rearranged flameRoot.children children) :
    targetEntry flameRoot binaries targetAddress =
      targetEntry { flameRoot with children } binaries targetAddress := by
  have hown := own_reordered binaries targetAddress h
  unfold targetEntry Neighbors.target
  rw [Prod.mk.injEq, Acc.mk.injEq]
  exact ⟨rfl, hown, rfl, rfl, rfl, rfl, rfl⟩

/-- The groups of a forest of neighbours, in another order of it. -/
theorem neighbors_shown {threshold : ℕ} {f f' : List (Rose (Addr × Counters))}
    {table : StringInterner} (hwf : table.WF) (hfits : table.Fits) (h : Rearranged f f')
    (hnames : ∀ q ∈ nodes (neighborGroups binaries threshold f'),
      ∀ s ∈ namesOf (neighborEntry binaries q.label), s ∈ table.strings) :
    Related (View.ShownBy table.strings)
      (mapForest (fun e => View.of e.2 (neighborEntry binaries e))
        (neighborGroups binaries threshold f))
      (mapForest (fun e => flameData table (neighborEntry binaries e))
        (neighborGroups binaries threshold f')) := by
  have hgroups : Related (fun e e' => e.1 = e'.1 ∧ e.2.Perm e'.2)
      (neighborGroups binaries threshold f) (neighborGroups binaries threshold f') :=
    h.groupTree fun _ _ hab => key_eq_of_compareTotals hab
  exact Related.mapForest (hgroups.imp_of_mem (P := fun _ => True) (fun _ _ => trivial) hnames
    fun e e' _ hnames hsame => shownBy_neighborEntry hwf hfits hnames hsame)

/-- Whatever order the children come in, the trees of the neighbours show the same. -/
theorem neighborTrees_shown (h : Rearranged flameRoot.children children)
    (hfit : NamesFit binaries { flameRoot with children } targetAddress) :
    let update := computeNeighborsUpdate { flameRoot with children } binaries targetAddress
    Related (View.ShownBy update.strings) (callerViews flameRoot binaries targetAddress)
        [update.callersTree] ∧
      Related (View.ShownBy update.strings) (calleeViews flameRoot binaries targetAddress)
        [update.calleesTree] := by
  intro update
  set table := neighborsTable { flameRoot with children } binaries targetAddress with htable
  have hfits : table.Fits := fits_of_updateNames neighborsTable_wf neighborsTable_names hfit
  have hroot : (View.of [] (targetEntry flameRoot binaries targetAddress)).ShownBy table.strings
      (flameData table (targetEntry { flameRoot with children } binaries targetAddress)) := by
    rw [targetEntry_reordered h]
    refine shownBy_flameData neighborsTable_wf hfits (fun s hs => ?_) rfl rfl fun _ => ⟨rfl, rfl, rfl⟩
    obtain ⟨n, hn, hlabel⟩ := mem_labels_neighborTrees.mpr (Or.inl rfl)
    rw [← hlabel] at hs
    exact (built_neighbors.strings s).mpr (Or.inr ⟨n, hn, hs⟩)
  have hnames := fun q hq => @names_subset_neighborsTable { flameRoot with children } binaries
    targetAddress q hq
  have hsplit (q : Rose (SymbolKey × List (Addr × Counters))) :
      q ∈ nodes (callerGroups { flameRoot with children } binaries targetAddress) ∨
          q ∈ nodes (calleeGroups { flameRoot with children } binaries targetAddress) →
        ∀ s ∈ namesOf (neighborEntry binaries q.label), s ∈ table.strings := by
    rw [← List.mem_append, ← nodes_append]
    exact hnames q
  constructor
  · rw [callersTree_eq]
    unfold callerViews callerGroups
    rw [threshold_reordered h]
    exact .cons hroot (neighbors_shown neighborsTable_wf hfits (callerForest_rearranged h [])
      fun q hq => hsplit q (Or.inl hq)) .nil
  · rw [calleesTree_eq]
    unfold calleeViews calleeGroups
    rw [threshold_reordered h]
    exact .cons hroot (neighbors_shown neighborsTable_wf hfits (calleeForest_rearranged h)
      fun q hq => hsplit q (Or.inr hq)) .nil

end Neighbors

/-! ## Snapshots and the order of maps -/

/-- What does not depend on the order in which the maps are gone through.  The three trees show the
same views in every order of the stack tree's children.  Two tables show the same rows in the same
order; a shorter table is a prefix of a longer one, the address of a row has most time as a leaf
among the addresses of the row, and this time adds up to that of all addresses. -/
structure OrderIndependent (aggregation : Aggregation) (binaries : BinaryRegistry)
    (targetAddress : Addr) : Prop where
  flame : ∃ views, OfGroups binaries aggregation.flameRoot.children views ∧
    ∀ children, Rearranged aggregation.flameRoot.children children →
      let update := computeFlameUpdate (aggregation.reordered children) binaries
      Related (View.ShownBy update.strings) views [update.root]
  callers : ∃ views, OfGroups binaries
      (callerForest binaries (symbolOf binaries targetAddress) [] aggregation.flameRoot.children)
      views ∧
    ∀ children, Rearranged aggregation.flameRoot.children children →
      let update :=
        computeNeighborsUpdate (aggregation.reordered children).flameRoot binaries targetAddress
      Related (View.ShownBy update.strings) views [update.callersTree]
  callees : ∃ views, OfGroups binaries
      (calleeForest binaries (symbolOf binaries targetAddress) aggregation.flameRoot.children)
      views ∧
    ∀ children, Rearranged aggregation.flameRoot.children children →
      let update :=
        computeNeighborsUpdate (aggregation.reordered children).flameRoot binaries targetAddress
      Related (View.ShownBy update.strings) views [update.calleesTree]
  rows : ∀ sort limit (iteration iteration' : aggregation.byAddress.Iteration),
    List.Forall₂ (SameRow binaries aggregation.byAddress.rows)
      (groupTopEntries aggregation iteration binaries sort limit)
      (groupTopEntries aggregation iteration' binaries sort limit)
  shorter : ∀ sort (iteration : aggregation.byAddress.Iteration) (n m : ℕ), n ≤ m →
    groupTopEntries aggregation iteration binaries sort n =
      (groupTopEntries aggregation iteration binaries sort m).take n
  longest : ∀ sort limit (iteration : aggregation.byAddress.Iteration),
    ∀ e ∈ groupTopEntries aggregation iteration binaries sort limit,
      let members := rowMembers binaries aggregation.byAddress.rows (rowKey binaries e.address)
      ∃ row ∈ members, row.1 = e.address ∧
        ∀ r ∈ members, r.2.self.onCpuNs.val ≤ row.2.self.onCpuNs.val
  conserved : ∀ sort (iteration : aggregation.byAddress.Iteration),
    (∀ key, ((rowMembers binaries aggregation.byAddress.rows key).map fun row =>
      row.2.self.onCpuNs.val).sum ≤ u64Max) →
    ∀ limit, aggregation.byAddress.rows.length ≤ limit →
      ((groupTopEntries aggregation iteration binaries sort limit).map fun e =>
        e.stats.self.onCpuNs.val).sum =
      (aggregation.byAddress.rows.map fun row => row.2.self.onCpuNs.val).sum

/-- Every row whose addresses do not tie has addresses that resolve alike. -/
def RowsAlike (aggregation : Aggregation) (binaries : BinaryRegistry) : Prop :=
  ∀ key, RowTied binaries aggregation.byAddress.rows key ∨
    RowUniform binaries aggregation.byAddress.rows key

section Order

variable {aggregation : Aggregation} {binaries : BinaryRegistry} {targetAddress : Addr}

variable (binaries) in
/-- There are no more rows than addresses. -/
theorem length_sortedRows_le (sort : TopSort) (rows : List (Addr × AddressStats)) :
    (sortedRows binaries sort rows).length ≤ rows.length := by
  have hkeys : (groupRows binaries rows).map Prod.fst ⊆ rows.map fun row => rowKey binaries row.1 := by
    intro key hkey
    obtain ⟨row, hrow⟩ := List.exists_mem_of_ne_nil _ (mem_keys_groupRows.mp hkey)
    exact List.mem_map.mpr ⟨row, mem_rowMembers.mp hrow⟩
  have hle := (List.subperm_of_subset (nodup_groupRows rows) hkeys).length_le
  rw [List.length_map, List.length_map] at hle
  unfold sortedRows
  rw [List.length_insertionSort, List.length_map]
  exact hle

theorem groupTopEntries_all (iteration : aggregation.byAddress.Iteration) (sort : TopSort)
    {limit : ℕ} (h : aggregation.byAddress.rows.length ≤ limit) :
    groupTopEntries aggregation iteration binaries sort limit =
      sortedRows binaries sort iteration.rows := by
  rw [groupTopEntries_take, List.take_of_length_le]
  have hlength := length_sortedRows_le binaries sort iteration.rows
  rw [iteration.perm.length_eq] at hlength
  exact hlength.trans h

/-- Snapshots depend on the order of the maps where a row without a tie has addresses that do not
resolve alike, and nowhere else as long as there are indices for all names.  For every aggregation,
every registry whose binaries have names, and every target. -/
theorem snapshot_order_iff (aggregation : Aggregation) (binaries : BinaryRegistry)
    (targetAddress : Addr) (hnamed : BinariesNamed binaries) :
    (OrderIndependent aggregation binaries targetAddress → RowsAlike aggregation binaries) ∧
      (NamesFit binaries aggregation.flameRoot targetAddress → RowsAlike aggregation binaries →
        OrderIndependent aggregation binaries targetAddress) := by
  constructor
  · intro h
    refine uniform_of_sameRows hnamed .bySelf fun order order' horder horder' => ?_
    -- take all rows, in any two orders of the map
    have hrows := h.rows .bySelf aggregation.byAddress.rows.length ⟨order, horder⟩ ⟨order', horder'⟩
    rw [groupTopEntries_all _ _ (Nat.le_refl _), groupTopEntries_all _ _ (Nat.le_refl _)] at hrows
    exact hrows
  · intro hfit halike
    refine ⟨?_, ?_, ?_, ?_, ?_, ?_, ?_⟩
    · exact ⟨_, ofGroups_flameViews, fun children h => flame_shown h hfit⟩
    · exact ⟨_, ofGroups_neighborViews rfl,
        fun children h => (neighborTrees_shown h (namesFit_reordered h hfit)).1⟩
    · exact ⟨_, ofGroups_neighborViews rfl,
        fun children h => (neighborTrees_shown h (namesFit_reordered h hfit)).2⟩
    · intro sort limit iteration iteration'
      -- a cut keeps the first rows, which are the same in both orders
      have hsame := sameRows_of_uniform hnamed (iteration.perm.trans iteration'.perm.symm)
        (fun key => (halike key).imp (rowTied_perm iteration.perm key).mpr
          (rowUniform_perm iteration.perm key).mpr) sort
      rw [groupTopEntries_take, groupTopEntries_take]
      exact List.forall₂_take limit (hsame.imp fun e e' hrow => hrow.perm iteration.perm)
    · intro sort iteration n m hle
      rw [groupTopEntries_take, groupTopEntries_take, List.take_take, min_eq_left hle]
    · intro sort limit iteration e he
      obtain ⟨g, hg, rfl⟩ := mem_sortedRows.mp (List.mem_of_mem_take he)
      obtain ⟨⟨row, hrow, hrep⟩, hmax⟩ := representative_spec hg
      have hmembers := @rowMembers_perm binaries _ _ iteration.perm g.1
      rw [rowKey_address hg]
      refine ⟨row, hmembers.mem_iff.mp hrow, congrArg Prod.fst hrep, fun r hr => ?_⟩
      rw [← hrep] at hmax
      exact hmax r (hmembers.mem_iff.mpr hr)
    · intro sort iteration hfits limit hlimit
      rw [groupTopEntries_all iteration sort hlimit, sum_selfOnCpu]
      · exact (iteration.perm.map _).sum_eq
      · intro key
        rw [((rowMembers_perm iteration.perm key).map _).sum_eq]
        exact hfits key

end Order

namespace Aggregator

/-- `f` in two places, ten and twenty nanoseconds. -/
def mixedSample : Aggregator := replay
  [.petSample 1 { timestampNs := 15, stack := [0xa0] },
    .interval 1 { startNs := 10, endNs := 20, kind := .onCpu },
    .petSample 1 { timestampNs := 35, stack := [0xa1] },
    .interval 1 { startNs := 30, endNs := 50, kind := .onCpu }]

/-- The two places are of different languages. -/
def mixedSites : BinaryRegistry := fun addr =>
  if addr = 0xa0 then
    some { functionName := "f", binary := "app", isMain := true, language := .rust }
  else if addr = 0xa1 then
    some { functionName := "f", binary := "app", isMain := true, language := .c }
  else none

/-- The row of `f` says another language in another order, though its addresses do not tie. -/
theorem mixedSample_depends_on_order :
    ¬ OrderIndependent (aggregateWithFilter mixedSample mixedSites none {}) mixedSites 0xa0 := by
  intro h
  set aggregation := aggregateWithFilter mixedSample mixedSites none {} with haggregation
  have hrows := h.rows .bySelf 1 ⟨_, List.Perm.refl _⟩ ⟨_, List.reverse_perm _⟩
  have hnodup : ∀ e ∈ groupTopEntries aggregation ⟨_, List.Perm.refl _⟩ mixedSites .bySelf 1,
      (((rowMembers mixedSites aggregation.byAddress.rows
        (rowKey mixedSites e.address)).map candidate).map leafTime).Nodup := by
    decide +kernel
  have hlanguage : ∀ e ∈ groupTopEntries aggregation ⟨_, List.Perm.refl _⟩ mixedSites .bySelf 1,
      ∃ e' ∈ groupTopEntries aggregation ⟨_, List.reverse_perm _⟩ mixedSites .bySelf 1,
        e.language = e'.language := by
    intro e he
    obtain ⟨e', he', hrow⟩ := exists_of_forall₂ hrows he
    refine ⟨e', he', ?_⟩
    rcases hrow.shown with ⟨-, -, hsame⟩ | htied
    · exact hsame
    · exact absurd htied (RunningMax.not_tied_of_nodup (hnodup e he))
  revert hlanguage
  decide +kernel

/-- All addresses of `f` are of one language. -/
theorem snapshot_order_recursiveSample :
    OrderIndependent (aggregateWithFilter recursiveSample callSites none {}) callSites 0xa0 := by
  have hnamed : BinariesNamed callSites := by
    intro addr r hr
    unfold callSites at hr
    split_ifs at hr <;> (cases hr; decide)
  refine (snapshot_order_iff _ callSites 0xa0 hnamed).2 ?_ fun key => Or.inr fun r hr r' hr' => ?_
  · unfold NamesFit
    decide +kernel
  · have halike : ∀ r ∈ (aggregateWithFilter recursiveSample callSites none {}).byAddress.rows,
        ∀ r' ∈ (aggregateWithFilter recursiveSample callSites none {}).byAddress.rows,
          rowKey callSites r.1 = rowKey callSites r'.1 →
            Resolved.of (callSites r.1) = Resolved.of (callSites r'.1) := by
      decide +kernel
    obtain ⟨hr, hkey⟩ := mem_rowMembers.mp hr
    obtain ⟨hr', hkey'⟩ := mem_rowMembers.mp hr'
    exact halike r hr r' hr' (hkey.trans hkey'.symm)

end Aggregator

end Stax.Live
