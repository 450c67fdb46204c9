/-
# Stax.Live.Duality — callers and callees are dual.

A call is an address with an entry right below it in the stack tree.  The direct callers of a symbol
are found from below, as the innermost ancestors of its nodes, and the direct callees from above, as
the children of its nodes; both are the calls from the one symbol to the other, added up.
-/
import Stax.Live.SymbolTrees
import Stax.Live.TopEntries

namespace Stax.Live

open Stax.Lib Stax.Lib.Rose

/-! ## Calls -/

/-- The calls in a forest. -/
def calls (f : List (Rose (Addr × Counters))) : List (Addr × (Addr × Counters)) :=
  (nodes f).flatMap fun n => n.children.map fun t => (n.label.1, t.label)

/-- The calls from an address to the trees of a forest. -/
def callsFrom (parent : Option Addr) (f : List (Rose (Addr × Counters))) :
    List (Addr × (Addr × Counters)) :=
  parent.toList.flatMap fun p => f.map fun t => (p, t.label)

/-- A call from one symbol to another. -/
def isCall (binaries : BinaryRegistry) (caller target : SymbolKey)
    (call : Addr × (Addr × Counters)) : Bool :=
  symbolOf binaries call.1 = caller ∧ keyOf binaries call.2 = target

/-- The entries called by one symbol in another. -/
def called (binaries : BinaryRegistry) (caller target : SymbolKey)
    (cs : List (Addr × (Addr × Counters))) : List Counters :=
  (cs.filter (isCall binaries caller target)).map fun call => call.2.2

section Calls

variable {binaries : BinaryRegistry} {caller target : SymbolKey}

theorem calls_cons (a : Addr × Counters) (cs ts : List (Rose (Addr × Counters))) :
    calls (node a cs :: ts) = callsFrom (some a.1) cs ++ (calls cs ++ calls ts) := by
  unfold calls callsFrom
  rw [nodes_cons, List.flatMap_cons, List.flatMap_append, label_node, children_node]
  simp

theorem callsFrom_cons (parent : Option Addr) (a : Addr × Counters)
    (cs ts : List (Rose (Addr × Counters))) :
    callsFrom parent (node a cs :: ts) =
      (parent.toList.map fun p => (p, a)) ++ callsFrom parent ts := by
  cases parent <;> simp [callsFrom]

theorem called_append (cs ds : List (Addr × (Addr × Counters))) :
    called binaries caller target (cs ++ ds) =
      called binaries caller target cs ++ called binaries caller target ds := by
  unfold called
  rw [List.filter_append, List.map_append]

/-! ### From below -/

/-- The innermost ancestor of a node, when it has the symbol of the caller. -/
theorem withKey_chain (src : Counters) (ancestors : List Addr) :
    ((withKey (keyOf binaries) caller (chain src ancestors)).map fun t => t.label.2) =
      (ancestors.head?.toList.filter fun p => symbolOf binaries p = caller).map fun _ => src := by
  cases ancestors with
  | nil => rfl
  | cons p ancestors =>
      unfold withKey chain
      rw [List.filter_cons, label_node]
      show _ = (([p].filter fun p => symbolOf binaries p = caller).map fun _ => src)
      rw [List.filter_cons]
      show (List.map _ (if decide (symbolOf binaries p = caller) = true then _ else _)) = _
      split <;> rfl

/-- The direct callers are the calls to the target's nodes. -/
theorem callers_eq_called (ancestors : List Addr) (f : List (Rose (Addr × Counters)))
    (hframes : ∀ n ∈ nodes f, n.label.1 ≠ 0) :
    ((withKey (keyOf binaries) caller (callerForest binaries target ancestors f)).map
        fun t => t.label.2).Perm
      (called binaries caller target (callsFrom ancestors.head? f ++ calls f)) := by
  induction f using forest_induction generalizing ancestors with
  | nil =>
      rw [callerForest_nil]
      cases ancestors <;> exact List.Perm.refl _
  | cons a cs ts ihc iht =>
      obtain ⟨ha, hcs, hts⟩ := forall_nodes_cons.mp hframes
      have hpush : push a.1 ancestors = a.1 :: ancestors := if_pos ha
      -- the chain of the node itself is the call to it
      have hhere : ((withKey (keyOf binaries) caller (if isTarget binaries target a = true then
          chain a.2 ancestors else [])).map fun t => t.label.2) =
          called binaries caller target (ancestors.head?.toList.map fun p => (p, a)) := by
        have hiff : isTarget binaries target a = true ↔ keyOf binaries a = target := by
          unfold isTarget
          rw [decide_eq_true_iff]
          exact and_iff_right ha
        unfold called
        by_cases htarget : keyOf binaries a = target
        · rw [if_pos (hiff.mpr htarget), withKey_chain]
          cases ancestors.head? with
          | none => rfl
          | some p => simp [isCall, htarget, List.filter_cons, apply_ite]
        · rw [if_neg (mt hiff.mp htarget)]
          cases ancestors.head? with
          | none => rfl
          | some p => simp [isCall, htarget, withKey]
      have hbelow := ihc (push a.1 ancestors) hcs
      have hrest := iht ancestors hts
      rw [hpush, List.head?_cons, called_append] at hbelow
      rw [called_append] at hrest
      rw [callerForest_cons, withKey_append, withKey_append, List.map_append, List.map_append, hhere,
        hpush, callsFrom_cons, calls_cons]
      simp only [called_append, List.append_assoc]
      refine List.Perm.append_left _ ((hbelow.append hrest).trans ?_)
      -- the calls to the siblings come before those below the node only on one side
      have hswap := List.perm_append_comm_assoc
        (called binaries caller target (callsFrom (some a.1) cs) ++
          called binaries caller target (calls cs))
        (called binaries caller target (callsFrom ancestors.head? ts))
        (called binaries caller target (calls ts))
      simpa only [List.append_assoc] using hswap

/-! ### From above -/

/-- The direct callees are the calls from the caller's nodes. -/
theorem callees_eq_called (f : List (Rose (Addr × Counters)))
    (hframes : ∀ n ∈ nodes f, n.label.1 ≠ 0) :
    ((withKey (keyOf binaries) target (calleeForest binaries caller f)).map fun t => t.label.2) =
      called binaries caller target (calls f) := by
  unfold calleeForest calls called withKey
  generalize nodes f = ns at hframes
  induction ns with
  | nil => rfl
  | cons n ns ih =>
      rw [List.forall_mem_cons] at hframes
      have hiff : isTarget binaries caller n.label = true ↔
          symbolOf binaries n.label.1 = caller := by
        unfold isTarget
        rw [decide_eq_true_iff]
        exact and_iff_right hframes.1
      rw [List.flatMap_cons, List.filter_append, List.map_append, ← ih hframes.2, List.filter_map,
        List.map_map, List.filter_cons]
      by_cases hcaller : symbolOf binaries n.label.1 = caller
      · have hcalls : (isCall binaries caller target ∘ fun t => (n.label.1, t.label)) =
            fun t : Rose (Addr × Counters) => decide (keyOf binaries t.label = target) := by
          funext t
          simp [isCall, hcaller]
        rw [if_pos (hiff.mpr hcaller), List.flatMap_cons, List.filter_append, List.map_append, hcalls]
        rfl
      · have hcalls : (isCall binaries caller target ∘ fun t => (n.label.1, t.label)) =
            fun _ : Rose (Addr × Counters) => false := by
          funext t
          simp [isCall, hcaller]
        rw [if_neg (mt hiff.mp hcaller), hcalls, List.filter_false, List.map_nil, List.nil_append]

/-- The direct callers and the direct callees are the same calls. -/
theorem callers_perm_callees {f : List (Rose (Addr × Counters))}
    (hframes : ∀ n ∈ nodes f, n.label.1 ≠ 0) :
    ((withKey (keyOf binaries) caller (callerForest binaries target [] f)).map
        fun t => t.label.2).Perm
      ((withKey (keyOf binaries) target (calleeForest binaries caller f)).map
        fun t => t.label.2) := by
  rw [callees_eq_called f hframes]
  exact callers_eq_called [] f hframes

end Calls

/-! ## The entries of the trees -/

/-- The node that is sent for the entry of a symbol: it stands where the entry stands among those
that are sent. -/
def sentFor (entries : SymbolTree) (tree : FlameNode) (key : SymbolKey) : Option FlameNode :=
  ((entries.zip tree.children).find? fun e => e.1.label.1 = key).map Prod.snd

section Entries

variable {binaries : BinaryRegistry}

/-- One node for each entry, with its counters. -/
theorem counters_toFlameNodes (threshold : ℕ) (entries : SymbolTree) (interner : StringInterner) :
    List.Forall₂ (fun e m => m.label.counters = e.label.2.acc.counters) entries
      (toFlameNodes threshold entries interner).1 := by
  induction entries generalizing interner with
  | nil =>
      rw [toFlameNodes]
      exact .nil
  | cons e entries ih =>
      obtain ⟨⟨key, sn⟩, below⟩ := e
      rw [toFlameNodes, toFlameNode]
      exact .cons rfl (ih _)

/-- An entry that is sent is found, with its counters, when the entries of its symbol agree. -/
theorem sentFor_eq {entries : SymbolTree} {tree : FlameNode} {e : Rose (SymbolKey × SymbolNode)}
    (hsent : List.Forall₂ (fun e m => m.label.counters = e.label.2.acc.counters) entries
      tree.children) (he : e ∈ entries)
    (hsame : ∀ e' ∈ entries, e'.label.1 = e.label.1 → e' = e) :
    ∃ m, sentFor entries tree e.label.1 = some m ∧ m.label.counters = e.label.2.acc.counters := by
  obtain ⟨hlength, hzip⟩ := List.forall₂_iff_zip.mp hsent
  have hsome : ((entries.zip tree.children).find? fun x => x.1.label.1 = e.label.1).isSome := by
    obtain ⟨i, hi, rfl⟩ := List.mem_iff_getElem.mp he
    rw [List.find?_isSome]
    have hi' : i < tree.children.length := hlength ▸ hi
    refine ⟨(entries[i], tree.children[i]), ?_, decide_eq_true rfl⟩
    exact List.mem_iff_getElem.mpr ⟨i, by rw [List.length_zip]; omega, List.getElem_zip⟩
  obtain ⟨⟨e', m⟩, hfind⟩ := Option.isSome_iff_exists.mp hsome
  have hkey : e'.label.1 = e.label.1 := by
    have hfound := List.find?_some hfind
    exact of_decide_eq_true hfound
  have hmem := List.mem_of_find?_eq_some hfind
  refine ⟨m, ?_, ?_⟩
  · unfold sentFor
    rw [hfind]
    rfl
  · rw [hzip hmem, hsame e' (List.of_mem_zip hmem).1 hkey]

theorem children_toFlameNode (threshold : ℕ) (e : SymbolKey × SymbolNode) (below : SymbolTree)
    (interner : StringInterner) :
    (toFlameNode threshold (node e below) interner).1.children =
      (toFlameNodes threshold (visible threshold below) interner).1 := by
  obtain ⟨key, sn⟩ := e
  rw [toFlameNode, children_node]

/-- A merged entry that carries enough time is sent with its counters. -/
theorem sentFor_visible {threshold : ℕ} {f : List (Rose (Addr × Counters))} {tree : FlameNode}
    (htree : ∃ interner, tree.children =
      (toFlameNodes threshold (visible threshold (mergeDescendants binaries [] f)) interner).1)
    {e : Rose (SymbolKey × SymbolNode)} (he : e ∈ mergeDescendants binaries [] f)
    (hthreshold : threshold ≤ e.label.2.totalNs.val) :
    ∃ m, sentFor (visible threshold (mergeDescendants binaries [] f)) tree e.label.1 = some m ∧
      m.label.counters = e.label.2.acc.counters := by
  have hvisible (e' : Rose (SymbolKey × SymbolNode)) :
      e' ∈ visible threshold (mergeDescendants binaries [] f) ↔
        e' ∈ mergeDescendants binaries [] f ∧ threshold ≤ e'.label.2.totalNs.val := by
    unfold visible
    rw [mem_sortBy, List.mem_filter, decide_eq_true_iff]
  obtain ⟨interner, htree⟩ := htree
  apply sentFor_eq
  · rw [htree]
    exact counters_toFlameNodes threshold _ interner
  · exact (hvisible e).mpr ⟨he, hthreshold⟩
  · intro e' he' hkey
    obtain ⟨k, -, rfl⟩ := mem_mergeDescendants.mp he
    obtain ⟨k', -, rfl⟩ := mem_mergeDescendants.mp ((hvisible e').mp he').1
    obtain rfl : k' = k := hkey
    rfl

/-- What is sent of a merged entry adds up the entries with its symbol. -/
theorem counters_mergedNode (k : SymbolKey) (f : List (Rose (Addr × Counters))) :
    (mergedNode binaries (k, withKey (keyOf binaries) k f)).label.2.acc.counters =
      (((withKey (keyOf binaries) k f).map fun t => t.label.2).map
        fun counters => { counters with pmc := 0 }).sum := by
  unfold mergedNode
  rw [label_node, acc_accumulateAll]
  show (((withKey (keyOf binaries) k f).map label).map timed).sum = _
  rw [List.map_map, List.map_map]
  rfl

end Entries

/-! ## Duality -/

/-- Callers and callees are dual.  For every stack tree without frames at the address zero, every
registry and every two addresses: among the target's callers there is an entry of the caller's
symbol exactly when there is one of the target's symbol among the caller's callees, and where both
carry enough time to be sent, the nodes that are sent for them have the same counters. -/
theorem callers_callees_dual (flameRoot : StackNode) (binaries : BinaryRegistry)
    (caller target : Addr) (hframes : ∀ n ∈ nodes flameRoot.children, n.label.1 ≠ 0) :
    let c := symbolOf binaries caller
    let t := symbolOf binaries target
    let above := neighborsOf flameRoot binaries target
    let under := neighborsOf flameRoot binaries caller
    ((∃ e ∈ above.callers, e.label.1 = c) ↔ ∃ e ∈ under.callees, e.label.1 = t) ∧
      ∀ e ∈ above.callers, e.label.1 = c → above.threshold ≤ e.label.2.totalNs.val →
        ∀ e' ∈ under.callees, e'.label.1 = t → under.threshold ≤ e'.label.2.totalNs.val →
          ∃ m m',
            sentFor (visible above.threshold above.callers)
                (computeNeighborsUpdate flameRoot binaries target).callersTree c = some m ∧
              sentFor (visible under.threshold under.callees)
                (computeNeighborsUpdate flameRoot binaries caller).calleesTree t = some m' ∧
              m.label.counters = m'.label.counters := by
  intro c t above under
  set callers := callerForest binaries t [] flameRoot.children with hcallersForest
  set callees := calleeForest binaries c flameRoot.children with hcalleesForest
  have hperm : ((withKey (keyOf binaries) c callers).map fun t => t.label.2).Perm
      ((withKey (keyOf binaries) t callees).map fun t => t.label.2) :=
    callers_perm_callees hframes
  have hcallers : above.callers = mergeDescendants binaries [] callers :=
    congrArg Neighbors.callers (neighborsOf_eq flameRoot binaries target)
  have hcallees : under.callees = mergeDescendants binaries [] callees :=
    congrArg Neighbors.callees (neighborsOf_eq flameRoot binaries caller)
  have hfound (k : SymbolKey) (f : List (Rose (Addr × Counters))) :
      (∃ e ∈ mergeDescendants binaries [] f, e.label.1 = k) ↔
        ((withKey (keyOf binaries) k f).map fun t => t.label.2) ≠ [] := by
    rw [Ne, List.map_eq_nil_iff]
    constructor
    · rintro ⟨e, he, rfl⟩
      obtain ⟨k, hne, rfl⟩ := mem_mergeDescendants.mp he
      exact hne
    · intro hne
      exact ⟨_, mem_mergeDescendants.mpr ⟨k, hne, rfl⟩, rfl⟩
  constructor
  · rw [hcallers, hcallees, hfound, hfound]
    constructor
    · exact fun hne hnil => hne (hnil ▸ hperm).eq_nil
    · exact fun hne hnil => hne (hnil ▸ hperm).symm.eq_nil
  · intro e he hkey hthreshold e' he' hkey' hthreshold'
    rw [hcallers] at he
    rw [hcallees] at he'
    have htree : ∃ interner, (computeNeighborsUpdate flameRoot binaries target).callersTree.children =
        (toFlameNodes above.threshold
          (visible above.threshold (mergeDescendants binaries [] callers)) interner).1 := by
      rw [← hcallers]
      exact ⟨_, children_toFlameNode above.threshold _ above.callers _⟩
    have htree' : ∃ interner, (computeNeighborsUpdate flameRoot binaries caller).calleesTree.children =
        (toFlameNodes under.threshold
          (visible under.threshold (mergeDescendants binaries [] callees)) interner).1 := by
      rw [← hcallees]
      exact ⟨_, children_toFlameNode under.threshold _ under.callees _⟩
    obtain ⟨m, hm, hcounters⟩ := sentFor_visible htree he hthreshold
    obtain ⟨m', hm', hcounters'⟩ := sentFor_visible htree' he' hthreshold'
    rw [← hcallers, hkey] at hm
    rw [← hcallees, hkey'] at hm'
    refine ⟨m, m', hm, hm', ?_⟩
    -- both entries add up the same calls
    obtain ⟨k, -, rfl⟩ := mem_mergeDescendants.mp he
    obtain ⟨k', -, rfl⟩ := mem_mergeDescendants.mp he'
    obtain rfl : k = c := hkey
    obtain rfl : k' = t := hkey'
    rw [hcounters, hcounters', counters_mergedNode, counters_mergedNode]
    exact (hperm.map _).sum_eq

/-- `g` is called by `f`, so it is among the callees of `f`, and both trees send the same for it. -/
theorem callers_callees_dual_twoCallSites :
    let above := neighborsOf twoCallSites callSites 0xb0
    let under := neighborsOf twoCallSites callSites 0xa0
    (∃ e ∈ under.callees, e.label.1 = symbolOf callSites 0xb0) ∧
      ∃ m m',
        sentFor (visible above.threshold above.callers)
            (computeNeighborsUpdate twoCallSites callSites 0xb0).callersTree
            (symbolOf callSites 0xa0) = some m ∧
          sentFor (visible under.threshold under.callees)
            (computeNeighborsUpdate twoCallSites callSites 0xa0).calleesTree
            (symbolOf callSites 0xb0) = some m' ∧
          m.label.counters = m'.label.counters := by
  intro above under
  obtain ⟨hentries, hsent⟩ := callers_callees_dual twoCallSites callSites 0xa0 0xb0 (by decide +kernel)
  have hcaller : ∃ e ∈ above.callers,
      e.label.1 = symbolOf callSites 0xa0 ∧ above.threshold ≤ e.label.2.totalNs.val := by
    decide +kernel
  have hcallee : ∃ e ∈ under.callees,
      e.label.1 = symbolOf callSites 0xb0 ∧ under.threshold ≤ e.label.2.totalNs.val := by
    decide +kernel
  obtain ⟨e, he, hkey, hheavy⟩ := hcaller
  obtain ⟨e', he', hkey', hheavy'⟩ := hcallee
  exact ⟨hentries.mp ⟨e, he, hkey⟩, hsent e he hkey hheavy e' he' hkey' hheavy'⟩

end Stax.Live
