/-
# Stax.Live.FlameDominance — every flame node holds at least what its children hold.

A credit runs along a whole path, so the stack tree has it.  A group takes in its members together
with their children, so grouping by symbol keeps it, and folding pulls a node's children up only to
a node that holds at least what it holds.  The root takes its times from the headline totals: an
interval's samples share no more than its duration, so these are at least what all credits add up
to.  All this is exact as long as what the root is to hold fits into a counter.
-/
import Stax.Live.FlameQuotient
import Stax.Live.RecursionFold
import Stax.Live.Filter

namespace Stax.Live

open Stax.Lib Stax.Lib.Rose

/-! ## Grouping -/

section Groups

variable {binaries : BinaryRegistry} {children : List (Rose (Addr × Counters))} {k : Counter}

/-- A counter of a group, as a number. -/
def groupCount (k : Counter) (e : SymbolKey × Acc) : ℕ := (e.2.counters.get k).val

/-- A group holds exactly what its members hold. -/
theorem groupCount_eq (hfits : weight (counterOf k) children ≤ u64Max) {e : SymbolKey × Acc}
    (he : e ∈ groupsOf binaries children) :
    groupCount k e =
      ((membersOf binaries e.1 children).map fun child => counterOf k child.label).sum := by
  obtain ⟨key, acc⟩ := e
  have hcounters : acc.counters.get k =
      ((membersOf binaries key children).map fun child => child.label.2.get k).sum := by
    have hhom := map_list_sum (Counters.getHom k)
      ((membersOf binaries key children).map fun child => child.label.2)
    rw [List.map_map, ← counters_eq_sum he] at hhom
    exact hhom
  have hvals : (((membersOf binaries key children).map fun child => child.label.2.get k).map
      Sat.val).sum = ((membersOf binaries key children).map fun child =>
        counterOf k child.label).sum := by
    rw [List.map_map]
    rfl
  have hle : ((membersOf binaries key children).map fun child => counterOf k child.label).sum ≤
      weight (counterOf k) children :=
    (List.filter_sublist.map _).sum_le_sum fun _ _ => Nat.zero_le _
  show (acc.counters.get k).val = _
  rw [hcounters, Sat.val_sum_eq (by omega), hvals]

/-- The groups hold together what the children hold. -/
theorem weight_quotient (hfits : weight (counterOf k) children ≤ u64Max) :
    weight (groupCount k) (quotient binaries children) = weight (counterOf k) children := by
  have hkeys : ∀ child ∈ children,
      keyOf binaries child.label ∈ (groupsOf binaries children).map Prod.fst := by
    intro child hchild
    refine Grouping.mem_keys_group.mpr (List.ne_nil_of_mem (a := withSymbol binaries child) ?_)
    rw [members_withSymbol]
    refine List.mem_map_of_mem (List.mem_filter.mpr ⟨hchild, ?_⟩)
    exact decide_eq_true rfl
  calc weight (groupCount k) (quotient binaries children)
      = ((groupsOf binaries children).map (groupCount k)).sum := by
        rw [quotient_eq, weight, List.map_map]
        exact ((sortEntries_perm _).map _).sum_eq
    _ = ((groupsOf binaries children).map fun e =>
          ((membersOf binaries e.1 children).map fun child => counterOf k child.label).sum).sum :=
        congrArg List.sum (List.map_congr_left fun e he => groupCount_eq hfits he)
    _ = (((groupsOf binaries children).map Prod.fst).map fun key =>
          ((membersOf binaries key children).map fun child => counterOf k child.label).sum).sum := by
        rw [List.map_map]
        rfl
    _ = weight (counterOf k) children :=
        Grouping.sum_members (fun child => counterOf k child.label) (nodup_groupsOf children) hkeys

/-- What a group hands on is no more than the group holds. -/
theorem weight_below_le (hdominated : Dominated (counterOf k) children)
    (hfits : weight (counterOf k) children ≤ u64Max) {e : SymbolKey × Acc}
    (he : e ∈ groupsOf binaries children) :
    weight (counterOf k) e.2.below ≤ groupCount k e := by
  have hbelow : weight (counterOf k) e.2.below =
      ((membersOf binaries e.1 children).map fun child =>
        weight (counterOf k) child.children).sum := by
    obtain ⟨key, acc⟩ := e
    rw [Acc.below, subSources_eq he, weight_flatten, List.map_map]
    rfl
  rw [hbelow, groupCount_eq hfits he]
  apply List.sum_le_sum
  intro child hchild
  exact hdominated child (mem_nodes_self (List.mem_filter.mp hchild).1)

/-- Grouping keeps dominance. -/
theorem dominated_quotient (hdominated : Dominated (counterOf k) children)
    (hfits : weight (counterOf k) children ≤ u64Max) :
    Dominated (groupCount k) (quotient binaries children) := by
  induction children using groups_induction binaries with
  | step children ih =>
      rw [dominated_iff, quotient_eq]
      intro t ht
      obtain ⟨e, he, rfl⟩ := List.mem_map.mp ht
      have he := mem_sortEntries.mp he
      have hle := weight_below_le hdominated hfits he
      have hbelow : weight (counterOf k) e.2.below ≤ u64Max := hle.trans (e.2.counters.get k).le
      rw [label_node, children_node, weight_quotient hbelow]
      exact ⟨hle, ih e he (fun n hn => hdominated n (mem_nodes_below he hn)) hbelow⟩

end Groups

/-- The published trees hold together what the stack tree's root has below it, and every node in
them at least what its children hold. -/
theorem published_dominated {root : StackNode} {k : Counter} (binaries : BinaryRegistry)
    (hdominated : Dominated (counterOf k) root.children)
    (hfits : weight (counterOf k) root.children ≤ u64Max) :
    let children := (buildChildren binaries [root.children] {}).1.map foldRecursion
    weight (FlameData.count k) children = weight (counterOf k) root.children ∧
      Dominated (FlameData.count k) children := by
  have hlabels := (built_root binaries root).labels _ (StringInterner.Extends.refl _)
  generalize (buildChildren binaries [root.children] {}).2.interner = table at hlabels
  -- the built nodes carry the counters of the groups
  have hweight := (weight_mapForest (flameData table) (FlameData.count k)
    (quotient binaries root.children)).trans (weight_quotient hfits)
  have hbuilt : Dominated (FlameData.count k)
      (mapForest (flameData table) (quotient binaries root.children)) :=
    dominated_mapForest.mpr (dominated_quotient hdominated hfits)
  intro children
  have hchildren : children = (mapForest (flameData table)
      (quotient binaries root.children)).map foldRecursion := by
    rw [← hlabels]
  rw [hchildren]
  constructor
  · rw [← hweight, weight, List.map_map, weight]
    refine congrArg List.sum (List.map_congr_left fun t _ => ?_)
    show FlameData.count k (foldRecursion t).label = _
    rw [foldRecursion_eq, label_node]
  · rw [dominated_iff]
    intro folded hfolded
    obtain ⟨t, ht, rfl⟩ := List.mem_map.mp hfolded
    have htree : Dominated (FlameData.count k) [t] :=
      dominated_iff.mpr fun t' ht' => dominated_iff.mp hbuilt t' (List.mem_singleton.mp ht' ▸ ht)
    exact dominated_iff.mp (dominated_foldRecursion htree) _ List.mem_cons_self

theorem val_wrappingSum {ns : List U64} (h : (ns.map Sat.val).sum ≤ u64Max) :
    (wrappingSum ns).val = (ns.map Sat.val).sum := by
  have hlt : u64Max < 2 ^ 64 := by decide
  exact Nat.mod_eq_of_lt (h.trans_lt hlt)

/-! ## The headline totals -/

/-- The shares of an on-CPU charge are no more than its duration. -/
def Charge.Shared : Charge → Prop
  | .onCpu durationNs creditNs matching => matching.length * creditNs ≤ durationNs
  | .offCpu .. => True

/-- What a credit adds below the root: nothing without a stack. -/
def Credit.rooted (k : Counter) (c : Credit) : ℕ :=
  if c.stack.head? = none then 0 else (c.delta.get k).val

/-- What the root is to hold: the charged durations, and beyond the times what is credited. -/
def rootTotal (k : Counter) (chs : List Charge) : ℕ :=
  match k with
  | .onCpuNs => (chs.map Charge.onCpuDuration).sum
  | .offCpu r => (chs.map fun ch => (ch.offCpuTime.slot r).val).sum
  | k => ((Aggregation.creditsOf chs).map (Credit.rooted k)).sum

theorem rooted_le (k : Counter) (c : Credit) : c.rooted k ≤ (c.delta.get k).val := by
  unfold Credit.rooted
  split
  · exact Nat.zero_le _
  · exact Nat.le_refl _

/-- A charge credits no more on-CPU time than its duration. -/
theorem onCpu_credits_le {ch : Charge} (h : ch.Shared) :
    (ch.credits.map (Credit.rooted .onCpuNs)).sum ≤ ch.onCpuDuration := by
  cases ch with
  | onCpu durationNs creditNs matching =>
      have hone : ∀ s ∈ matching.map fun s : PetSample =>
          Credit.rooted .onCpuNs ⟨s.stack, Counters.ofSample creditNs s.pmc⟩, s ≤ creditNs := by
        intro n hn
        obtain ⟨s, -, rfl⟩ := List.mem_map.mp hn
        exact (rooted_le _ _).trans (Nat.min_le_left creditNs u64Max)
      have hsum := List.sum_le_card_nsmul _ creditNs hone
      rw [List.length_map, smul_eq_mul] at hsum
      rw [Charge.credits, List.map_map]
      exact hsum.trans h
  | offCpu durationNs reason stack =>
      rw [Charge.credits, List.map_singleton, List.sum_singleton]
      exact rooted_le _ _

/-- A charge credits no more off-CPU time to a reason than it adds to its total. -/
theorem offCpu_credits_le (ch : Charge) (r : OffCpuReason) :
    (ch.credits.map (Credit.rooted (.offCpu r))).sum ≤ (ch.offCpuTime.slot r).val := by
  cases ch with
  | onCpu durationNs creditNs matching =>
      refine Nat.le_of_eq ((List.sum_eq_zero fun n hn => ?_).trans ?_)
      · rw [Charge.credits, List.map_map] at hn
        obtain ⟨s, -, rfl⟩ := List.mem_map.mp hn
        refine Nat.le_zero.mp ((rooted_le _ _).trans (Nat.le_of_eq ?_))
        exact congrArg Sat.val (OffCpuBreakdown.slot_zero r)
      · exact (congrArg Sat.val (OffCpuBreakdown.slot_zero r)).symm
  | offCpu durationNs reason stack =>
      rw [Charge.credits, List.map_singleton, List.sum_singleton]
      exact rooted_le _ _

/-- What is credited is no more than what the root is to hold. -/
theorem credits_le_rootTotal {chs : List Charge} (h : ∀ ch ∈ chs, ch.Shared) (k : Counter) :
    ((Aggregation.creditsOf chs).map (Credit.rooted k)).sum ≤ rootTotal k chs := by
  have hcharges (w : Charge → ℕ) (hw : ∀ ch ∈ chs, (ch.credits.map (Credit.rooted k)).sum ≤ w ch) :
      ((Aggregation.creditsOf chs).map (Credit.rooted k)).sum ≤ (chs.map w).sum := by
    rw [Aggregation.creditsOf, List.map_flatMap, List.flatMap_def, List.sum_flatten, List.map_map]
    exact List.sum_le_sum hw
  cases k with
  | onCpuNs => exact hcharges _ fun ch hch => onCpu_credits_le (h ch hch)
  | offCpu r => exact hcharges _ fun ch _ => offCpu_credits_le ch r
  | _ => exact Nat.le_refl _

namespace Aggregation

/-- The root's children hold together every credit with a stack. -/
theorem weight_ofCharges_le {chs : List Charge} {k : Counter} (hshared : ∀ ch ∈ chs, ch.Shared)
    (hfits : Fits (creditsOf chs)) :
    weight (counterOf k) (ofCharges chs).flameRoot.children ≤ rootTotal k chs := by
  rw [flameRoot_ofCharges, hfits.weight_eq]
  exact credits_le_rootTotal hshared k

/-- Where what the root is to hold fits, no node saturates. -/
theorem fits_of_rootTotal {chs : List Charge} (hshared : ∀ ch ∈ chs, ch.Shared)
    (hfits : ∀ k, rootTotal k chs ≤ u64Max) : Fits (creditsOf chs) := by
  intro x k
  refine le_trans (List.sum_le_sum fun c _ => ?_)
    ((credits_le_rootTotal hshared k).trans (hfits k))
  unfold Credit.rooted
  split
  · rename_i hx
    have hstack : c.stack.head? ≠ none := by
      rw [Ne, List.head?_eq_none_iff]
      exact List.ne_nil_of_mem hx
    rw [if_neg hstack]
  · exact Nat.zero_le _

theorem val_totalOnCpuNs {chs : List Charge} (hfits : rootTotal .onCpuNs chs ≤ u64Max) :
    (ofCharges chs).totalOnCpuNs.val = rootTotal .onCpuNs chs := by
  have hhom := map_list_sum (Sat.ofNatHom u64Max) (chs.map Charge.onCpuDuration)
  rw [List.map_map] at hhom
  rw [totalOnCpuNs_ofCharges]
  exact (congrArg Sat.val hhom).symm.trans (Sat.val_ofNat_eq hfits)

theorem val_totalOffCpu {chs : List Charge} {r : OffCpuReason}
    (hfits : rootTotal (.offCpu r) chs ≤ u64Max) :
    ((ofCharges chs).totalOffCpu.slot r).val = rootTotal (.offCpu r) chs := by
  have hhom := map_list_sum (OffCpuBreakdown.slotHom r) (chs.map Charge.offCpuTime)
  have hvals : (((chs.map Charge.offCpuTime).map (OffCpuBreakdown.slotHom r)).map Sat.val).sum =
      rootTotal (.offCpu r) chs := by
    rw [List.map_map, List.map_map]
    rfl
  rw [totalOffCpu_ofCharges]
  exact (congrArg Sat.val hhom).trans ((Sat.val_sum_eq (by omega)).trans hvals)

end Aggregation

namespace Aggregator

open Aggregation

/-- The shares of every charge are those of its duration. -/
theorem charges_shared (self : Aggregator) (binaries : BinaryRegistry)
    (predicate : EventCtx → Bool) (tids : List Tid) :
    ∀ ch ∈ self.charges binaries predicate tids, ch.Shared := by
  intro ch hch
  obtain ⟨t, -, stats, -, hout⟩ := mem_charges.mp hch
  obtain ⟨pre, iv, post, -, hemit⟩ := (Transducer.mem_outputs _).mp hout
  rw [attribution_emit] at hemit
  cases ch with
  | offCpu durationNs reason stack => trivial
  | onCpu durationNs creditNs matching =>
      obtain ⟨-, -, -, hshare⟩ := onCpu_mem_intervalCharges hemit
      obtain ⟨-, hle, -⟩ := shareOf_bounds hshare
      show matching.length * creditNs ≤ durationNs
      rwa [Nat.mul_comm]

/-- Flame nodes dominate their children.  For every log, selection, filter and registry, as long as
what the root is to hold fits into its counters: in the published update every node, the root
included, holds of each counter at least what its children hold together, and the root's times are
the totals. -/
theorem flame_nodes_dominate (self : Aggregator) (binaries : BinaryRegistry) (tid : Option Tid)
    (filter : LiveFilter)
    (hfits : ∀ k, rootTotal k (self.charges binaries (self.passes binaries filter)
      (self.selected tid)) ≤ u64Max) :
    let update := computeFlameUpdate (aggregateWithFilter self binaries tid filter) binaries
    (∀ k, Dominated (FlameData.count k) [update.root]) ∧
      update.root.label.counters.onCpuNs = update.totalOnCpuNs ∧
      update.root.label.counters.offCpu = update.totalOffCpu := by
  intro update
  refine ⟨fun k => ?_, rfl, rfl⟩
  set chs := self.charges binaries (self.passes binaries filter) (self.selected tid) with hchs
  have hshared := self.charges_shared binaries (self.passes binaries filter) (self.selected tid)
  have hcredits := fits_of_rootTotal hshared hfits
  have hagg : aggregateWithFilter self binaries tid filter = ofCharges chs :=
    aggregateWithFilter_eq self binaries tid filter
  have hdominated : Dominated (counterOf k) (ofCharges chs).flameRoot.children := by
    rw [flameRoot_ofCharges]
    exact hcredits.dominated k
  have hle : weight (counterOf k) (ofCharges chs).flameRoot.children ≤ rootTotal k chs :=
    weight_ofCharges_le hshared hcredits
  obtain ⟨hweight, hbelow⟩ := published_dominated binaries hdominated (hle.trans (hfits k))
  have hupdate : update = computeFlameUpdate (ofCharges chs) binaries := by
    rw [← hagg]
  rw [hupdate, ← node_eta (computeFlameUpdate (ofCharges chs) binaries).root]
  refine dominated_cons.mpr ⟨?_, hbelow, dominated_nil⟩
  set children := (buildChildren binaries [(ofCharges chs).flameRoot.children] {}).1.map foldRecursion
    with hchildren
  -- beyond the times the root sums up its children
  have hsum : weight (FlameData.count k) children ≤
      (wrappingSum (children.map fun c => c.label.counters.get k)).val := by
    have hvals : ((children.map fun c => c.label.counters.get k).map Sat.val).sum =
        weight (FlameData.count k) children := by
      rw [List.map_map]
      rfl
    have hfit := hfits k
    rw [val_wrappingSum (by omega), hvals]
  have htotal : weight (FlameData.count k) children ≤ rootTotal k chs :=
    (Nat.le_of_eq hweight).trans hle
  cases k with
  | onCpuNs => exact htotal.trans (Nat.le_of_eq (val_totalOnCpuNs (hfits .onCpuNs)).symm)
  | offCpu r => exact htotal.trans (Nat.le_of_eq (val_totalOffCpu (hfits (.offCpu r))).symm)
  | petSamples => exact hsum
  | offCpuIntervals => exact hsum
  | pmc c => cases c <;> exact hsum

/-- One sample in `g`, called by `f`, called by `f`, in an interval of ten nanoseconds. -/
def recursiveSample : Aggregator := replay
  [.petSample 1 { timestampNs := 15, stack := [0xb0, 0xa1, 0xa0] },
    .interval 1 { startNs := 10, endNs := 20, kind := .onCpu }]

theorem flame_nodes_dominate_recursiveSample :
    (∀ k, rootTotal k (recursiveSample.charges callSites (recursiveSample.passes callSites {})
      (recursiveSample.selected none)) ≤ u64Max) ∧
    ∀ k, Dominated (FlameData.count k)
      [(computeFlameUpdate (aggregateWithFilter recursiveSample callSites none {}) callSites).root] := by
  have hcharges : recursiveSample.charges callSites (recursiveSample.passes callSites {})
      (recursiveSample.selected none) =
        [.onCpu 10 10 [{ timestampNs := 15, stack := [0xb0, 0xa1, 0xa0] }]] := by
    decide +kernel
  have hfits : ∀ k, rootTotal k (recursiveSample.charges callSites
      (recursiveSample.passes callSites {}) (recursiveSample.selected none)) ≤ u64Max := by
    intro k
    rw [hcharges]
    cases k with
    | offCpu r => cases r <;> decide
    | pmc c => cases c <;> decide
    | _ => decide
  exact ⟨hfits, (flame_nodes_dominate recursiveSample callSites none {} hfits).1⟩

end Aggregator

end Stax.Live
