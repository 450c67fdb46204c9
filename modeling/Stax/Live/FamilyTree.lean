/-
# Stax.Live.FamilyTree — what a symbol is counted with in its family tree.

The target's own counters are the sums over its nodes in the stack tree.  A credit runs along a
whole path, so it is in them as often as the target is on the credited stack: a sample in which the
target calls itself is counted once for each of its frames.
-/
import Stax.Live.SymbolTrees
import Stax.Live.TopEntries

namespace Stax.Live

open Stax.Lib Stax.Lib.Rose

/-! ## The target on a stack -/

/-- How many frames of a stack resolve to a symbol. -/
def targetFrames (binaries : BinaryRegistry) (targetKey : SymbolKey) (stack : List Addr) : ℕ :=
  stack.countP fun x => symbolOf binaries x = targetKey

/-- Whether a stack has a frame that resolves to a symbol. -/
def hasTarget (binaries : BinaryRegistry) (targetKey : SymbolKey) (stack : List Addr) : Bool :=
  stack.any fun x => symbolOf binaries x = targetKey

section Target

variable {binaries : BinaryRegistry} {targetKey : SymbolKey}

theorem hasTarget_iff {stack : List Addr} :
    hasTarget binaries targetKey stack = true ↔ 0 < targetFrames binaries targetKey stack := by
  unfold hasTarget targetFrames
  rw [List.any_eq_true, List.countP_pos_iff]

theorem once_le_targetFrames (stack : List Addr) :
    once (hasTarget binaries targetKey) stack ≤ targetFrames binaries targetKey stack := by
  unfold once
  cases htarget : hasTarget binaries targetKey stack with
  | false => exact Nat.zero_le _
  | true => exact hasTarget_iff.mp htarget

/-- A stack is counted once exactly when the target is not twice on it. -/
theorem targetFrames_eq_once_iff (stack : List Addr) :
    targetFrames binaries targetKey stack = once (hasTarget binaries targetKey) stack ↔
      targetFrames binaries targetKey stack ≤ 1 := by
  have hiff : hasTarget binaries targetKey stack = true ↔ _ := hasTarget_iff
  unfold once
  cases htarget : hasTarget binaries targetKey stack with
  | false =>
      have hnone : ¬ 0 < targetFrames binaries targetKey stack := by
        rw [← hiff, htarget]
        exact Bool.false_ne_true
      show _ = 0 ↔ _
      omega
  | true =>
      have hsome := hiff.mp htarget
      show _ = 1 ↔ _
      omega

/-! ## The target's own counters -/

/-- A counter of what the target's nodes add up to. -/
theorem get_ownEntries (k : Counter) (f : Trie Addr Counters) :
    ((ownEntries binaries targetKey f).map fun a => a.2.get k).sum =
      (Trie.nodeSum (fun x => x ≠ 0 ∧ symbolOf binaries x = targetKey) f).get k := by
  have hhom := map_list_sum (Counters.getHom k)
    ((ownEntries binaries targetKey f).map Prod.snd)
  rw [List.map_map] at hhom
  refine hhom.symm.trans (congrArg (Counters.getHom k) ?_)
  unfold ownEntries Trie.nodeSum
  induction nodes f with
  | nil => rfl
  | cons n ns ih =>
      rw [List.filter_cons, List.map_cons, List.sum_cons, ← ih]
      show _ = (if isTarget binaries targetKey n.label then n.label.2 else 0) + _
      split
      · rfl
      · rw [zero_add]

end Target

section Own

open Aggregation

variable {binaries : BinaryRegistry} {targetKey : SymbolKey} {chs : List Charge}

/-- The target's counters hold every credit as often as the target is on its stack. -/
theorem get_own (hframes : ∀ c ∈ creditsOf chs, 0 ∉ c.stack) (k : Counter) :
    ((ownEntries binaries targetKey (ofCharges chs).flameRoot.children).map
        fun a => a.2.get k).sum =
      countedSum (targetFrames binaries targetKey) chs k := by
  have hhom := map_list_sum (Counters.getHom k) ((creditsOf chs).map fun c =>
    targetFrames binaries targetKey c.stack • c.delta)
  have hcredits : ((creditsOf chs).map Credit.path).map (fun e =>
      e.1.countP (fun x => x ≠ 0 ∧ symbolOf binaries x = targetKey) • e.2) =
      (creditsOf chs).map fun c => targetFrames binaries targetKey c.stack • c.delta := by
    rw [List.map_map]
    refine List.map_congr_left fun c hc => ?_
    show c.stack.reverse.countP _ • c.delta = _
    congr 1
    rw [List.countP_reverse]
    refine List.countP_congr fun x hx => ?_
    have hne : x ≠ 0 := ne_of_mem_of_not_mem hx (hframes c hc)
    simp [hne]
  rw [get_ownEntries, flameRoot_ofCharges, Trie.nodeSum_credit, hcredits]
  show (0 + _ : Counters).get k = _
  rw [zero_add, countedSum]
  refine hhom.trans (congrArg List.sum ?_)
  rw [List.map_map]
  exact List.map_congr_left fun c _ => map_nsmul (Counters.getHom k) _ _

/-- A symbol node shows everything but the counters of the PMU. -/
theorem get_timed (a : Addr × Counters) {k : Counter} (hk : ∀ c, k ≠ .pmc c) :
    (timed a).get k = a.2.get k := by
  cases k with
  | pmc c => exact absurd rfl (hk c)
  | _ => rfl

theorem get_own_acc (flameRoot : StackNode) (targetAddress : Addr) {k : Counter}
    (hk : ∀ c, k ≠ .pmc c) :
    (neighborsOf flameRoot binaries targetAddress).own.acc.counters.get k =
      ((ownEntries binaries (symbolOf binaries targetAddress) flameRoot.children).map
        fun a => a.2.get k).sum := by
  have hhom := map_list_sum (Counters.getHom k)
    ((ownEntries binaries (symbolOf binaries targetAddress) flameRoot.children).map timed)
  rw [neighborsOf_eq]
  show (accumulateAll binaries {} _).acc.counters.get k = _
  rw [acc_accumulateAll]
  refine hhom.trans (congrArg List.sum ?_)
  rw [List.map_map]
  exact List.map_congr_left fun a _ => get_timed a hk

end Own

/-! ## Counting once -/

/-- What the family tree says of its symbol is what the credited samples and off-CPU intervals with
a frame of the symbol hold, each counted once, up to what a counter holds. -/
structure NeighborsUpdate.CountsOnce (update : NeighborsUpdate) (onStack : List Addr → Bool)
    (chs : List Charge) : Prop where
  samples : update.ownPetSamples.val = min (sampleCount onStack chs) u64Max
  onCpu : update.ownOnCpuNs.val = min (sampleTime onStack chs) u64Max
  parks : update.ownOffCpuIntervals.val = min (parkCount onStack chs) u64Max

namespace Aggregator

open Aggregation

/-- The family tree counts each stack once exactly when its symbol is not twice on a stack.  For
every log of stacks without frames at the address zero, every selection, filter, registry and
target: the target's own counters are those of the credited samples and off-CPU intervals that have
it on their stack, each counted once, exactly when no credited sample and no credited off-CPU
interval has two frames of it, or there are so many of them that the counters are full. -/
theorem own_counts_iff (self : Aggregator) (tid : Option Tid) (filter : LiveFilter)
    (binaries : BinaryRegistry) (targetAddress : Addr)
    (hframes : ∀ c ∈ creditsOf (self.charges binaries (self.passes binaries filter)
      (self.selected tid)), 0 ∉ c.stack) :
    let chs := self.charges binaries (self.passes binaries filter) (self.selected tid)
    let target := symbolOf binaries targetAddress
    (computeNeighborsUpdate (aggregateWithFilter self binaries tid filter).flameRoot binaries
        targetAddress).CountsOnce (hasTarget binaries target) chs ↔
      ((∀ s ∈ creditedSamples chs, targetFrames binaries target s.1.stack ≤ 1) ∨
          u64Max ≤ sampleCount (hasTarget binaries target) chs) ∧
        ((∀ stack ∈ creditedParks chs, targetFrames binaries target stack ≤ 1) ∨
          u64Max ≤ parkCount (hasTarget binaries target) chs) := by
  intro chs target
  have hagg : aggregateWithFilter self binaries tid filter = ofCharges chs :=
    aggregateWithFilter_eq self binaries tid filter
  set update := computeNeighborsUpdate (aggregateWithFilter self binaries tid filter).flameRoot
    binaries targetAddress with hupdate
  -- the counters of the update are sums over the credits
  have hown (k : Counter) (hk : ∀ c, k ≠ .pmc c) :
      (neighborsOf (aggregateWithFilter self binaries tid filter).flameRoot binaries
        targetAddress).own.acc.counters.get k = countedSum (targetFrames binaries target) chs k := by
    rw [hagg, get_own_acc _ _ hk]
    exact get_own hframes k
  have hsamples : update.ownPetSamples = countedSum (targetFrames binaries target) chs .petSamples :=
    hown .petSamples (by simp)
  have honCpu : update.ownOnCpuNs = countedSum (targetFrames binaries target) chs .onCpuNs :=
    hown .onCpuNs (by simp)
  have hparks : update.ownOffCpuIntervals =
      countedSum (targetFrames binaries target) chs .offCpuIntervals :=
    hown .offCpuIntervals (by simp)
  have hpos : ∀ ch ∈ chs, ch.Positive := self.charges_positive binaries _ _
  have hsamplesIff := @samples_once_iff (hasTarget binaries target) (targetFrames binaries target)
    chs hpos fun s _ => once_le_targetFrames s.1.stack
  have hparksIff := @parks_once_iff (hasTarget binaries target) (targetFrames binaries target) chs
    fun stack _ => once_le_targetFrames stack
  simp only [targetFrames_eq_once_iff] at hsamplesIff hparksIff
  rw [← hsamplesIff, ← hparksIff, ← hsamples, ← honCpu, ← hparks]
  constructor
  · rintro ⟨hcount, htime, hpark⟩
    exact ⟨⟨hcount, htime⟩, hpark⟩
  · rintro ⟨⟨hcount, htime⟩, hpark⟩
    exact ⟨hcount, htime, hpark⟩

/-- The sample of `f` called by `f` is counted twice. -/
theorem recursiveSample_own_counted_twice :
    ¬ (computeNeighborsUpdate (aggregateWithFilter recursiveSample callSites none {}).flameRoot
        callSites 0xa0).CountsOnce (hasTarget callSites (symbolOf callSites 0xa0))
      (recursiveSample.charges callSites (recursiveSample.passes callSites {})
        (recursiveSample.selected none)) := by
  intro h
  have hcount := h.samples
  revert hcount
  decide +kernel

/-- The sample has one frame of `g`. -/
theorem own_counts_iff_recursiveSample :
    (computeNeighborsUpdate (aggregateWithFilter recursiveSample callSites none {}).flameRoot
        callSites 0xb0).CountsOnce (hasTarget callSites (symbolOf callSites 0xb0))
      (recursiveSample.charges callSites (recursiveSample.passes callSites {})
        (recursiveSample.selected none)) := by
  refine (own_counts_iff recursiveSample none {} callSites 0xb0 (by decide +kernel)).mpr ?_
  exact ⟨Or.inl (by decide +kernel), Or.inl (by decide +kernel)⟩

end Aggregator

end Stax.Live
