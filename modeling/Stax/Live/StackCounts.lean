/-
# Stax.Live.StackCounts — counting every credited stack a number of times.

What a view shows of a symbol is a sum over all credits in which each credit counts as often as the
view meets the symbol on its stack.  For the three counters a view shows — samples, on-CPU time and
off-CPU intervals — that is a sum over the credited samples, or over the credited off-CPU stacks.
Two ways of counting, one of which never counts a stack less often than the other, agree exactly
when they count every stack alike or the smaller count fills its counter anyway.
-/
import Stax.Live.FlameDominance

namespace Stax.Live

open Stax.Lib

/-! ## Credited samples and off-CPU stacks -/

/-- The off-CPU stack of a charge. -/
def Charge.parked : Charge → List (List Addr)
  | .onCpu .. => []
  | .offCpu _ _ stack => [stack]

/-- Every credited sample with its share. -/
def creditedSamples (chs : List Charge) : List (PetSample × ℕ) := chs.flatMap Charge.shares

/-- Every credited off-CPU stack. -/
def creditedParks (chs : List Charge) : List (List Addr) := chs.flatMap Charge.parked

/-- The shares of a charge are not zero. -/
def Charge.Positive : Charge → Prop
  | .onCpu _ creditNs _ => 0 < creditNs
  | .offCpu .. => True

theorem positive_of_mem_creditedSamples {chs : List Charge} (h : ∀ ch ∈ chs, ch.Positive)
    {s : PetSample × ℕ} (hs : s ∈ creditedSamples chs) : 0 < s.2 := by
  obtain ⟨ch, hch, hs⟩ := List.mem_flatMap.mp hs
  cases ch with
  | onCpu durationNs creditNs matching =>
      obtain ⟨sample, -, rfl⟩ := List.mem_map.mp hs
      exact h _ hch
  | offCpu durationNs reason stack => cases hs

/-- What an aggregator charges takes time, every share of it. -/
theorem Aggregator.charges_positive (self : Aggregator) (binaries : BinaryRegistry)
    (predicate : EventCtx → Bool) (tids : List Tid) :
    ∀ ch ∈ self.charges binaries predicate tids, ch.Positive := by
  intro ch hch
  obtain ⟨t, -, stats, -, hout⟩ := Aggregator.mem_charges.mp hch
  obtain ⟨pre, iv, post, -, hemit⟩ := (Transducer.mem_outputs _).mp hout
  rw [attribution_emit] at hemit
  cases ch with
  | offCpu durationNs reason stack => trivial
  | onCpu durationNs creditNs matching =>
      obtain ⟨-, -, -, hshare⟩ := onCpu_mem_intervalCharges hemit
      show 0 < creditNs
      unfold shareOf at hshare
      split at hshare
      · cases hshare
      · rename_i hne
        cases hshare
        exact Nat.pos_of_ne_zero hne

/-- A credited stack is one of a credit. -/
theorem exists_credit_of_mem_creditedSamples {chs : List Charge} {s : PetSample × ℕ}
    (hs : s ∈ creditedSamples chs) :
    ∃ c ∈ Aggregation.creditsOf chs, c.stack = s.1.stack := by
  obtain ⟨ch, hch, hs⟩ := List.mem_flatMap.mp hs
  cases ch with
  | onCpu durationNs creditNs matching =>
      obtain ⟨sample, hsample, rfl⟩ := List.mem_map.mp hs
      refine ⟨⟨sample.stack, Counters.ofSample creditNs sample.pmc⟩, ?_, rfl⟩
      exact List.mem_flatMap.mpr ⟨_, hch, List.mem_map_of_mem hsample⟩
  | offCpu durationNs reason stack => cases hs

/-! ## Sums over the credits -/

section Sums

variable (many : List Addr → ℕ) (chs : List Charge)

/-- The sum of a counter over all credits, each counted as often as its stack says. -/
def countedSum (k : Counter) : U64 :=
  ((Aggregation.creditsOf chs).map fun c => many c.stack • c.delta.get k).sum

/-- The same summand for each that satisfies `p`. -/
theorem sum_ite_smul {α M : Type*} [AddCommMonoid M] (p : α → Bool) (m : M) (l : List α) :
    (l.map fun a => if p a then m else 0).sum = (l.filter p).length • m := by
  induction l with
  | nil => simp
  | cons a l ih =>
      rw [List.map_cons, List.sum_cons, ih, List.filter_cons]
      split
      · rw [List.length_cons, succ_nsmul']
      · rw [zero_add]

theorem smul_toU64 (m n : ℕ) : m • toU64 n = toU64 (m * n) := by
  have hhom := map_nsmul (Sat.ofNatHom u64Max) m n
  rw [smul_eq_mul] at hhom
  exact hhom.symm

/-- A sum over the credits is one over the charges. -/
theorem countedSum_eq {k : Counter} {w : Charge → ℕ}
    (h : ∀ ch, (ch.credits.map fun c => many c.stack • c.delta.get k).sum = toU64 (w ch)) :
    countedSum many chs k = toU64 (chs.map w).sum := by
  have hhom := map_list_sum (Sat.ofNatHom u64Max) (chs.map w)
  rw [List.map_map] at hhom
  rw [countedSum, Aggregation.creditsOf, List.map_flatMap, List.flatMap_def, List.sum_flatten,
    List.map_map]
  refine Eq.trans ?_ hhom.symm
  exact congrArg List.sum (List.map_congr_left fun ch _ => h ch)

theorem sum_creditedSamples (w : PetSample × ℕ → ℕ) :
    (chs.map fun ch => (ch.shares.map w).sum).sum = ((creditedSamples chs).map w).sum := by
  rw [creditedSamples, List.map_flatMap, List.flatMap_def, List.sum_flatten, List.map_map]
  rfl

/-- A charge's samples: each counts once. -/
theorem sum_samples (ch : Charge) :
    (ch.credits.map fun c => many c.stack • c.delta.petSamples).sum =
      toU64 (ch.shares.map fun s => many s.1.stack * 1).sum := by
  cases ch with
  | onCpu durationNs creditNs matching =>
      have hhom := map_list_sum (Sat.ofNatHom u64Max) (matching.map fun s => many s.stack * 1)
      rw [List.map_map] at hhom
      rw [Charge.credits, Charge.shares, List.map_map, List.map_map]
      refine Eq.trans ?_ hhom.symm
      exact congrArg List.sum (List.map_congr_left fun s _ => smul_toU64 (many s.stack) 1)
  | offCpu durationNs reason stack =>
      rw [Charge.credits, List.map_singleton, List.sum_singleton]
      exact smul_zero (many stack)

/-- A charge's on-CPU time: its share for each sample. -/
theorem sum_shares (ch : Charge) :
    (ch.credits.map fun c => many c.stack • c.delta.onCpuNs).sum =
      toU64 (ch.shares.map fun s => many s.1.stack * s.2).sum := by
  cases ch with
  | onCpu durationNs creditNs matching =>
      have hhom := map_list_sum (Sat.ofNatHom u64Max)
        (matching.map fun s => many s.stack * creditNs)
      rw [List.map_map] at hhom
      rw [Charge.credits, Charge.shares, List.map_map, List.map_map]
      refine Eq.trans ?_ hhom.symm
      exact congrArg List.sum (List.map_congr_left fun s _ => smul_toU64 (many s.stack) creditNs)
  | offCpu durationNs reason stack =>
      rw [Charge.credits, List.map_singleton, List.sum_singleton]
      exact smul_zero (many stack)

/-- A charge's off-CPU intervals. -/
theorem sum_parks (ch : Charge) :
    (ch.credits.map fun c => many c.stack • c.delta.offCpuIntervals).sum =
      toU64 (ch.parked.map fun stack => many stack * 1).sum := by
  cases ch with
  | onCpu durationNs creditNs matching =>
      rw [Charge.credits, List.map_map]
      refine List.sum_eq_zero fun n hn => ?_
      obtain ⟨s, -, rfl⟩ := List.mem_map.mp hn
      exact smul_zero (many s.stack)
  | offCpu durationNs reason stack =>
      rw [Charge.credits, Charge.parked, List.map_singleton, List.map_singleton,
        List.sum_singleton, List.sum_singleton]
      exact smul_toU64 (many stack) 1

theorem countedSum_petSamples :
    countedSum many chs .petSamples =
      toU64 ((creditedSamples chs).map fun s => many s.1.stack * 1).sum := by
  rw [← sum_creditedSamples]
  exact countedSum_eq many chs (sum_samples many)

theorem countedSum_onCpuNs :
    countedSum many chs .onCpuNs =
      toU64 ((creditedSamples chs).map fun s => many s.1.stack * s.2).sum := by
  rw [← sum_creditedSamples]
  exact countedSum_eq many chs (sum_shares many)

theorem countedSum_offCpuIntervals :
    countedSum many chs .offCpuIntervals =
      toU64 ((creditedParks chs).map fun stack => many stack * 1).sum := by
  have hparks : ((creditedParks chs).map fun stack => many stack * 1).sum =
      (chs.map fun ch => (ch.parked.map fun stack => many stack * 1).sum).sum := by
    rw [creditedParks, List.map_flatMap, List.flatMap_def, List.sum_flatten, List.map_map]
    rfl
  rw [hparks]
  exact countedSum_eq many chs (sum_parks many)

end Sums

/-! ## Counting a stack once -/

section Once

variable {p : List Addr → Bool} {many : List Addr → ℕ} {chs : List Charge}

/-- How many credited samples have a stack that satisfies `p`. -/
def sampleCount (p : List Addr → Bool) (chs : List Charge) : ℕ :=
  (creditedSamples chs).countP fun s => p s.1.stack

/-- What the credited samples with such a stack are credited together. -/
def sampleTime (p : List Addr → Bool) (chs : List Charge) : ℕ :=
  (((creditedSamples chs).filter fun s => p s.1.stack).map fun s => s.2).sum

/-- How many credited off-CPU intervals have such a stack. -/
def parkCount (p : List Addr → Bool) (chs : List Charge) : ℕ := (creditedParks chs).countP p

/-- Once, when the stack satisfies `p`. -/
def once (p : List Addr → Bool) (stack : List Addr) : ℕ := (p stack).toNat

theorem sum_filter_eq {α : Type*} (q : α → Bool) (w : α → ℕ) (l : List α) :
    ((l.filter q).map w).sum = (l.map fun a => (q a).toNat * w a).sum := by
  induction l with
  | nil => rfl
  | cons a l ih =>
      rw [List.map_cons, List.sum_cons, ← ih, List.filter_cons]
      cases q a <;> simp

theorem countP_eq_sum {α : Type*} (q : α → Bool) (l : List α) :
    l.countP q = (l.map fun a => (q a).toNat * 1).sum := by
  rw [← sum_filter_eq q (fun _ => 1), List.countP_eq_length_filter]
  simp

theorem sampleCount_eq :
    sampleCount p chs = ((creditedSamples chs).map fun s => once p s.1.stack * 1).sum :=
  countP_eq_sum (fun s : PetSample × ℕ => p s.1.stack) _

theorem sampleTime_eq :
    sampleTime p chs = ((creditedSamples chs).map fun s => once p s.1.stack * s.2).sum :=
  sum_filter_eq (fun s : PetSample × ℕ => p s.1.stack) Prod.snd _

theorem parkCount_eq :
    parkCount p chs = ((creditedParks chs).map fun stack => once p stack * 1).sum :=
  countP_eq_sum p _

/-- What the credited samples with a stack that satisfies `p` are credited is at most their time,
and there are at most as many of them as they have nanoseconds. -/
theorem sampleCount_le_sampleTime (hpos : ∀ ch ∈ chs, ch.Positive) :
    sampleCount p chs ≤ sampleTime p chs := by
  rw [sampleCount_eq, sampleTime_eq]
  apply List.sum_le_sum
  intro s hs
  exact Nat.mul_le_mul_left _ (positive_of_mem_creditedSamples hpos hs)

/-- A view that counts no stack less than once shows the samples and their time exactly when it
counts every credited sample once, or there are so many that the counter is full. -/
theorem samples_once_iff (hpos : ∀ ch ∈ chs, ch.Positive)
    (hle : ∀ s ∈ creditedSamples chs, once p s.1.stack ≤ many s.1.stack) :
    (countedSum many chs .petSamples).val = min (sampleCount p chs) u64Max ∧
        (countedSum many chs .onCpuNs).val = min (sampleTime p chs) u64Max ↔
      (∀ s ∈ creditedSamples chs, many s.1.stack = once p s.1.stack) ∨
        u64Max ≤ sampleCount p chs := by
  have htime := sampleCount_le_sampleTime (p := p) hpos
  have hcountIff := Sat.min_sum_mul_eq_iff (w := fun _ => 1) hle (fun _ _ => Nat.one_pos) u64Max
  have htimeIff := Sat.min_sum_mul_eq_iff (w := fun s : PetSample × ℕ => s.2) hle
    (fun s hs => positive_of_mem_creditedSamples hpos hs) u64Max
  rw [← sampleCount_eq] at hcountIff
  rw [← sampleTime_eq] at htimeIff
  rw [countedSum_petSamples, countedSum_onCpuNs, Sat.val_ofNat, Sat.val_ofNat, hcountIff, htimeIff]
  constructor
  · exact fun h => h.1
  · rintro (hall | hfull)
    · exact ⟨Or.inl hall, Or.inl hall⟩
    · exact ⟨Or.inr hfull, Or.inr (hfull.trans htime)⟩

/-- The same for the off-CPU intervals. -/
theorem parks_once_iff (hle : ∀ stack ∈ creditedParks chs, once p stack ≤ many stack) :
    (countedSum many chs .offCpuIntervals).val = min (parkCount p chs) u64Max ↔
      (∀ stack ∈ creditedParks chs, many stack = once p stack) ∨ u64Max ≤ parkCount p chs := by
  have hiff := Sat.min_sum_mul_eq_iff (w := fun _ => 1) hle (fun _ _ => Nat.one_pos) u64Max
  rw [← parkCount_eq] at hiff
  rw [countedSum_offCpuIntervals, Sat.val_ofNat, hiff]

/-- All credited samples together are credited no more than the on-CPU total. -/
theorem sampleTime_le_totalOnCpuNs (hshared : ∀ ch ∈ chs, ch.Shared) :
    min (sampleTime p chs) u64Max ≤ (Aggregation.ofCharges chs).totalOnCpuNs.val := by
  have htotal : (Aggregation.ofCharges chs).totalOnCpuNs =
      toU64 (chs.map Charge.onCpuDuration).sum := by
    have hhom := map_list_sum (Sat.ofNatHom u64Max) (chs.map Charge.onCpuDuration)
    rw [List.map_map] at hhom
    rw [Aggregation.totalOnCpuNs_ofCharges]
    exact hhom.symm
  have hle : sampleTime p chs ≤ (chs.map Charge.onCpuDuration).sum := by
    rw [sampleTime_eq, ← sum_creditedSamples]
    apply List.sum_le_sum
    intro ch hch
    cases ch with
    | onCpu durationNs creditNs matching =>
        have hone : ∀ n ∈ (Charge.onCpu durationNs creditNs matching).shares.map
            fun s => once p s.1.stack * s.2, n ≤ creditNs := by
          intro n hn
          obtain ⟨s, hs, rfl⟩ := List.mem_map.mp hn
          obtain ⟨sample, -, rfl⟩ := List.mem_map.mp hs
          exact (Nat.mul_le_mul_right creditNs (Bool.toNat_le (p sample.stack))).trans
            (Nat.le_of_eq (Nat.one_mul creditNs))
        have hsum := List.sum_le_card_nsmul _ creditNs hone
        rw [List.length_map, Charge.shares, List.length_map, smul_eq_mul] at hsum
        exact hsum.trans (hshared _ hch)
    | offCpu durationNs reason stack => exact Nat.zero_le _
  rw [htotal, Sat.val_ofNat]
  omega

end Once

end Stax.Live
