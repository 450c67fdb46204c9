/-
# Stax.Live.Credits — what an aggregation adds up.

A charge makes a list of credits, each a stack and the counters it adds.  The result of an
aggregation is a sum over them: the tree is the trie credited along the reversed stacks, an
address's entry is the sum of the credits whose stack passes it, and the headline totals are sums
over the charges.  Everything later said about an aggregation is said about these sums, and because
saturating addition is commutative and associative they may be regrouped at will.
-/
import Stax.Live.Aggregator

namespace Stax.Live

open Stax.Lib

/-! ## Address entries as a monoid -/

namespace AddressStats

instance : Zero AddressStats := ⟨{}⟩

instance : Add AddressStats :=
  ⟨fun a b => { self := a.self + b.self, total := a.total + b.total }⟩

@[simp] theorem self_zero : (0 : AddressStats).self = 0 := rfl

@[simp] theorem total_zero : (0 : AddressStats).total = 0 := rfl

@[simp] theorem self_add (a b : AddressStats) : (a + b).self = a.self + b.self := rfl

@[simp] theorem total_add (a b : AddressStats) : (a + b).total = a.total + b.total := rfl

theorem ext_parts {a b : AddressStats} (hself : a.self = b.self) (htotal : a.total = b.total) :
    a = b := by
  obtain ⟨_, _⟩ := a
  obtain ⟨_, _⟩ := b
  rw [AddressStats.mk.injEq]
  exact ⟨hself, htotal⟩

instance : AddCommMonoid AddressStats where
  zero_add a := ext_parts (zero_add a.self) (zero_add a.total)
  add_zero a := ext_parts (add_zero a.self) (add_zero a.total)
  add_comm a b := ext_parts (add_comm a.self b.self) (add_comm a.total b.total)
  add_assoc a b c := ext_parts (add_assoc a.self b.self c.self) (add_assoc a.total b.total c.total)
  nsmul := nsmulRec

/-- The leaf's counters. -/
def selfHom : AddressStats →+ Counters where
  toFun := self
  map_zero' := rfl
  map_add' _ _ := rfl

/-- Reading the total of an address is additive in its statistics. -/
def totalHom : AddressStats →+ Counters where
  toFun := total
  map_zero' := rfl
  map_add' _ _ := rfl

end AddressStats

/-! ## Credits -/

/-- One call that credits a stack: what is added to the counters along it. -/
structure Credit where
  stack : List Addr
  delta : Counters
  deriving DecidableEq, Repr

namespace Charge

/-- What a charge credits to the tree: for time on a cpu one credit a sample, for a wait one credit
for its stack. -/
def credits : Charge → List Credit
  | .onCpu _ creditNs matching => matching.map fun s => ⟨s.stack, Counters.ofSample creditNs s.pmc⟩
  | .offCpu durationNs reason stack => [⟨stack, Counters.ofInterval reason durationNs⟩]

/-- What a charge adds to the on-CPU total. -/
def onCpuDuration : Charge → ℕ
  | .onCpu durationNs _ _ => durationNs
  | .offCpu .. => 0

/-- What a charge adds to the off-CPU totals. -/
def offCpuTime : Charge → OffCpuBreakdown
  | .onCpu .. => 0
  | .offCpu durationNs reason _ => OffCpuBreakdown.single reason (toU64 durationNs)

end Charge

/-- What a credit adds to the entry of `x`. -/
def Credit.at (c : Credit) (x : Addr) : WithZero AddressStats :=
  if x ∈ c.stack then
    (({ self := if c.stack.head? = some x then c.delta else 0, total := c.delta } :
      AddressStats) : WithZero AddressStats)
  else 0

/-- The path a credit takes through the tree, outermost frame first. -/
def Credit.path (c : Credit) : List Addr × Counters := (c.stack.reverse, c.delta)

/-! ## The effect of one credit -/

/-- The entry of `x`, absent or present. -/
def ByAddress.at (table : ByAddress) (x : Addr) : WithZero AddressStats := table.lookup x

theorem ByAddress.at_modify_add (table : ByAddress) (addr x : Addr) (d : AddressStats) :
    (table.modify addr (· + d)).at x =
      table.at x + if x = addr then (d : WithZero AddressStats) else 0 := by
  rcases eq_or_ne x addr with rfl | hne
  · rw [if_pos rfl]
    show ((table.insert x ((table.lookup x).getD {} + d)).lookup x : Option AddressStats) =
      table.at x + (d : WithZero AddressStats)
    rw [AList.lookup_insert, ByAddress.at]
    cases table.lookup x with
    | none => exact congrArg some (zero_add d)
    | some s => rfl
  · rw [if_neg hne, add_zero]
    exact AList.lookup_insert_ne hne

namespace Aggregation

/-- The totals grow at every address of the stack, once where it recurs. -/
theorem at_creditTotals (d : Counters) (x : Addr) (seen stack : List Addr) (table : ByAddress) :
    (creditTotals (· + d) seen stack table).at x =
      table.at x +
        if x ∈ stack ∧ x ∉ seen then (({ total := d } : AddressStats) : WithZero AddressStats)
        else 0 := by
  induction stack generalizing seen table with
  | nil => simp [creditTotals]
  | cons addr stack ih =>
      rw [creditTotals]
      split
      · rename_i hseen
        rw [ih]
        congr 1
        refine if_congr ?_ rfl rfl
        rw [List.mem_cons]
        constructor
        · exact fun h => ⟨Or.inr h.1, h.2⟩
        · rintro ⟨rfl | h, hnot⟩
          · exact absurd hseen hnot
          · exact ⟨h, hnot⟩
      · rename_i hnew
        have hmodify : table.modify addr (fun s => { s with total := s.total + d }) =
            table.modify addr (· + { total := d }) := by
          congr 1
          funext s
          exact AddressStats.ext_parts (add_zero s.self).symm rfl
        rw [ih, hmodify, ByAddress.at_modify_add, add_assoc]
        congr 1
        rcases eq_or_ne x addr with rfl | hne
        · simp [hnew]
        · simp [hne]

/-- One credit: the tree gains it along the reversed stack, the entry of every address on the stack
gains it once, and nothing else changes. -/
def addCredit (self : Aggregation) (c : Credit) : Aggregation :=
  self.creditToTree (· + c.delta) c.stack

theorem flameRoot_addCredit (self : Aggregation) (c : Credit) :
    (self.addCredit c).flameRoot =
      { self.flameRoot with
        children := Trie.adjust (· + c.delta) c.stack.reverse self.flameRoot.children } := by
  obtain ⟨stack, d⟩ := c
  rcases stack with _ | ⟨leaf, stack⟩
  · rfl
  · rfl

theorem totalOnCpuNs_addCredit (self : Aggregation) (c : Credit) :
    (self.addCredit c).totalOnCpuNs = self.totalOnCpuNs := by
  obtain ⟨stack, d⟩ := c
  rcases stack with _ | ⟨leaf, stack⟩ <;> rfl

theorem totalOffCpu_addCredit (self : Aggregation) (c : Credit) :
    (self.addCredit c).totalOffCpu = self.totalOffCpu := by
  obtain ⟨stack, d⟩ := c
  rcases stack with _ | ⟨leaf, stack⟩ <;> rfl

/-- The statistics of an address after one credit more. -/
theorem at_addCredit (self : Aggregation) (c : Credit) (x : Addr) :
    (self.addCredit c).byAddress.at x = self.byAddress.at x + c.at x := by
  obtain ⟨stack, d⟩ := c
  rcases stack with _ | ⟨leaf, stack⟩
  · exact (add_zero _).symm
  · show (creditTotals (· + d) [] (leaf :: stack)
        (self.byAddress.modify leaf fun s => { s with self := s.self + d })).at x = _
    have hmodify : self.byAddress.modify leaf (fun s => { s with self := s.self + d }) =
        self.byAddress.modify leaf (· + { self := d }) := by
      congr 1
      funext s
      exact AddressStats.ext_parts rfl (add_zero s.total).symm
    rw [at_creditTotals, hmodify, ByAddress.at_modify_add, add_assoc, Credit.at]
    congr 1
    rcases eq_or_ne x leaf with rfl | hne
    · simp only [if_true, List.mem_cons_self, List.not_mem_nil, not_false_eq_true, and_self,
        List.head?_cons]
      rw [← WithZero.coe_add]
      congr 1
      exact AddressStats.ext_parts (add_zero d) (zero_add d)
    · simp [hne, hne.symm]

/-! ## The effect of a charge -/

/-- The headline totals after a charge. -/
def addTotals (self : Aggregation) (ch : Charge) : Aggregation :=
  { self with
    totalOnCpuNs := self.totalOnCpuNs + toU64 ch.onCpuDuration
    totalOffCpu := self.totalOffCpu + ch.offCpuTime }

theorem creditOnCpuToTree_eq (self : Aggregation) (stack : List Addr) (creditNs : ℕ)
    (pmc : PmuSample) :
    self.creditOnCpuToTree stack creditNs pmc =
      self.addCredit ⟨stack, Counters.ofSample creditNs pmc⟩ := by
  unfold creditOnCpuToTree addCredit
  congr 1
  funext c
  exact (Counters.add_ofSample c creditNs pmc).symm

theorem creditOffCpuToTree_eq (self : Aggregation) (stack : List Addr) (reason : OffCpuReason)
    (durationNs : ℕ) :
    self.creditOffCpuToTree stack reason durationNs =
      self.addCredit ⟨stack, Counters.ofInterval reason durationNs⟩ := by
  unfold creditOffCpuToTree addCredit
  congr 1
  funext c
  exact (Counters.add_ofInterval c reason durationNs).symm

/-- A charge raises the totals and makes its credits. -/
theorem charge_eq (self : Aggregation) (ch : Charge) :
    self.charge ch = ch.credits.foldl addCredit (self.addTotals ch) := by
  cases ch with
  | onCpu durationNs creditNs matching =>
      have htotals : self.addTotals (.onCpu durationNs creditNs matching) =
          { self with totalOnCpuNs := self.totalOnCpuNs + toU64 durationNs } := by
        unfold addTotals
        rw [Charge.offCpuTime, add_zero, Charge.onCpuDuration]
      rw [charge, Charge.credits, List.foldl_map, htotals]
      simp only [creditOnCpuToTree_eq]
  | offCpu durationNs reason stack =>
      have htotals : self.addTotals (.offCpu durationNs reason stack) =
          { self with totalOffCpu := self.totalOffCpu.addReason reason (toU64 durationNs) } := by
        unfold addTotals
        rw [Charge.offCpuTime, OffCpuBreakdown.addReason_eq, Charge.onCpuDuration, toU64,
          ← Sat.ofNatHom_apply, map_zero, add_zero]
      rw [charge, creditOffCpuToTree_eq, Charge.credits, htotals]
      rfl

/-! ## Sums over the credits and the charges -/

theorem flameRoot_foldl_addCredit (cs : List Credit) (self : Aggregation) :
    (cs.foldl addCredit self).flameRoot =
      { self.flameRoot with
        children := Trie.credit self.flameRoot.children (cs.map Credit.path) } := by
  induction cs generalizing self with
  | nil => rfl
  | cons c cs ih =>
      rw [List.foldl_cons, ih, flameRoot_addCredit, List.map_cons]
      rfl

theorem at_foldl_addCredit (cs : List Credit) (self : Aggregation) (x : Addr) :
    (cs.foldl addCredit self).byAddress.at x =
      self.byAddress.at x + (cs.map fun c => c.at x).sum := by
  induction cs generalizing self with
  | nil => simp
  | cons c cs ih => rw [List.foldl_cons, ih, at_addCredit, List.map_cons, List.sum_cons, add_assoc]

theorem totals_foldl_addCredit (cs : List Credit) (self : Aggregation) :
    (cs.foldl addCredit self).totalOnCpuNs = self.totalOnCpuNs ∧
      (cs.foldl addCredit self).totalOffCpu = self.totalOffCpu := by
  induction cs generalizing self with
  | nil => exact ⟨rfl, rfl⟩
  | cons c cs ih =>
      obtain ⟨hon, hoff⟩ := ih (self.addCredit c)
      exact ⟨hon.trans (totalOnCpuNs_addCredit self c), hoff.trans (totalOffCpu_addCredit self c)⟩

/-- The aggregation of a list of charges. -/
def ofCharges (chs : List Charge) : Aggregation := chs.foldl charge {}

/-- Every credit a list of charges makes. -/
def creditsOf (chs : List Charge) : List Credit := chs.flatMap Charge.credits

theorem flameRoot_foldl_charge (chs : List Charge) (self : Aggregation) :
    (chs.foldl charge self).flameRoot =
      { self.flameRoot with
        children := Trie.credit self.flameRoot.children ((creditsOf chs).map Credit.path) } := by
  induction chs generalizing self with
  | nil => rfl
  | cons ch chs ih =>
      rw [List.foldl_cons, ih, charge_eq, flameRoot_foldl_addCredit]
      simp only [creditsOf, List.flatMap_cons, List.map_append, Trie.credit_append]
      rfl

/-- The tree is the trie of the credits along their reversed stacks. -/
theorem flameRoot_ofCharges (chs : List Charge) :
    (ofCharges chs).flameRoot =
      { children := Trie.credit [] ((creditsOf chs).map Credit.path) } :=
  flameRoot_foldl_charge chs {}

theorem at_foldl_charge (chs : List Charge) (self : Aggregation) (x : Addr) :
    (chs.foldl charge self).byAddress.at x =
      self.byAddress.at x + ((creditsOf chs).map fun c => c.at x).sum := by
  induction chs generalizing self with
  | nil => simp [creditsOf]
  | cons ch chs ih =>
      rw [List.foldl_cons, ih, charge_eq, at_foldl_addCredit]
      simp only [creditsOf, List.flatMap_cons, List.map_append, List.sum_append, add_assoc]
      rfl

/-- An address's entry is the sum of the credits that pass it. -/
theorem at_ofCharges (chs : List Charge) (x : Addr) :
    (ofCharges chs).byAddress.at x = ((creditsOf chs).map fun c => c.at x).sum := by
  rw [ofCharges, at_foldl_charge]
  exact zero_add _

theorem totals_foldl_charge (chs : List Charge) (self : Aggregation) :
    (chs.foldl charge self).totalOnCpuNs =
        self.totalOnCpuNs + (chs.map fun ch => toU64 ch.onCpuDuration).sum ∧
      (chs.foldl charge self).totalOffCpu =
        self.totalOffCpu + (chs.map Charge.offCpuTime).sum := by
  induction chs generalizing self with
  | nil => simp
  | cons ch chs ih =>
      obtain ⟨hon, hoff⟩ := ih (self.charge ch)
      have hch := totals_foldl_addCredit ch.credits (self.addTotals ch)
      rw [← charge_eq] at hch
      rw [List.foldl_cons, hon, hoff, hch.1, hch.2, List.map_cons, List.map_cons, List.sum_cons,
        List.sum_cons, ← add_assoc, ← add_assoc]
      exact ⟨rfl, rfl⟩

/-- The on-CPU total is the sum of the charged durations. -/
theorem totalOnCpuNs_ofCharges (chs : List Charge) :
    (ofCharges chs).totalOnCpuNs = (chs.map fun ch => toU64 ch.onCpuDuration).sum :=
  (totals_foldl_charge chs {}).1.trans (zero_add _)

theorem totalOffCpu_ofCharges (chs : List Charge) :
    (ofCharges chs).totalOffCpu = (chs.map Charge.offCpuTime).sum :=
  (totals_foldl_charge chs {}).2.trans (zero_add _)

end Aggregation

/-- A query for one thread; an unknown one is charged nothing. -/
theorem Aggregator.aggregate_some (self : Aggregator) (binaries : BinaryRegistry)
    (predicate : EventCtx → Bool) (tid : Tid) :
    self.aggregate (some tid) binaries predicate =
      Aggregation.ofCharges (self.threadCharges binaries predicate tid) := by
  have hcharges : self.charges binaries predicate (self.selected (some tid)) =
      self.threadCharges binaries predicate tid := by
    show (if tid ∈ self.threads then [tid] else []).flatMap
      (self.threadCharges binaries predicate) = _
    split
    · exact List.flatMap_singleton _ tid
    · rename_i hnot
      rw [threadCharges, AList.lookup_eq_none.mpr hnot]
      rfl
  rw [← hcharges]
  rfl

end Stax.Live
