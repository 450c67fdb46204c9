/-
# Stax.Live.Counters — the counters of the live aggregation.

Every counter of the live server is a `u64` that is added to with `saturating_add`: `U64` is the
commutative monoid of these.  A tree node, an address and a flame group carry the same five groups
of counters, here one record `Counters`; `Counter` names each single counter, so that a statement
about every field is a statement about every `Counter`.
-/
import Mathlib
import Stax.Kdebug
import Stax.Lib.Saturating

namespace Stax.Live

open Stax.Lib

/-- A `u64` counter; `+` is `saturating_add`. -/
abbrev U64 := Sat u64Max

/-- A computed number as a counter value. -/
abbrev toU64 (n : ℕ) : U64 := Sat.ofNat u64Max n

/-! ## PMU counters -/

/-- The PMU values of one sample. -/
structure PmuSample where
  cycles : U64 := 0
  instructions : U64 := 0
  l1dMisses : U64 := 0
  branchMispreds : U64 := 0
  deriving DecidableEq, Repr, Inhabited

/-- Sums of the performance counters; every addition saturates. -/
structure PmcAccum where
  cycles : U64 := 0
  instructions : U64 := 0
  l1dMisses : U64 := 0
  branchMispreds : U64 := 0
  deriving DecidableEq, Repr, Inhabited

/-- The single PMU counters. -/
inductive PmuCounter
  | cycles
  | instructions
  | l1dMisses
  | branchMispreds
  deriving DecidableEq, Repr

namespace PmcAccum

/-- The counters of one more sample are added to the sums. -/
def add (self : PmcAccum) (s : PmuSample) : PmcAccum where
  cycles := self.cycles + s.cycles
  instructions := self.instructions + s.instructions
  l1dMisses := self.l1dMisses + s.l1dMisses
  branchMispreds := self.branchMispreds + s.branchMispreds

/-- Sums of two parts of a tree are added up, counter by counter. -/
def addOther (self other : PmcAccum) : PmcAccum where
  cycles := self.cycles + other.cycles
  instructions := self.instructions + other.instructions
  l1dMisses := self.l1dMisses + other.l1dMisses
  branchMispreds := self.branchMispreds + other.branchMispreds

/-- One of the sums, by the name of its counter. -/
def get (self : PmcAccum) : PmuCounter → U64
  | .cycles => self.cycles
  | .instructions => self.instructions
  | .l1dMisses => self.l1dMisses
  | .branchMispreds => self.branchMispreds

/-- One sample's values as an accumulator. -/
def ofSample (s : PmuSample) : PmcAccum where
  cycles := s.cycles
  instructions := s.instructions
  l1dMisses := s.l1dMisses
  branchMispreds := s.branchMispreds

instance : Zero PmcAccum := ⟨{}⟩
instance : Add PmcAccum := ⟨addOther⟩

@[simp] theorem get_zero (c : PmuCounter) : (0 : PmcAccum).get c = 0 := by
  cases c <;> rfl

@[simp] theorem get_add (a b : PmcAccum) (c : PmuCounter) : (a + b).get c = a.get c + b.get c := by
  cases c <;> rfl

theorem ext_get {a b : PmcAccum} (h : ∀ c, a.get c = b.get c) : a = b := by
  obtain ⟨_, _, _, _⟩ := a
  obtain ⟨_, _, _, _⟩ := b
  rw [PmcAccum.mk.injEq]
  exact ⟨h .cycles, h .instructions, h .l1dMisses, h .branchMispreds⟩

end PmcAccum

/-! ## Off-CPU time by reason -/

/-- Why a thread was off-CPU, in wire order. -/
inductive OffCpuReason
  | idle
  | lockWait
  | semaphoreWait
  | ipcWait
  | ioRead
  | ioWrite
  | readiness
  | sleep
  | connectionSetup
  | other
  deriving DecidableEq, Repr

/-- All the reasons, in the order in which a breakdown lists them. -/
def OffCpuReason.all : List OffCpuReason :=
  [.idle, .lockWait, .semaphoreWait, .ipcWait, .ioRead, .ioWrite, .readiness, .sleep,
    .connectionSetup, .other]

/-- Time off a cpu, split by the reason for which the thread was waiting. -/
structure OffCpuBreakdown where
  idleNs : U64 := 0
  lockNs : U64 := 0
  semaphoreNs : U64 := 0
  ipcNs : U64 := 0
  ioReadNs : U64 := 0
  ioWriteNs : U64 := 0
  readinessNs : U64 := 0
  sleepNs : U64 := 0
  connectNs : U64 := 0
  otherNs : U64 := 0
  deriving DecidableEq, Repr, Inhabited

namespace OffCpuBreakdown

/-- The field of a reason. -/
def slot (self : OffCpuBreakdown) : OffCpuReason → U64
  | .idle => self.idleNs
  | .lockWait => self.lockNs
  | .semaphoreWait => self.semaphoreNs
  | .ipcWait => self.ipcNs
  | .ioRead => self.ioReadNs
  | .ioWrite => self.ioWriteNs
  | .readiness => self.readinessNs
  | .sleep => self.sleepNs
  | .connectionSetup => self.connectNs
  | .other => self.otherNs

/-- More time for one reason; the others stay as they are. -/
def addReason (self : OffCpuBreakdown) (reason : OffCpuReason) (durationNs : U64) :
    OffCpuBreakdown :=
  match reason with
  | .idle => { self with idleNs := self.idleNs + durationNs }
  | .lockWait => { self with lockNs := self.lockNs + durationNs }
  | .semaphoreWait => { self with semaphoreNs := self.semaphoreNs + durationNs }
  | .ipcWait => { self with ipcNs := self.ipcNs + durationNs }
  | .ioRead => { self with ioReadNs := self.ioReadNs + durationNs }
  | .ioWrite => { self with ioWriteNs := self.ioWriteNs + durationNs }
  | .readiness => { self with readinessNs := self.readinessNs + durationNs }
  | .sleep => { self with sleepNs := self.sleepNs + durationNs }
  | .connectionSetup => { self with connectNs := self.connectNs + durationNs }
  | .other => { self with otherNs := self.otherNs + durationNs }

/-- Breakdowns of two parts of a tree are added up, reason by reason. -/
def addOther (self other : OffCpuBreakdown) : OffCpuBreakdown where
  idleNs := self.idleNs + other.idleNs
  lockNs := self.lockNs + other.lockNs
  semaphoreNs := self.semaphoreNs + other.semaphoreNs
  ipcNs := self.ipcNs + other.ipcNs
  ioReadNs := self.ioReadNs + other.ioReadNs
  ioWriteNs := self.ioWriteNs + other.ioWriteNs
  readinessNs := self.readinessNs + other.readinessNs
  sleepNs := self.sleepNs + other.sleepNs
  connectNs := self.connectNs + other.connectNs
  otherNs := self.otherNs + other.otherNs

/-- The time over all reasons. -/
def totalNs (self : OffCpuBreakdown) : U64 :=
  self.idleNs + self.lockNs + self.semaphoreNs + self.ipcNs + self.ioReadNs + self.ioWriteNs +
    self.readinessNs + self.sleepNs + self.connectNs + self.otherNs

instance : Zero OffCpuBreakdown := ⟨{}⟩
instance : Add OffCpuBreakdown := ⟨addOther⟩

@[simp] theorem slot_zero (r : OffCpuReason) : (0 : OffCpuBreakdown).slot r = 0 := by
  cases r <;> rfl

@[simp] theorem slot_add (a b : OffCpuBreakdown) (r : OffCpuReason) :
    (a + b).slot r = a.slot r + b.slot r := by
  cases r <;> rfl

theorem ext_slot {a b : OffCpuBreakdown} (h : ∀ r, a.slot r = b.slot r) : a = b := by
  obtain ⟨_, _, _, _, _, _, _, _, _, _⟩ := a
  obtain ⟨_, _, _, _, _, _, _, _, _, _⟩ := b
  rw [OffCpuBreakdown.mk.injEq]
  exact ⟨h .idle, h .lockWait, h .semaphoreWait, h .ipcWait, h .ioRead, h .ioWrite, h .readiness,
    h .sleep, h .connectionSetup, h .other⟩

instance : AddCommMonoid OffCpuBreakdown where
  zero_add a := ext_slot fun r => by rw [slot_add, slot_zero, zero_add]
  add_zero a := ext_slot fun r => by rw [slot_add, slot_zero, add_zero]
  add_comm a b := ext_slot fun r => by rw [slot_add, slot_add, add_comm]
  add_assoc a b c := ext_slot fun r => by simp only [slot_add, add_assoc]
  nsmul := nsmulRec

/-- Reading one slot carries sums to sums. -/
def slotHom (r : OffCpuReason) : OffCpuBreakdown →+ U64 where
  toFun b := b.slot r
  map_zero' := slot_zero r
  map_add' a b := slot_add a b r

/-- Only the slot of the reason changes. -/
theorem slot_addReason (self : OffCpuBreakdown) (reason : OffCpuReason) (d : U64)
    (r : OffCpuReason) :
    (self.addReason reason d).slot r = self.slot r + if r = reason then d else 0 := by
  cases reason <;> cases r <;> simp [addReason, slot]

/-- One reason's time alone. -/
def single (reason : OffCpuReason) (d : U64) : OffCpuBreakdown := (0 : OffCpuBreakdown).addReason reason d

@[simp] theorem slot_single (reason r : OffCpuReason) (d : U64) :
    (single reason d).slot r = if r = reason then d else 0 := by
  rw [single, slot_addReason, slot_zero, zero_add]

theorem addReason_eq (self : OffCpuBreakdown) (reason : OffCpuReason) (d : U64) :
    self.addReason reason d = self + single reason d :=
  ext_slot fun r => by rw [slot_addReason, slot_add, slot_single]

/-- The total over the slots, reason by reason. -/
theorem totalNs_eq_sum (self : OffCpuBreakdown) :
    self.totalNs = (OffCpuReason.all.map self.slot).sum := by
  simp only [OffCpuReason.all, List.map_cons, List.map_nil, List.sum_cons, List.sum_nil, slot,
    totalNs, add_assoc, add_zero]

theorem totalNs_add (a b : OffCpuBreakdown) : (a + b).totalNs = a.totalNs + b.totalNs := by
  rw [totalNs_eq_sum, totalNs_eq_sum, totalNs_eq_sum, ← List.sum_map_add]
  exact congrArg List.sum (List.map_congr_left fun r _ => slot_add a b r)

@[simp] theorem totalNs_zero : (0 : OffCpuBreakdown).totalNs = 0 := by
  simp [totalNs_eq_sum, OffCpuReason.all]

@[simp] theorem totalNs_single (reason : OffCpuReason) (d : U64) :
    (single reason d).totalNs = d := by
  rw [totalNs_eq_sum]
  cases reason <;> simp [OffCpuReason.all]

end OffCpuBreakdown

/-! ## The counters of a node -/

/-- The counters a stack node, an address and a flame group carry. -/
structure Counters where
  onCpuNs : U64 := 0
  offCpu : OffCpuBreakdown := 0
  petSamples : U64 := 0
  offCpuIntervals : U64 := 0
  pmc : PmcAccum := 0
  deriving DecidableEq, Repr, Inhabited

/-- The single counters. -/
inductive Counter
  | onCpuNs
  | offCpu (reason : OffCpuReason)
  | petSamples
  | offCpuIntervals
  | pmc (counter : PmuCounter)
  deriving DecidableEq, Repr

namespace Counters

/-- One of the counters of a node, by its name. -/
def get (self : Counters) : Counter → U64
  | .onCpuNs => self.onCpuNs
  | .offCpu r => self.offCpu.slot r
  | .petSamples => self.petSamples
  | .offCpuIntervals => self.offCpuIntervals
  | .pmc c => self.pmc.get c

instance : Zero Counters := ⟨{}⟩

/-- Counter by counter, as `StackNode::merge` and the flame groups add. -/
instance : Add Counters :=
  ⟨fun a b =>
    { onCpuNs := a.onCpuNs + b.onCpuNs
      offCpu := a.offCpu + b.offCpu
      petSamples := a.petSamples + b.petSamples
      offCpuIntervals := a.offCpuIntervals + b.offCpuIntervals
      pmc := a.pmc + b.pmc }⟩

@[simp] theorem get_zero (k : Counter) : (0 : Counters).get k = 0 := by
  cases k with
  | offCpu r => exact OffCpuBreakdown.slot_zero r
  | pmc c => exact PmcAccum.get_zero c
  | _ => rfl

@[simp] theorem get_add (a b : Counters) (k : Counter) : (a + b).get k = a.get k + b.get k := by
  cases k with
  | offCpu r => exact OffCpuBreakdown.slot_add a.offCpu b.offCpu r
  | pmc c => exact PmcAccum.get_add a.pmc b.pmc c
  | _ => rfl

theorem ext_get {a b : Counters} (h : ∀ k, a.get k = b.get k) : a = b := by
  have hoff : a.offCpu = b.offCpu := OffCpuBreakdown.ext_slot fun r => h (.offCpu r)
  have hpmc : a.pmc = b.pmc := PmcAccum.ext_get fun c => h (.pmc c)
  obtain ⟨_, _, _, _, _⟩ := a
  obtain ⟨_, _, _, _, _⟩ := b
  rw [Counters.mk.injEq]
  exact ⟨h .onCpuNs, hoff, h .petSamples, h .offCpuIntervals, hpmc⟩

instance : AddCommMonoid Counters where
  zero_add a := ext_get fun k => by rw [get_add, get_zero, zero_add]
  add_zero a := ext_get fun k => by rw [get_add, get_zero, add_zero]
  add_comm a b := ext_get fun k => by rw [get_add, get_add, add_comm]
  add_assoc a b c := ext_get fun k => by simp only [get_add, add_assoc]
  nsmul := nsmulRec

/-- Reading one counter carries sums to sums. -/
def getHom (k : Counter) : Counters →+ U64 where
  toFun c := c.get k
  map_zero' := get_zero k
  map_add' a b := get_add a b k

@[simp] theorem getHom_apply (k : Counter) (c : Counters) : getHom k c = c.get k := rfl

/-- What one PET sample credited with `creditNs` adds. -/
def ofSample (creditNs : ℕ) (pmc : PmuSample) : Counters where
  onCpuNs := toU64 creditNs
  petSamples := toU64 1
  pmc := PmcAccum.ofSample pmc

/-- What one off-CPU interval adds. -/
def ofInterval (reason : OffCpuReason) (durationNs : ℕ) : Counters where
  offCpu := OffCpuBreakdown.single reason (toU64 durationNs)
  offCpuIntervals := toU64 1

theorem add_ofSample (c : Counters) (creditNs : ℕ) (pmc : PmuSample) :
    c + ofSample creditNs pmc =
      { c with
        onCpuNs := c.onCpuNs + toU64 creditNs
        petSamples := c.petSamples + toU64 1
        pmc := c.pmc.add pmc } := by
  refine ext_get fun k => ?_
  rw [get_add]
  cases k with
  | offCpu r => exact (congrArg _ (OffCpuBreakdown.slot_zero r)).trans (add_zero _)
  | offCpuIntervals => exact add_zero c.offCpuIntervals
  | pmc m => exact (PmcAccum.get_add c.pmc (PmcAccum.ofSample pmc) m).symm
  | _ => rfl

theorem add_ofInterval (c : Counters) (reason : OffCpuReason) (durationNs : ℕ) :
    c + ofInterval reason durationNs =
      { c with
        offCpu := c.offCpu.addReason reason (toU64 durationNs)
        offCpuIntervals := c.offCpuIntervals + toU64 1 } := by
  refine ext_get fun k => ?_
  rw [get_add]
  cases k with
  | onCpuNs => exact add_zero c.onCpuNs
  | offCpu r =>
      show c.offCpu.slot r + (OffCpuBreakdown.single reason (toU64 durationNs)).slot r =
        (c.offCpu.addReason reason (toU64 durationNs)).slot r
      rw [OffCpuBreakdown.addReason_eq, OffCpuBreakdown.slot_add]
  | petSamples => exact add_zero c.petSamples
  | offCpuIntervals => rfl
  | pmc m => exact (congrArg _ (PmcAccum.get_zero m)).trans (add_zero _)

end Counters

end Stax.Live
