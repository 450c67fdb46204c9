/-
# Stax.Live.Aggregator — the per-thread event log and its attribution.

The aggregator keeps two raw streams a thread: PET samples, each a stack seen while the thread ran,
and intervals, which say when it ran and when it was parked.  A query walks both streams together.
Each on-CPU interval's time is shared evenly by the samples that fell inside it, each off-CPU
interval's goes in full to the stack the thread parked on; what is credited is added along a tree of
stacks and in a table of addresses.

A thread's walk is a machine that reads its intervals and keeps the samples its cursor has not
passed yet; it emits a `Charge` for every interval that is counted, and a charge makes the calls of
`credit_on_cpu_to_tree` and `credit_off_cpu_to_tree`.  A `HashMap` is an association list with
distinct keys; where the order of its keys matters it is a parameter.
-/
import Stax.Live.Classify
import Stax.Lib.PathTrie
import Stax.Lib.Transducer

namespace Stax.Live

open Stax.Lib

/-- A code address. -/
abbrev Addr := UInt64

/-- A thread id. -/
abbrev Tid := UInt32

/-! ## Symbols -/

/-- The source languages that the demangler tells apart; `unknown` is what an unresolved address
has. -/
inductive Language
  | rust
  | cpp
  | swift
  | objC
  | objCpp
  | c
  | unknown
  deriving DecidableEq, Repr

/-- The name under which a language is sent, and by which rows of one function are told apart. -/
def Language.asStr : Language → String
  | .rust => "rust"
  | .cpp => "cpp"
  | .swift => "swift"
  | .objC => "objc"
  | .objCpp => "objcpp"
  | .c => "c"
  | .unknown => "unknown"

theorem Language.asStr_injective : Function.Injective Language.asStr := by
  intro a b h
  cases a <;> cases b <;> first | rfl | exact absurd h (by decide)

/-- What the registry says of an address: its function and binary, whether the binary is the main
one, and the language. -/
structure ResolvedSymbol where
  functionName : String
  binary : String
  isMain : Bool
  language : Language
  deriving DecidableEq, Repr

/-- A registry by what `lookup_symbol` answers. -/
abbrev BinaryRegistry := Addr → Option ResolvedSymbol

/-! ## The event log -/

/-- One PET stack walk; stacks are leaf first. -/
structure PetSample where
  timestampNs : ℕ
  stack : List Addr
  kernelStack : List Addr := []
  pmc : PmuSample := {}
  deriving DecidableEq, Repr

/-- What a thread was doing between two switches. Off a cpu, the stack it left with says why it
waits, and the waker's stack is there when the wakeup was seen. -/
inductive IntervalKind
  | onCpu
  | offCpu (stack : List Addr) (wakerTid : Option Tid) (wakerUserStack : Option (List Addr))
  deriving DecidableEq, Repr

/-- One stretch on or off a CPU; `endNs = 0` while it is still open. -/
structure RawInterval where
  startNs : ℕ
  endNs : ℕ
  kind : IntervalKind
  deriving DecidableEq, Repr

/-- One thread has made another runnable, with both stacks of the waker as they were then. -/
structure RawWakeup where
  timestampNs : ℕ
  wakerTid : Tid
  wakerUserStack : List Addr
  wakerKernelStack : List Addr
  deriving DecidableEq, Repr

/-- What is kept of one thread: its samples, its intervals and the wakeups it has received, each a
bounded buffer. -/
structure ThreadStats where
  petSamples : List PetSample := []
  intervals : List RawInterval := []
  wakeups : List RawWakeup := []
  deriving DecidableEq, Repr

/-- All that the live view keeps of a session. Times are those of the target's clock, and ranges of
time count from `sessionStartNs`, the time of the first event that came in. -/
structure Aggregator where
  threads : AList (fun _ : Tid => ThreadStats) := ∅
  sessionStartNs : Option ℕ := none
  lastEventNs : Option ℕ := none

/-- How many events of each kind are kept of a thread; the oldest give way to new ones. -/
def maxEventsPerThread : ℕ := 100000

/-- Appends to a queue, dropping the oldest entry when it is full. -/
def pushBounded {α : Type} (queue : List α) (a : α) : List α :=
  (if maxEventsPerThread ≤ queue.length then queue.tail else queue) ++ [a]

namespace Aggregator

/-- The first event other than at time zero starts the session, and the latest one ends it. -/
def noteTimestamp (self : Aggregator) (ts : ℕ) : Aggregator :=
  if ts = 0 then self
  else
    { self with
      sessionStartNs := some (self.sessionStartNs.getD ts)
      lastEventNs := some (match self.lastEventNs with
        | some prev => max prev ts
        | none => ts) }

/-- Changes a thread's streams, the thread added first where it is new. -/
def modifyThread (self : Aggregator) (tid : Tid) (f : ThreadStats → ThreadStats) : Aggregator :=
  { self with threads := self.threads.insert tid (f ((self.threads.lookup tid).getD {})) }

/-- A sample is noted at its time and pushed into the buffer of its thread. -/
def recordPetSample (self : Aggregator) (tid : Tid) (sample : PetSample) : Aggregator :=
  (self.noteTimestamp sample.timestampNs).modifyThread tid fun stats =>
    { stats with petSamples := pushBounded stats.petSamples sample }

/-- An interval is noted at both its ends and pushed into the buffer of its thread. -/
def recordInterval (self : Aggregator) (tid : Tid) (interval : RawInterval) : Aggregator :=
  let self := self.noteTimestamp interval.startNs
  -- an open interval has no end to note, and zero is never noted
  let self := self.noteTimestamp interval.endNs
  self.modifyThread tid fun stats =>
    { stats with intervals := pushBounded stats.intervals interval }

/-- A wakeup is noted at its time and pushed into the buffer of the thread that was woken. -/
def recordWakeup (self : Aggregator) (wakeeTid : Tid) (wakeup : RawWakeup) : Aggregator :=
  (self.noteTimestamp wakeup.timestampNs).modifyThread wakeeTid fun stats =>
    { stats with wakeups := pushBounded stats.wakeups wakeup }

/-- One call that records an event. -/
inductive Event
  | petSample (tid : Tid) (sample : PetSample)
  | interval (tid : Tid) (interval : RawInterval)
  | wakeup (wakeeTid : Tid) (wakeup : RawWakeup)
  deriving DecidableEq

/-- What a sink does with an event of the recorder, by its kind. -/
def record (self : Aggregator) : Event → Aggregator
  | .petSample tid sample => self.recordPetSample tid sample
  | .interval tid interval => self.recordInterval tid interval
  | .wakeup wakeeTid wakeup => self.recordWakeup wakeeTid wakeup

/-- The aggregator after an event log. -/
def replay (log : List Event) : Aggregator := log.foldl record {}

end Aggregator

/-! ## The aggregation -/

/-- A node of the stack tree.  Its `children` map addresses to nodes: an entry of the trie is the
address and the child's counters, over the child's own children. -/
structure StackNode where
  counters : Counters := 0
  children : Trie Addr Counters := []

namespace StackNode

/-- Two trees over one another: counters add up where both have a node, and every child of either
stays. -/
def merge (self other : StackNode) : StackNode where
  counters := self.counters + other.counters
  children := Trie.merge self.children other.children

/-- Changes the counters of every node on the way down `path`. -/
def creditPath (self : StackNode) (credit : Counters → Counters) (path : List Addr) : StackNode :=
  { self with children := Trie.adjust credit path self.children }

end StackNode

/-- An address's counters as a leaf (`self`) and anywhere on the stack (`total`). -/
structure AddressStats where
  self : Counters := 0
  total : Counters := 0
  deriving DecidableEq, Repr

/-- The statistics of every address that some stack went through, the flat side of an aggregation.
-/
abbrev ByAddress := AList (fun _ : Addr => AddressStats)

/-- `by_address.entry(addr).or_default()`, changed by `f`. -/
def ByAddress.modify (table : ByAddress) (addr : Addr) (f : AddressStats → AddressStats) :
    ByAddress :=
  table.insert addr (f ((table.lookup addr).getD {}))

/-- One pass over the recorded events: the tree of stacks, the table of addresses, and totals that
also count time without a stack. -/
structure Aggregation where
  flameRoot : StackNode := {}
  byAddress : ByAddress := ∅
  totalOnCpuNs : U64 := 0
  totalOffCpu : OffCpuBreakdown := 0

namespace Aggregation

/-- The total time off a cpu, over every reason. -/
def totalOffCpuNs (self : Aggregation) : U64 := self.totalOffCpu.totalNs

/-- The loop over a stack that credits each address once; `seen` is the `SmallSet`. -/
def creditTotals (credit : Counters → Counters) : List Addr → List Addr → ByAddress → ByAddress
  | _, [], table => table
  | seen, addr :: stack, table =>
    if addr ∈ seen then creditTotals credit seen stack table
    else creditTotals credit (seen ++ [addr]) stack
      (table.modify addr fun s => { s with total := credit s.total })

/-- Walks a leaf-first stack: the leaf's own counters, each address's totals once, and every node
from the outermost frame inwards are changed by `credit`. -/
def creditToTree (self : Aggregation) (credit : Counters → Counters) (stack : List Addr) :
    Aggregation :=
  match stack with
  | [] => self
  | leaf :: _ =>
    { self with
      byAddress := creditTotals credit [] stack
        (self.byAddress.modify leaf fun s => { s with self := credit s.self })
      flameRoot := self.flameRoot.creditPath credit stack.reverse }

/-- A sample is credited its share of an interval, its own count and its performance counters, along
its stack. -/
def creditOnCpuToTree (self : Aggregation) (stack : List Addr) (creditNs : ℕ) (pmc : PmuSample) :
    Aggregation :=
  self.creditToTree
    (fun c => { c with
      onCpuNs := c.onCpuNs + toU64 creditNs
      petSamples := c.petSamples + toU64 1
      pmc := c.pmc.add pmc })
    stack

/-- A wait is credited its duration under its reason, and its own count, along the stack the thread
left with. -/
def creditOffCpuToTree (self : Aggregation) (stack : List Addr) (reason : OffCpuReason)
    (durationNs : ℕ) : Aggregation :=
  self.creditToTree
    (fun c => { c with
      offCpu := c.offCpu.addReason reason (toU64 durationNs)
      offCpuIntervals := c.offCpuIntervals + toU64 1 })
    stack

end Aggregation

/-! ## The walk of one thread -/

/-- What a predicate decides on. -/
inductive EventCtx
  | petSample (tid : Tid) (sample : PetSample)
  | interval (tid : Tid) (interval : RawInterval)

/-- An interval that counts: an on-CPU duration with each matching sample's share of it, or an
off-CPU duration with its reason and stack. -/
inductive Charge
  | onCpu (durationNs creditNs : ℕ) (matching : List PetSample)
  | offCpu (durationNs : ℕ) (reason : OffCpuReason) (stack : List Addr)
  deriving DecidableEq, Repr

/-- What one interval does to the aggregation once its share and its samples are known. -/
def Aggregation.charge (self : Aggregation) : Charge → Aggregation
  | .onCpu durationNs creditNs matching =>
    matching.foldl (fun agg s => agg.creditOnCpuToTree s.stack creditNs s.pmc)
      { self with totalOnCpuNs := self.totalOnCpuNs + toU64 durationNs }
  | .offCpu durationNs reason stack =>
    Aggregation.creditOffCpuToTree
      { self with totalOffCpu := self.totalOffCpu.addReason reason (toU64 durationNs) }
      stack reason durationNs

/-- Where an interval ends: an open one at the most recent event. -/
def RawInterval.endAt (self : RawInterval) (now : ℕ) : ℕ :=
  if self.endNs = 0 then max now self.startNs else self.endNs

/-- How long an interval has lasted at a moment; one that is still open lasts until then. -/
def RawInterval.durationAt (self : RawInterval) (now : ℕ) : ℕ := self.endAt now - self.startNs

/-- Why a thread parked on `stack`, by the name of its leaf function. -/
def offCpuReasonOf (binaries : BinaryRegistry) (stack : List Addr) : OffCpuReason :=
  classifyOffcpu ((stack.head?.bind binaries).map (·.functionName))

/-- The on-CPU interval's charge, given its samples that pass the predicate. -/
def chargeOnCpu (durationNs : ℕ) (matching : List PetSample) : List Charge :=
  if matching = [] then []
  else if durationNs / matching.length = 0 then []
  else [.onCpu durationNs (durationNs / matching.length) matching]

/-- One turn of the loop over a thread's intervals.  `pending` are the samples from the cursor on:
those that end before an on-CPU interval starts are passed for good, those inside it are only
looked at. -/
def attributeInterval (binaries : BinaryRegistry) (predicate : EventCtx → Bool) (now : ℕ)
    (tid : Tid) (pending : List PetSample) (interval : RawInterval) :
    List PetSample × List Charge :=
  if interval.durationAt now = 0 then (pending, [])
  else
    match interval.kind with
    | .onCpu =>
      let pending := pending.dropWhile (·.timestampNs < interval.startNs)
      let inside := pending.takeWhile (·.timestampNs < interval.endAt now)
      (pending, chargeOnCpu (interval.durationAt now)
        (inside.filter fun s => predicate (.petSample tid s)))
    | .offCpu stack _ _ =>
      if predicate (.interval tid interval) then
        (pending, [.offCpu (interval.durationAt now) (offCpuReasonOf binaries stack) stack])
      else (pending, [])

/-- The walk over one thread's intervals. -/
def attribution (binaries : BinaryRegistry) (predicate : EventCtx → Bool) (now : ℕ) (tid : Tid) :
    Transducer (List PetSample) RawInterval Charge where
  step := attributeInterval binaries predicate now tid

namespace Aggregator

/-- The `now` of a query. -/
def now (self : Aggregator) : ℕ := self.lastEventNs.getD 0

/-- Everything charged for one thread. -/
def threadCharges (self : Aggregator) (binaries : BinaryRegistry) (predicate : EventCtx → Bool)
    (tid : Tid) : List Charge :=
  match self.threads.lookup tid with
  | none => []
  | some stats =>
    (attribution binaries predicate self.now tid).outputs stats.petSamples stats.intervals

/-- Everything charged, thread after thread. -/
def charges (self : Aggregator) (binaries : BinaryRegistry) (predicate : EventCtx → Bool)
    (tids : List Tid) : List Charge :=
  tids.flatMap (self.threadCharges binaries predicate)

/-- The aggregation over the given threads in the given order. -/
def aggregateOver (self : Aggregator) (tids : List Tid) (binaries : BinaryRegistry)
    (predicate : EventCtx → Bool) : Aggregation :=
  (self.charges binaries predicate tids).foldl Aggregation.charge {}

/-- The threads a query selects. -/
def selected (self : Aggregator) : Option Tid → List Tid
  | some tid => if tid ∈ self.threads then [tid] else []
  | none => self.threads.keys

/-- Everything that passes the predicate, of one thread or of all, in one pass over the kept events.
-/
def aggregate (self : Aggregator) (tid : Option Tid) (binaries : BinaryRegistry)
    (predicate : EventCtx → Bool) : Aggregation :=
  self.aggregateOver (self.selected tid) binaries predicate

end Aggregator

/-- The merged tree of several aggregations. -/
def mergedFlameRoot : List Aggregation → StackNode
  | [] => {}
  | first :: aggs => aggs.foldl (fun out a => out.merge a.flameRoot) first.flameRoot

end Stax.Live
