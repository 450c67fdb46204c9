/-
# Stax.StaxdClient.Queues — the client's queues to its parser and to its probe scanner.

Both push their oldest batch out where they are full, and count what is pushed out in atomics that
wrap around.  With the daemon's send queue they are the three queues that drop the oldest, and each
accounts for every record that goes in.
-/
import Stax.Staxd.SendQueue

namespace Stax.StaxdClient

open Stax.Lib Stax.Lib.Machine Stax.Lib.DropOldest Stax.Staxd

/-! ## The counters' arithmetic -/

/-- `update_max`. -/
def updateMax (max value : UInt64) : UInt64 := if value > max then value else max

/-- A length as the counters hold it: `u64::try_from(depth).unwrap_or(u64::MAX)`. -/
def depthToU64 (depth : ℕ) : UInt64 := UInt64.ofNat (min depth u64Max)

/-! ## The queue to the parser -/

/-- A batch of records on its way to the parser, and when it was put into the queue. -/
structure OwnedBatch where
  enqueuedAt : ℕ
  records : List KdBuf
  deriving DecidableEq, Repr

/-- What goes through the queue of the parser. -/
inductive WorkerMsg
  | batch (batch : OwnedBatch)
  deriving DecidableEq, Repr

/-- What is lost with the messages that are dropped. -/
structure ParserDropSummary where
  chunks : UInt64 := 0
  records : UInt64 := 0
  kperfSamples : UInt64 := 0
  deriving DecidableEq, Repr

/-- What is lost with a message: one chunk, and its records. -/
def dropSummary : WorkerMsg → ParserDropSummary
  | .batch batch =>
    { chunks := 1, records := UInt64.ofNat batch.records.length, kperfSamples := 0 }

/-- What the queue of the parser has lost, and how full and how old it has been. -/
structure ParserQueueCounters where
  droppedChunks : UInt64 := 0
  droppedRecords : UInt64 := 0
  droppedKperfSamples : UInt64 := 0
  maxDepth : UInt64 := 0
  maxAgeNs : UInt64 := 0
  deriving DecidableEq, Repr

namespace ParserQueueCounters

/-- A loss is added to the counters; additions wrap, as the code's atomics do. -/
def recordDrop (counters : ParserQueueCounters) (drop : ParserDropSummary) : ParserQueueCounters :=
  { counters with
    droppedChunks := counters.droppedChunks + drop.chunks
    droppedRecords := counters.droppedRecords + drop.records
    droppedKperfSamples := counters.droppedKperfSamples + drop.kperfSamples }

/-- The greatest length of the queue so far. -/
def updateMaxDepth (counters : ParserQueueCounters) (depth : ℕ) : ParserQueueCounters :=
  { counters with maxDepth := updateMax counters.maxDepth (depthToU64 depth) }

end ParserQueueCounters

/-- How many messages may wait for the parser. -/
def workerQueueCapacity : ℕ := 16

/-- The records of a message. -/
def WorkerMsg.records : WorkerMsg → List KdBuf
  | .batch owned => owned.records

/-- `ParserQueue::enqueue_chunk_drop_oldest` of a queue of the capacity. -/
def ParserQueue.enqueueChunkDropOldest (capacity : ℕ) : Policy WorkerMsg ParserQueueCounters where
  capacity := capacity
  discards := fun _ => false
  onDiscard := fun counters _ => counters
  onEvict := fun counters msg => counters.recordDrop (dropSummary msg)
  onSent := ParserQueueCounters.updateMaxDepth

/-! ## The queue to the probe scanner -/

/-- When a batch passed each of its stations. -/
structure KperfProbeTriggerTiming where
  kperfTs : UInt64
  staxdReadStarted : UInt64
  staxdDrained : UInt64
  staxdQueuedForSend : UInt64
  staxdSendStarted : UInt64
  clientReceived : UInt64
  deriving DecidableEq, Repr

/-- A batch of records on its way to the scanner of probes. -/
structure ProbeScannerBatch where
  records : List KdBuf
  timing : KperfProbeTriggerTiming
  deriving DecidableEq, Repr

/-- What the queue of the scanner has lost, and how full it has been. -/
structure ProbeScannerQueueCounters where
  droppedBatches : UInt64 := 0
  droppedRecords : UInt64 := 0
  droppedKperfSamples : UInt64 := 0
  maxDepth : UInt64 := 0
  deriving DecidableEq, Repr

namespace ProbeScannerQueueCounters

/-- A batch that is dropped is counted, with its records. -/
def recordDrop (counters : ProbeScannerQueueCounters) (batch : ProbeScannerBatch) :
    ProbeScannerQueueCounters :=
  { counters with
    droppedBatches := counters.droppedBatches + 1
    droppedRecords := counters.droppedRecords + UInt64.ofNat batch.records.length }

/-- The greatest length of the queue so far. -/
def updateMaxDepth (counters : ProbeScannerQueueCounters) (depth : ℕ) : ProbeScannerQueueCounters :=
  { counters with maxDepth := updateMax counters.maxDepth (depthToU64 depth) }

end ProbeScannerQueueCounters

/-- How many batches may wait for the scanner. -/
def probeScannerQueueCapacity : ℕ := 64

/-- `ProbeScannerQueue::enqueue_batch` of a queue of the capacity. -/
def ProbeScannerQueue.enqueueBatch (capacity : ℕ) :
    Policy ProbeScannerBatch ProbeScannerQueueCounters where
  capacity := capacity
  discards := fun _ => false
  onDiscard := fun counters _ => counters
  onEvict := ProbeScannerQueueCounters.recordDrop
  onSent := ProbeScannerQueueCounters.updateMaxDepth

/-! ## What the counters add up -/

instance instAddCommMonoidUInt64 : AddCommMonoid UInt64 where
  add_assoc := UInt64.add_assoc
  zero_add := UInt64.zero_add
  add_zero := UInt64.add_zero
  add_comm := UInt64.add_comm
  nsmul := nsmulRec

/-- A number as a wrapping counter holds it. -/
def wrap : ℕ →+ UInt64 where
  toFun := UInt64.ofNat
  map_zero' := rfl
  map_add' := UInt64.ofNat_add

theorem wrap_apply (n : ℕ) : wrap n = UInt64.ofNat n := rfl

theorem toNat_wrap (n : ℕ) : (wrap n).toNat = n % 2 ^ 64 := UInt64.toNat_ofNat'

namespace ParserQueue

theorem counts_droppedRecords (capacity : ℕ) :
    Counts (enqueueChunkDropOldest capacity) ParserQueueCounters.droppedRecords wrap
      fun msg => msg.records.length where
  evict := by
    rintro counters ⟨batch⟩
    rfl
  discard := by
    intro counters msg hdiscards
    simp [enqueueChunkDropOldest] at hdiscards
  sent := fun _ _ => rfl

end ParserQueue

namespace ProbeScannerQueue

theorem counts_droppedRecords (capacity : ℕ) :
    Counts (enqueueBatch capacity) ProbeScannerQueueCounters.droppedRecords wrap
      fun batch => batch.records.length where
  evict := fun _ _ => rfl
  discard := by
    intro counters batch hdiscards
    simp [enqueueBatch] at hdiscards
  sent := fun _ _ => rfl

end ProbeScannerQueue

/-! ## The three queues -/

/-- In every run of its producer and its consumer, each of the three queues accounts for every record
handed to it; the daemon's gives up empty batches only, and the client's give up nothing. -/
theorem queues_account {capacity : ℕ} (hcapacity : 1 ≤ capacity) :
    Accounts (BatchSendQueue.enqueueDropOldest capacity) {} (fun drops => drops.droppedRecords.val)
        (fun n => min n u64Max) (fun batch => batch.records.length) ∧
      Accounts (BatchSendQueue.enqueueDropOldest capacity) {}
        (fun drops => drops.droppedEmptyBatches.val) (fun n => min n u64Max)
        (fun batch => if batch.records.isEmpty then 1 else 0) ∧
      Accounts (ParserQueue.enqueueChunkDropOldest capacity) {}
        (fun counters => counters.droppedRecords.toNat) (fun n => n % 2 ^ 64)
        (fun msg => msg.records.length) ∧
      Accounts (ProbeScannerQueue.enqueueBatch capacity) {}
        (fun counters => counters.droppedRecords.toNat) (fun n => n % 2 ^ 64)
        (fun batch => batch.records.length) ∧
      (∀ actions s, Runs (step (BatchSendQueue.enqueueDropOldest capacity)) Any (initial {}) actions s →
        ∀ e ∈ s.discarded, e.batch.records = []) ∧
      (∀ actions s, Runs (step (ParserQueue.enqueueChunkDropOldest capacity)) Any (initial {}) actions s →
        s.discarded = []) ∧
      ∀ actions s, Runs (step (ProbeScannerQueue.enqueueBatch capacity)) Any (initial {}) actions s →
        s.discarded = [] := by
  have hsend := (BatchSendQueue.counts_droppedRecords capacity).accounts
    (rfl : ({} : SendDropStats).droppedRecords = 0) hcapacity Sat.val
  have hempty := (BatchSendQueue.counts_droppedEmptyBatches capacity).accounts
    (rfl : ({} : SendDropStats).droppedEmptyBatches = 0) hcapacity Sat.val
  have hparser := (ParserQueue.counts_droppedRecords capacity).accounts
    (rfl : ({} : ParserQueueCounters).droppedRecords = 0) hcapacity UInt64.toNat
  have hscanner := (ProbeScannerQueue.counts_droppedRecords capacity).accounts
    (rfl : ({} : ProbeScannerQueueCounters).droppedRecords = 0) hcapacity UInt64.toNat
  simp only [toNat_wrap] at hparser hscanner
  refine ⟨hsend, hempty, hparser, hscanner, ?_, ?_, ?_⟩
  · intro actions s hrun e he
    have hdiscards := (hsend.evictor actions s hrun).2 e he
    exact List.isEmpty_iff.mp hdiscards
  · intro actions s hrun
    apply List.eq_nil_iff_forall_not_mem.mpr
    intro e he
    have hdiscards := (hparser.evictor actions s hrun).2 e he
    simp [ParserQueue.enqueueChunkDropOldest] at hdiscards
  · intro actions s hrun
    apply List.eq_nil_iff_forall_not_mem.mpr
    intro e he
    have hdiscards := (hscanner.evictor actions s hrun).2 e he
    simp [ProbeScannerQueue.enqueueBatch] at hdiscards

/-- Two batches into a queue of one, the second of which pushes out the first and is received. -/
def pushedOut {β : Type} (first second : β) : List (Action β) :=
  [.enqueue first, .trySend, .finish, .enqueue second, .trySend, .tryRecv, .trySend, .finish, .receive]

/-- One batch into a queue of one, which then has no room for the other. -/
def givenUp {β : Type} (first second : β) : List (Action β) :=
  [.enqueue first, .trySend, .finish, .enqueue second, .trySend]

/-- Records of which only the number matters. -/
def zeroRecords (n : ℕ) : List KdBuf :=
  List.replicate n
    { timestamp := 0, arg1 := 0, arg2 := 0, arg3 := 0, arg4 := 0, arg5 := 0, debugid := 0, cpuid := 0 }

/-- A batch of the daemon, of which only the number of records matters. -/
def sendBatch (n : ℕ) : KdBufBatch :=
  { records := zeroRecords n
    readStartedMachTicks := 0
    drainedMachTicks := 0
    queuedForSendMachTicks := 0
    sendStartedMachTicks := 0
    drainedAtUnixNs := 0 }

/-- A batch of the scanner, of which only the number of records matters. -/
def scannerBatch (n : ℕ) : ProbeScannerBatch :=
  { records := zeroRecords n
    timing := ⟨0, 0, 0, 0, 0, 0⟩ }

/-- Each queue loses a batch of two records to a batch of one; the daemon's then gives up an empty
batch. -/
theorem queues_account_pushedOut :
    (∃ s, Runs (step (BatchSendQueue.enqueueDropOldest 1)) Any (initial {})
        (pushedOut (sendBatch 2) (sendBatch 1) ++ givenUp (sendBatch 1) (sendBatch 0)) s ∧
      s.discarded.length = 1 ∧ total (fun batch => batch.records.length) s.dropped = 2 ∧
      s.counters.droppedRecords.val =
        min (total (fun batch => batch.records.length) s.dropped) u64Max ∧
      s.counters.droppedEmptyBatches.val =
        min (total (fun batch => if batch.records.isEmpty then 1 else 0) s.dropped) u64Max ∧
      ∀ e ∈ s.discarded, e.batch.records = []) ∧
    (∃ s, Runs (step (ParserQueue.enqueueChunkDropOldest 1)) Any (initial {})
        (pushedOut (.batch ⟨0, zeroRecords 2⟩) (.batch ⟨1, zeroRecords 1⟩)) s ∧
      total (fun msg => msg.records.length) s.dropped = 2 ∧
      s.counters.droppedRecords.toNat =
        total (fun msg => msg.records.length) s.dropped % 2 ^ 64 ∧
      s.received.Sublist s.enqueued ∧ s.discarded = []) ∧
    ∃ s, Runs (step (ProbeScannerQueue.enqueueBatch 1)) Any (initial {})
        (pushedOut (scannerBatch 2) (scannerBatch 1)) s ∧
      total (fun batch => batch.records.length) s.dropped = 2 ∧
      s.counters.droppedRecords.toNat =
        total (fun batch => batch.records.length) s.dropped % 2 ^ 64 ∧
      (∀ pair ∈ s.evicted, pair.1.serial < pair.2.serial) ∧ s.discarded = [] := by
  obtain ⟨hsend, hempty, hparser, hscanner, hgivenUp, hnoMsg, hnoBatch⟩ :=
    queues_account (le_refl 1)
  refine ⟨?_, ?_, ?_⟩
  · have hexists : ∃ s, Runs (step (BatchSendQueue.enqueueDropOldest 1)) Any (initial {})
        (pushedOut (sendBatch 2) (sendBatch 1) ++ givenUp (sendBatch 1) (sendBatch 0)) s ∧
        s.producer = .idle ∧ s.discarded.length = 1 ∧
        total (fun batch => batch.records.length) s.dropped = 2 :=
      exists_runs_of_runIf (by decide +kernel)
    obtain ⟨s, hrun, hidle, hdiscarded, hdropped⟩ := hexists
    exact ⟨s, hrun, hdiscarded, hdropped, (hsend.complete _ s hrun hidle).2.2,
      (hempty.complete _ s hrun hidle).2.2, hgivenUp _ s hrun⟩
  · have hexists : ∃ s, Runs (step (ParserQueue.enqueueChunkDropOldest 1)) Any (initial {})
        (pushedOut (.batch ⟨0, zeroRecords 2⟩) (.batch ⟨1, zeroRecords 1⟩)) s ∧
        s.producer = .idle ∧ total (fun msg => msg.records.length) s.dropped = 2 :=
      exists_runs_of_runIf (by decide +kernel)
    obtain ⟨s, hrun, hidle, hdropped⟩ := hexists
    exact ⟨s, hrun, hdropped, (hparser.complete _ s hrun hidle).2.2, (hparser.ordered _ s hrun).1,
      hnoMsg _ s hrun⟩
  · have hexists : ∃ s, Runs (step (ProbeScannerQueue.enqueueBatch 1)) Any (initial {})
        (pushedOut (scannerBatch 2) (scannerBatch 1)) s ∧
        s.producer = .idle ∧ total (fun batch => batch.records.length) s.dropped = 2 :=
      exists_runs_of_runIf (by decide +kernel)
    obtain ⟨s, hrun, hidle, hdropped⟩ := hexists
    exact ⟨s, hrun, hdropped, (hscanner.complete _ s hrun hidle).2.2, (hscanner.evictor _ s hrun).1,
      hnoBatch _ s hrun⟩

end Stax.StaxdClient
