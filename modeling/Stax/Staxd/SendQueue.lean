/-
# Stax.Staxd.SendQueue — the queue between draining the kernel's buffer and sending to the client.

The drain thread must not wait for the client, so a full queue loses its oldest batch.  An empty
batch only shows that the daemon is alive and does not push anything out: where the queue is full it
is given up itself.
-/
import Stax.Lib.DropOldest
import Stax.Live.Counters

namespace Stax.Staxd

open Stax.Lib Stax.Lib.DropOldest Stax.Live

/-- A batch of the kernel's records on its way to the client, with the times of its stations. -/
structure KdBufBatch where
  records : List KdBuf
  readStartedMachTicks : UInt64
  drainedMachTicks : UInt64
  queuedForSendMachTicks : UInt64
  sendStartedMachTicks : UInt64
  drainedAtUnixNs : UInt64
  deriving DecidableEq, Repr

/-- What the drain thread had to give up, batches of no records counted apart. -/
structure SendDropStats where
  droppedBatches : U64 := 0
  droppedEmptyBatches : U64 := 0
  droppedRecords : U64 := 0
  deriving DecidableEq, Repr

/-- How many batches may wait for the sender. -/
def sendQueueCapacity : ℕ := 256

namespace BatchSendQueue

/-- A batch that is given up is counted, with its records. -/
def recordDrop (drops : SendDropStats) (batch : KdBufBatch) : SendDropStats :=
  if batch.records.isEmpty then
    { drops with droppedEmptyBatches := drops.droppedEmptyBatches + toU64 1 }
  else
    { drops with
      droppedBatches := drops.droppedBatches + toU64 1
      droppedRecords := drops.droppedRecords + toU64 batch.records.length }

/-- `enqueue_drop_oldest` of a queue of the capacity. -/
def enqueueDropOldest (capacity : ℕ) : Policy KdBufBatch SendDropStats where
  capacity := capacity
  discards := fun batch => batch.records.isEmpty
  onDiscard := fun drops _ =>
    { drops with droppedEmptyBatches := drops.droppedEmptyBatches + toU64 1 }
  onEvict := recordDrop
  onSent := fun drops _ => drops

/-! ## What the counters add up -/

theorem counts_droppedRecords (capacity : ℕ) :
    Counts (enqueueDropOldest capacity) SendDropStats.droppedRecords (Sat.ofNatHom u64Max)
      fun batch => batch.records.length where
  evict := by
    intro drops batch
    change (recordDrop drops batch).droppedRecords = _
    rw [recordDrop]
    split_ifs with hempty
    · rw [List.isEmpty_iff.mp hempty, List.length_nil, map_zero, add_zero]
    · rfl
  discard := by
    intro drops batch hempty
    rw [List.isEmpty_iff.mp hempty, List.length_nil, map_zero, add_zero]
    rfl
  sent := fun _ _ => rfl

theorem counts_droppedEmptyBatches (capacity : ℕ) :
    Counts (enqueueDropOldest capacity) SendDropStats.droppedEmptyBatches (Sat.ofNatHom u64Max)
      fun batch => if batch.records.isEmpty then 1 else 0 where
  evict := by
    intro drops batch
    change (recordDrop drops batch).droppedEmptyBatches = _
    rw [recordDrop]
    split_ifs with hempty
    · rfl
    · rw [map_zero, add_zero]
  discard := by
    intro drops batch hdiscards
    have hempty : batch.records.isEmpty = true := hdiscards
    rw [if_pos hempty]
    rfl
  sent := fun _ _ => rfl

end BatchSendQueue

end Stax.Staxd
