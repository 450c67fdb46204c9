/-
# Stax.StaxdClient.Worker — the parser worker's loop and the flag that makes it drop its backlog.

The worker looks at the flag at the top of its loop, again with a batch in hand, and once more before
it finishes.  Where it finds the flag set it empties the queue, counts what it took out, and leaves.
The producer, whoever sets the flag and the worker take their steps in any order; receiving, looking
at the flag and each `try_recv` of the draining are steps of their own.
-/
import Stax.StaxdClient.Queues

namespace Stax.StaxdClient

open Stax.Lib Stax.Lib.Machine Stax.Lib.DropOldest

/-! ## What is drained is summed up -/

/-- `u64::saturating_add`. -/
def saturatingAdd (a b : UInt64) : UInt64 := UInt64.ofNat (min (a.toNat + b.toNat) u64Max)

namespace ParserDropSummary

/-- Two losses taken together; additions saturate. -/
def add (self other : ParserDropSummary) : ParserDropSummary where
  chunks := saturatingAdd self.chunks other.chunks
  records := saturatingAdd self.records other.records
  kperfSamples := saturatingAdd self.kperfSamples other.kperfSamples

/-- Nothing was lost. -/
def isEmpty (self : ParserDropSummary) : Bool :=
  self.records == 0 && self.chunks == 0 && self.kperfSamples == 0

end ParserDropSummary

/-- The greatest time that a message has waited in the queue. -/
def ParserQueueCounters.updateMaxAge (counters : ParserQueueCounters) (ageNs : ℕ) :
    ParserQueueCounters :=
  { counters with maxAgeNs := updateMax counters.maxAgeNs (UInt64.ofNat ageNs) }

/-! ## The worker -/

/-- The worker's calls of the pipeline. -/
inductive PipelineCall
  | processRecords (e : Entry WorkerMsg)
  | tick
  | finish
  deriving DecidableEq, Repr

/-- The message that a call hands to the pipeline. -/
def PipelineCall.processed? : PipelineCall → Option (Entry WorkerMsg)
  | .processRecords e => some e
  | .tick | .finish => none

/-- Where in `worker_thread` the worker stands. -/
inductive WorkerLoop
  | check
  | receive
  | recheck (e : Entry WorkerMsg)
  | process (e : Entry WorkerMsg)
  | tick
  | drain (summary : ParserDropSummary)
  | beforeFinish
  | finish
  | left
  deriving DecidableEq, Repr

/-- The queue of the parser and its worker, with all the calls that the pipeline has had. -/
structure ParserWorker where
  queue : State WorkerMsg ParserQueueCounters := initial {}
  /-- The sender is dropped. -/
  closed : Bool := false
  abortBacklog : Bool := false
  loop : WorkerLoop := .check
  calls : List PipelineCall := []
  /-- The batches that the draining took out. -/
  drained : List (Entry WorkerMsg) := []
  /-- The batches in hand when the second look found the flag. -/
  putAside : List (Entry WorkerMsg) := []

/-- What the sender of the queue does, and the steps of the worker. -/
inductive WorkerAction
  | producer (action : Action WorkerMsg)
  | dropQueue
  | abort
  | worker (nowNs : ℕ)
  deriving DecidableEq, Repr

namespace ParserWorker

/-- The queue after its oldest batch was received. -/
def popped (queue : State WorkerMsg ParserQueueCounters) (e : Entry WorkerMsg)
    (rest : List (Entry WorkerMsg)) : State WorkerMsg ParserQueueCounters :=
  { queue with queue := rest, received := queue.received ++ [e] }

/-- The next step of `worker_thread`. -/
def workerStep (s : ParserWorker) (nowNs : ℕ) : Option ParserWorker :=
  match s.loop with
  | .check => some { s with loop := if s.abortBacklog then .drain {} else .receive }
  | .receive =>
    match s.queue.queue with
    | e :: rest => some { s with queue := popped s.queue e rest, loop := .recheck e }
    | [] => some { s with loop := if s.closed then .beforeFinish else .tick }
  | .recheck e =>
    if s.abortBacklog then some { s with loop := .drain {}, putAside := s.putAside ++ [e] }
    else some { s with loop := .process e }
  | .process e =>
    match e.batch with
    | .batch batch =>
      some { s with
        queue := { s.queue with
          counters := s.queue.counters.updateMaxAge (nowNs - batch.enqueuedAt) }
        calls := s.calls ++ [.processRecords e]
        loop := .tick }
  | .tick => some { s with calls := s.calls ++ [.tick], loop := .check }
  | .drain summary =>
    match s.queue.queue with
    | e :: rest =>
      some { s with
        queue := popped s.queue e rest
        drained := s.drained ++ [e]
        loop := .drain (summary.add (dropSummary e.batch)) }
    | [] =>
      some { s with
        queue := { s.queue with
          counters :=
            if summary.isEmpty then s.queue.counters else s.queue.counters.recordDrop summary }
        loop := .left }
  | .beforeFinish => some { s with loop := if s.abortBacklog then .drain {} else .finish }
  | .finish => some { s with calls := s.calls ++ [.finish], loop := .left }
  | .left => none

variable (capacity : ℕ)

/-- What an action does, where it can happen at all. -/
def step (s : ParserWorker) : WorkerAction → Option ParserWorker
  | .producer .receive => none
  | .producer action =>
    if s.closed then none
    else
      (DropOldest.step (ParserQueue.enqueueChunkDropOldest capacity) s.queue action).map
        fun queue => { s with queue := queue }
  | .dropQueue =>
    if s.closed then none
    else if s.queue.producer = .idle then some { s with closed := true } else none
  | .abort => some { s with abortBacklog := true }
  | .worker nowNs => s.workerStep nowNs

/-! ## What a step can do -/

end ParserWorker

namespace WorkerLoop

/-- The batch in hand. -/
def inHand : WorkerLoop → List (Entry WorkerMsg)
  | .recheck e | .process e => [e]
  | _ => []

/-- The worker neither drains nor has left. -/
def isRunning : WorkerLoop → Bool
  | .drain _ | .left => false
  | _ => true

/-- Whoever stands here has not drained anything yet, or is done. -/
def isFresh : WorkerLoop → Bool
  | .drain summary => summary = {}
  | _ => true

end WorkerLoop

namespace ParserWorker

variable {capacity : ℕ} {s s' : ParserWorker} {action : WorkerAction} {actions : List WorkerAction}

/-- The batches that went through the pipeline. -/
def processed (s : ParserWorker) : List (Entry WorkerMsg) :=
  s.calls.filterMap PipelineCall.processed?

/-- A step of the worker that moves no batch. -/
def Moves (s s' : ParserWorker) : Prop :=
  ∃ loop calls, s.loop.isRunning ∧ (∀ e, s.loop = .recheck e → s.abortBacklog = false) ∧
    loop.isFresh ∧ loop.inHand = s.loop.inHand ∧
    calls.filterMap PipelineCall.processed? = [] ∧
    s' = { s with loop := loop, calls := s.calls ++ calls }

theorem moves_to {loop : WorkerLoop} (hrunning : s.loop.isRunning)
    (habort : ∀ e, s.loop = .recheck e → s.abortBacklog = false) (hfresh : loop.isFresh)
    (hhand : loop.inHand = s.loop.inHand) : Moves s { s with loop := loop } :=
  ⟨loop, [], hrunning, habort, hfresh, hhand, rfl, by rw [List.append_nil]⟩

/-- All that the worker's step can do, with where it stands. -/
theorem workerStep_cases {nowNs : ℕ} (h : s.workerStep nowNs = some s') :
    Moves s s' ∨
      (∃ e rest, s.loop = .receive ∧ s.queue.queue = e :: rest ∧
        s' = { s with queue := popped s.queue e rest, loop := .recheck e }) ∨
      (∃ e, s.loop = .recheck e ∧ s.abortBacklog ∧
        s' = { s with loop := .drain {}, putAside := s.putAside ++ [e] }) ∨
      (∃ e ageNs, s.loop = .process e ∧
        s' = { s with
          queue := { s.queue with counters := s.queue.counters.updateMaxAge ageNs }
          calls := s.calls ++ [.processRecords e]
          loop := .tick }) ∨
      (∃ summary e rest, s.loop = .drain summary ∧ s.queue.queue = e :: rest ∧
        s' = { s with
          queue := popped s.queue e rest
          drained := s.drained ++ [e]
          loop := .drain (summary.add (dropSummary e.batch)) }) ∨
      ∃ summary, s.loop = .drain summary ∧ s.queue.queue = [] ∧
        s' = { s with
          queue := { s.queue with
            counters :=
              if summary.isEmpty then s.queue.counters else s.queue.counters.recordDrop summary }
          loop := .left } := by
  -- one case for each place in the loop; most only move on
  cases hloop : s.loop with
  | check =>
      simp only [workerStep, hloop, Option.some_inj] at h
      subst h
      refine Or.inl (moves_to ?_ ?_ ?_ ?_)
      · rw [hloop]
        rfl
      · simp [hloop]
      · split_ifs <;> rfl
      · rw [hloop]
        split_ifs <;> rfl
  | receive =>
      simp only [workerStep, hloop] at h
      split at h
      · rename_i e rest hqueue
        exact Or.inr (Or.inl ⟨e, rest, rfl, hqueue, (Option.some_inj.mp h).symm⟩)
      · obtain rfl := Option.some_inj.mp h
        refine Or.inl (moves_to ?_ ?_ ?_ ?_)
        · rw [hloop]
          rfl
        · simp [hloop]
        · split_ifs <;> rfl
        · rw [hloop]
          split_ifs <;> rfl
  | recheck e =>
      simp only [workerStep, hloop] at h
      split_ifs at h with habort
      · exact Or.inr (Or.inr (Or.inl ⟨e, rfl, habort, (Option.some_inj.mp h).symm⟩))
      · obtain rfl := Option.some_inj.mp h
        refine Or.inl (moves_to ?_ (fun _ _ => Bool.eq_false_of_not_eq_true habort) rfl ?_)
        · rw [hloop]
          rfl
        · rw [hloop]
          rfl
  | process e =>
      simp only [workerStep, hloop, Option.some_inj] at h
      exact Or.inr (Or.inr (Or.inr (Or.inl ⟨e, _, rfl, h.symm⟩)))
  | tick =>
      simp only [workerStep, hloop, Option.some_inj] at h
      refine Or.inl ⟨.check, [.tick], ?_, ?_, rfl, ?_, rfl, h.symm⟩
      · rw [hloop]
        rfl
      · simp [hloop]
      · rw [hloop]
        rfl
  | drain summary =>
      simp only [workerStep, hloop] at h
      split at h
      · rename_i e rest hqueue
        exact Or.inr (Or.inr (Or.inr (Or.inr (Or.inl
          ⟨summary, e, rest, rfl, hqueue, (Option.some_inj.mp h).symm⟩))))
      · rename_i hqueue
        exact Or.inr (Or.inr (Or.inr (Or.inr (Or.inr
          ⟨summary, rfl, hqueue, (Option.some_inj.mp h).symm⟩))))
  | beforeFinish =>
      simp only [workerStep, hloop, Option.some_inj] at h
      subst h
      refine Or.inl (moves_to ?_ ?_ ?_ ?_)
      · rw [hloop]
        rfl
      · simp [hloop]
      · split_ifs <;> rfl
      · rw [hloop]
        split_ifs <;> rfl
  | finish =>
      simp only [workerStep, hloop, Option.some_inj] at h
      refine Or.inl ⟨.left, [.finish], ?_, ?_, rfl, ?_, rfl, h.symm⟩
      · rw [hloop]
        rfl
      · simp [hloop]
      · rw [hloop]
        rfl
  | left => simp [workerStep, hloop] at h

/-- All that a step can do: the producer's with the queue, the end of the sender, or the worker's.
-/
theorem step_cases (h : step capacity s action = some s') :
    (∃ queueAction queue, action = .producer queueAction ∧ queueAction ≠ .receive ∧
        DropOldest.step (ParserQueue.enqueueChunkDropOldest capacity) s.queue queueAction =
          some queue ∧
        s' = { s with queue := queue }) ∨
      (∃ closed abortBacklog, (action = .dropQueue ∨ action = .abort) ∧
        s' = { s with closed := closed, abortBacklog := abortBacklog }) ∨
      ∃ nowNs, action = .worker nowNs ∧ s.workerStep nowNs = some s' := by
  cases action with
  | producer queueAction =>
      apply Or.inl
      have hreceive : queueAction ≠ .receive := by
        rintro rfl
        simp [step] at h
      have hstep : (if s.closed then none else
          (DropOldest.step (ParserQueue.enqueueChunkDropOldest capacity) s.queue queueAction).map
            fun queue => { s with queue := queue }) = some s' := by
        cases queueAction <;> first | exact h | exact absurd rfl hreceive
      split_ifs at hstep
      obtain ⟨queue, hqueue, hs'⟩ := Option.map_eq_some_iff.mp hstep
      exact ⟨queueAction, queue, rfl, hreceive, hqueue, hs'.symm⟩
  | dropQueue =>
      simp only [step] at h
      split_ifs at h
      exact Or.inr (Or.inl ⟨true, s.abortBacklog, Or.inl rfl, (Option.some_inj.mp h).symm⟩)
  | abort => exact Or.inr (Or.inl ⟨s.closed, true, Or.inr rfl, (Option.some_inj.mp h).symm⟩)
  | worker nowNs => exact Or.inr (Or.inr ⟨nowNs, rfl, h⟩)

/-! ## Where the batches are -/

/-- What the worker received is processed, in its hands, put aside or drained. -/
structure Parted (capacity : ℕ) (s : ParserWorker) : Prop where
  queue : DropOldest.Accounted (ParserQueue.enqueueChunkDropOldest capacity) s.queue
  received : s.queue.received.Perm (s.processed ++ s.loop.inHand ++ s.putAside ++ s.drained)

theorem accounted_popped {policy : Policy WorkerMsg ParserQueueCounters}
    {queue : State WorkerMsg ParserQueueCounters} {e : Entry WorkerMsg}
    {rest : List (Entry WorkerMsg)} (h : DropOldest.Accounted policy queue)
    (hqueue : queue.queue = e :: rest) : DropOldest.Accounted policy (popped queue e rest) := by
  have hstep : DropOldest.step policy queue .receive = some (popped queue e rest) := by
    simp only [DropOldest.step, hqueue, popped]
  exact h.step hstep

theorem received_step {policy : Policy WorkerMsg ParserQueueCounters}
    {queue queue' : State WorkerMsg ParserQueueCounters} {queueAction : Action WorkerMsg}
    (hreceive : queueAction ≠ .receive)
    (h : DropOldest.step policy queue queueAction = some queue') :
    queue'.received = queue.received := by
  rcases DropOldest.step_cases h with ⟨batch, -, -, rfl⟩ | ⟨e, -, -, -, rfl⟩ |
    ⟨e, -, -, -, -, rfl⟩ | ⟨e, -, -, -, rfl⟩ | ⟨e, -, -, -, rfl⟩ | ⟨e, oldest, rest, -, -, -, rfl⟩ |
    ⟨e, -, -, rfl⟩ | ⟨oldest, rest, rfl, -, -⟩
  all_goals first | rfl | exact absurd rfl hreceive

/-- Every batch received was processed, is in hand, was put aside or was drained. -/
theorem Parted.step (h : Parted capacity s) (hstep : step capacity s action = some s') :
    Parted capacity s' := by
  rcases step_cases hstep with ⟨queueAction, queue, -, hreceive, hqueue, rfl⟩ | ⟨_, _, -, rfl⟩ |
    ⟨nowNs, -, hworker⟩
  · refine ⟨h.queue.step hqueue, ?_⟩
    change queue.received.Perm _
    rw [received_step hreceive hqueue]
    exact h.received
  · exact ⟨h.queue, h.received⟩
  · have hreceived := h.received
    rcases workerStep_cases hworker with ⟨loop, calls, -, -, -, hhand, hcalls, rfl⟩ |
      ⟨e, rest, hloop, hqueue, rfl⟩ | ⟨e, hloop, -, rfl⟩ | ⟨e, ageNs, hloop, rfl⟩ |
      ⟨summary, e, rest, hloop, hqueue, rfl⟩ | ⟨summary, hloop, hqueue, rfl⟩
    · refine ⟨h.queue, ?_⟩
      change s.queue.received.Perm
        ((s.calls ++ calls).filterMap _ ++ loop.inHand ++ s.putAside ++ s.drained)
      rw [List.filterMap_append, hcalls, List.append_nil, hhand]
      exact hreceived
    · refine ⟨accounted_popped h.queue hqueue, ?_⟩
      change (s.queue.received ++ [e]).Perm (s.processed ++ [e] ++ s.putAside ++ s.drained)
      rw [hloop] at hreceived
      change s.queue.received.Perm (s.processed ++ [] ++ s.putAside ++ s.drained) at hreceived
      rw [List.append_nil, List.append_assoc] at hreceived
      -- the batch just received stands last, and is to stand behind those processed
      have hmoved := perm_move e s.processed (s.putAside ++ s.drained) []
      rw [List.append_nil, List.nil_append] at hmoved
      refine (hreceived.append_right [e]).trans (hmoved.symm.trans ?_)
      simp
    · refine ⟨h.queue, ?_⟩
      change s.queue.received.Perm (s.processed ++ [] ++ (s.putAside ++ [e]) ++ s.drained)
      rw [hloop] at hreceived
      change s.queue.received.Perm (s.processed ++ [e] ++ s.putAside ++ s.drained) at hreceived
      -- the batch in hand goes behind those put aside
      have hmoved := perm_move e s.processed s.putAside []
      rw [List.append_nil, List.nil_append] at hmoved
      refine hreceived.trans ?_
      rw [List.append_nil, List.append_assoc s.processed, List.singleton_append]
      refine (hmoved.append_right s.drained).trans ?_
      rw [List.append_assoc s.processed]
    -- counters are not part of what is accounted for
    · have hcounters : DropOldest.Accounted (ParserQueue.enqueueChunkDropOldest capacity)
          { s.queue with counters := s.queue.counters.updateMaxAge ageNs } := { h.queue with }
      refine ⟨hcounters, ?_⟩
      change s.queue.received.Perm
        ((s.calls ++ [PipelineCall.processRecords e]).filterMap _ ++ [] ++ s.putAside ++ s.drained)
      rw [hloop] at hreceived
      rw [List.filterMap_append, List.append_nil]
      exact hreceived
    · refine ⟨accounted_popped h.queue hqueue, ?_⟩
      change (s.queue.received ++ [e]).Perm (s.processed ++ [] ++ s.putAside ++ (s.drained ++ [e]))
      rw [hloop] at hreceived
      rw [← List.append_assoc]
      exact hreceived.append_right [e]
    · have hcounters : DropOldest.Accounted (ParserQueue.enqueueChunkDropOldest capacity)
          { s.queue with
            counters :=
              if summary.isEmpty then s.queue.counters
              else s.queue.counters.recordDrop summary } := { h.queue with }
      refine ⟨hcounters, ?_⟩
      rw [hloop] at hreceived
      exact hreceived

theorem parted_of_runs (h : Runs (step capacity) Any {} actions s) : Parted capacity s :=
  h.invariant (fun _ _ _ hparted _ hstep => hparted.step hstep)
    ⟨accounted_initial _, List.Perm.refl []⟩

/-! ## What is counted -/

/-- How many records some messages have. -/
def recordsIn (entries : List (Entry WorkerMsg)) : ℕ :=
  total (fun msg => msg.records.length) entries

theorem recordsIn_append (l l' : List (Entry WorkerMsg)) :
    recordsIn (l ++ l') = recordsIn l + recordsIn l' :=
  total_append _ l l'

theorem recordsIn_singleton (e : Entry WorkerMsg) : recordsIn [e] = e.batch.records.length := by
  simp [recordsIn, total]

theorem recordsIn_eq_zero {entries : List (Entry WorkerMsg)} :
    recordsIn entries = 0 ↔ ∀ e ∈ entries, e.batch.records = [] := by
  simp [recordsIn, total, List.sum_eq_zero_iff]

/-- The counter of dropped records shows the evicted ones, and the drained ones once the worker has
left; until then the summary has them. -/
structure Counted (s : ParserWorker) : Prop where
  running : s.loop.isRunning → s.drained = []
  evicted : s.loop ≠ .left → s.queue.counters.droppedRecords = wrap (recordsIn s.queue.dropped)
  summed : ∀ summary, s.loop = .drain summary → recordsIn s.drained ≤ u64Max →
    summary.records.toNat = recordsIn s.drained
  left : s.loop = .left → recordsIn s.drained ≤ u64Max →
    s.queue.counters.droppedRecords =
      wrap (recordsIn s.drained) + wrap (recordsIn s.queue.dropped)

theorem toNat_saturatingAdd {a b : UInt64} (h : a.toNat + b.toNat ≤ u64Max) :
    (saturatingAdd a b).toNat = a.toNat + b.toNat := by
  have hlt : a.toNat + b.toNat < 2 ^ 64 := by
    unfold u64Max at h
    omega
  rw [saturatingAdd, Nat.min_eq_left h, UInt64.toNat_ofNat', Nat.mod_eq_of_lt hlt]

theorem toNat_add_dropSummary {summary : ParserDropSummary} {drained : List (Entry WorkerMsg)}
    {e : Entry WorkerMsg} (hfits : recordsIn (drained ++ [e]) ≤ u64Max)
    (hsummed : summary.records.toNat = recordsIn drained) :
    (summary.add (dropSummary e.batch)).records.toNat = recordsIn (drained ++ [e]) := by
  rw [recordsIn_append, recordsIn_singleton] at hfits ⊢
  have hone : (dropSummary e.batch).records.toNat = e.batch.records.length := by
    have hlt : e.batch.records.length < 2 ^ 64 := by
      unfold u64Max at hfits
      omega
    obtain ⟨serial, batch⟩ := e
    cases batch
    exact UInt64.toNat_ofNat_of_lt' hlt
  change (saturatingAdd summary.records (dropSummary e.batch).records).toNat = _
  rw [toNat_saturatingAdd, hsummed, hone]
  rw [hsummed, hone]
  exact hfits

theorem droppedRecords_recordDrop (counters : ParserQueueCounters) (summary : ParserDropSummary) :
    (if summary.isEmpty then counters else counters.recordDrop summary).droppedRecords =
      counters.droppedRecords + summary.records := by
  split_ifs with hempty
  · have hzero : summary.records = 0 := by
      simp only [ParserDropSummary.isEmpty, Bool.and_eq_true, beq_iff_eq] at hempty
      exact hempty.1.1
    rw [hzero, UInt64.add_zero]
  · rfl

/-- The counter of the queue has what was evicted, and at the end what was drained as well. -/
theorem Counted.step (h : Counted s) (hstep : step capacity s action = some s') : Counted s' := by
  rcases step_cases hstep with ⟨queueAction, queue, -, hreceive, hqueue, rfl⟩ | ⟨_, _, -, rfl⟩ |
    ⟨nowNs, -, hworker⟩
  · have hcounts := ParserQueue.counts_droppedRecords capacity
    refine { running := h.running, evicted := ?_, summed := h.summed, left := ?_ }
    · intro hloop
      -- the library counts from any start, here from zero
      have hevicted : s.queue.counters.droppedRecords = 0 + wrap (recordsIn s.queue.dropped) := by
        rw [zero_add]
        exact h.evicted hloop
      exact (hcounts.step hevicted hqueue).trans (zero_add _)
    · intro hloop hfits
      exact hcounts.step (h.left hloop hfits) hqueue
  · exact ⟨h.running, h.evicted, h.summed, h.left⟩
  · rcases workerStep_cases hworker with ⟨loop, calls, hrunning, -, hfresh, -, -, rfl⟩ |
      ⟨e, rest, hloop, hqueue, rfl⟩ | ⟨e, hloop, -, rfl⟩ | ⟨e, ageNs, hloop, rfl⟩ |
      ⟨summary, e, rest, hloop, hqueue, rfl⟩ | ⟨summary, hloop, hqueue, rfl⟩
    · have hdrained := h.running hrunning
      -- a worker that goes on has not left, so only evictions are counted so far
      have hevicted : s.queue.counters.droppedRecords = wrap (recordsIn s.queue.dropped) := by
        apply h.evicted
        intro hleft
        rw [hleft] at hrunning
        simp [WorkerLoop.isRunning] at hrunning
      refine ⟨fun _ => hdrained, fun _ => hevicted, ?_, ?_⟩
      · intro summary hsummary _
        change loop = .drain summary at hsummary
        subst hsummary
        have hzero : summary = {} := of_decide_eq_true hfresh
        rw [hzero, hdrained]
        rfl
      · intro _ _
        rw [hdrained]
        exact hevicted.trans (zero_add _).symm
    · have hrunning : s.loop.isRunning := by
        rw [hloop]
        rfl
      exact ⟨fun _ => h.running hrunning, fun _ => h.evicted (by simp [hloop]), by simp, by simp⟩
    · have hrunning : s.loop.isRunning := by
        rw [hloop]
        rfl
      have hdrained := h.running hrunning
      refine ⟨fun _ => hdrained, fun _ => h.evicted (by simp [hloop]), ?_, by simp⟩
      intro summary hsummary _
      obtain rfl := WorkerLoop.drain.inj hsummary
      rw [hdrained]
      rfl
    · have hrunning : s.loop.isRunning := by
        rw [hloop]
        rfl
      exact ⟨fun _ => h.running hrunning, fun _ => h.evicted (by simp [hloop]), by simp, by simp⟩
    · refine ⟨by simp [WorkerLoop.isRunning], fun _ => h.evicted (by simp [hloop]), ?_, by simp⟩
      intro summary' hsummary hfits
      obtain rfl := WorkerLoop.drain.inj hsummary
      apply toNat_add_dropSummary hfits
      apply h.summed summary hloop
      change recordsIn (s.drained ++ [e]) ≤ u64Max at hfits
      rw [recordsIn_append] at hfits
      omega
    · refine ⟨by simp [WorkerLoop.isRunning], by simp, by simp, ?_⟩
      intro _ hfits
      have hsummed := h.summed summary hloop hfits
      -- the summary of the drained batches is added when the worker leaves
      have hrecords : summary.records = wrap (recordsIn s.drained) := by
        rw [wrap_apply, ← hsummed, UInt64.ofNat_toNat]
      change (if summary.isEmpty then s.queue.counters
        else s.queue.counters.recordDrop summary).droppedRecords = _
      rw [droppedRecords_recordDrop, h.evicted (by simp [hloop]), hrecords]
      exact add_comm _ _

theorem counted_of_runs (h : Runs (step capacity) Any {} actions s) : Counted s :=
  h.invariant (fun _ _ _ hcounted _ hstep => hcounted.step hstep)
    ⟨fun _ => rfl, fun _ => rfl, by simp, by simp⟩

/-! ## Runs that put no records aside -/

/-- What the worker's step must not do: put a batch with records aside, or drain more records than
a counter holds. -/
def Keeps (s : ParserWorker) (action : WorkerAction) : Prop :=
  ∀ nowNs, action = .worker nowNs →
    (∀ e, s.loop = .recheck e → s.abortBacklog → e.batch.records = []) ∧
      ∀ summary e rest, s.loop = .drain summary → s.queue.queue = e :: rest →
        recordsIn (s.drained ++ [e]) ≤ u64Max

/-- Nothing with records is put aside, and what is drained at an abort fits the counter. -/
structure Kept (s : ParserWorker) : Prop where
  putAside : ∀ e ∈ s.putAside, e.batch.records = []
  drained : recordsIn s.drained ≤ u64Max

/-- A step keeps the records accounted for just when it neither puts any aside nor drains too many.
-/
theorem kept_step_iff (h : step capacity s action = some s') :
    Kept s' ↔ Kept s ∧ Keeps s action := by
  -- a step that neither puts aside nor drains keeps what is asked for
  have hother : s'.putAside = s.putAside → s'.drained = s.drained → Keeps s action →
      (Kept s' ↔ Kept s ∧ Keeps s action) := by
    intro hputAside hdrained hkeeps
    constructor
    · rintro ⟨hrecords, hfits⟩
      rw [hputAside] at hrecords
      rw [hdrained] at hfits
      exact ⟨⟨hrecords, hfits⟩, hkeeps⟩
    · rintro ⟨⟨hrecords, hfits⟩, -⟩
      refine ⟨?_, ?_⟩
      · rw [hputAside]
        exact hrecords
      · rw [hdrained]
        exact hfits
  rcases step_cases h with ⟨queueAction, queue, rfl, -, -, rfl⟩ | ⟨_, _, haction, rfl⟩ |
    ⟨nowNs, rfl, hworker⟩
  · exact hother rfl rfl (fun _ h => by simp at h)
  · exact hother rfl rfl (fun _ h => by rcases haction with rfl | rfl <;> simp at h)
  · rcases workerStep_cases hworker with ⟨loop, calls, hrunning, habort, -, -, -, rfl⟩ |
      ⟨e, rest, hloop, hqueue, rfl⟩ | ⟨e, hloop, habort, rfl⟩ | ⟨e, ageNs, hloop, rfl⟩ |
      ⟨summary, e, rest, hloop, hqueue, rfl⟩ | ⟨summary, hloop, hqueue, rfl⟩
    · refine hother rfl rfl ?_
      rintro _ -
      refine ⟨?_, ?_⟩
      · intro e hloop hset
        rw [habort e hloop] at hset
        simp at hset
      · intro summary e rest hloop
        rw [hloop] at hrunning
        simp [WorkerLoop.isRunning] at hrunning
    · exact hother rfl rfl (fun _ _ => by simp [hloop])
    · constructor
      · rintro ⟨hrecords, hfits⟩
        refine ⟨⟨fun e' he' => hrecords e' (List.mem_append_left _ he'), hfits⟩, ?_⟩
        rintro _ -
        refine ⟨?_, by simp [hloop]⟩
        intro e' he' _
        obtain rfl := WorkerLoop.recheck.inj (hloop.symm.trans he')
        exact hrecords e (List.mem_append_right _ (List.mem_singleton_self e))
      · rintro ⟨⟨hrecords, hfits⟩, hkeeps⟩
        refine ⟨?_, hfits⟩
        intro e' he'
        rcases List.mem_append.mp he' with he' | he'
        · exact hrecords e' he'
        · rw [List.mem_singleton.mp he']
          exact (hkeeps nowNs rfl).1 e hloop habort
    · exact hother rfl rfl (fun _ _ => by simp [hloop])
    · constructor
      · rintro ⟨hrecords, hfits⟩
        change recordsIn (s.drained ++ [e]) ≤ u64Max at hfits
        refine ⟨⟨hrecords, ?_⟩, ?_⟩
        · rw [recordsIn_append] at hfits
          omega
        · rintro _ -
          refine ⟨by simp [hloop], ?_⟩
          intro _ e' rest' _ hqueue'
          obtain ⟨rfl, -⟩ := List.cons_eq_cons.mp (hqueue.symm.trans hqueue')
          exact hfits
      · rintro ⟨⟨hrecords, -⟩, hkeeps⟩
        exact ⟨hrecords, (hkeeps nowNs rfl).2 summary e rest hloop hqueue⟩
    · exact hother rfl rfl (fun _ _ => by simp [hloop, hqueue])

/-- From a state that keeps its records, the end keeps them just when every step has. -/
theorem runs_keeps_iff (h : Runs (step capacity) Any s actions s') (hkept : Kept s) :
    Runs (step capacity) Keeps s actions s' ↔ Kept s' := by
  constructor
  · intro hkeeps
    exact hkeeps.invariant (fun _ _ _ hkept hcond hstep => (kept_step_iff hstep).mpr ⟨hkept, hcond⟩)
      hkept
  · have hback : ∀ {s s' : ParserWorker} {actions : List WorkerAction},
        Runs (step capacity) Any s actions s' → Kept s' →
          Kept s ∧ Runs (step capacity) Keeps s actions s' := by
      intro s s' actions h hkept'
      induction h with
      | nil s => exact ⟨hkept', Runs.nil s⟩
      | cons hcond hstep hrest ih =>
          have hnext := ih hkept'
          have hone := (kept_step_iff hstep).mp hnext.1
          exact ⟨hone.1, Runs.cons hone.2 hstep hnext.2⟩
    intro hkept'
    exact (hback h hkept').2

/-! ## Once the worker has left -/

/-- Every batch that was put into the queue is processed, still queued or counted, once. -/
def AccountedFor (s : ParserWorker) : Prop :=
  ∃ counted, s.queue.enqueued.Perm (s.processed ++ s.queue.queue ++ counted) ∧
    s.queue.counters.droppedRecords = wrap (recordsIn counted)

/-- Once the worker has left, the batches put aside are the only ones that nothing accounts for. -/
theorem Parted.enqueued (h : Parted capacity s) (hleft : s.loop = .left) :
    s.queue.enqueued.Perm
      (s.processed ++ s.queue.queue ++ (s.putAside ++ s.drained ++ s.queue.dropped)) := by
  have hreceived := h.received
  rw [hleft] at hreceived
  change s.queue.received.Perm (s.processed ++ [] ++ s.putAside ++ s.drained) at hreceived
  rw [List.append_nil, List.append_assoc] at hreceived
  refine h.queue.parted.trans ?_
  refine ((hreceived.append_right s.queue.queue).append_right s.queue.dropped).trans ?_
  rw [List.append_assoc s.processed, List.append_assoc s.processed, List.append_assoc s.processed]
  apply List.Perm.append_left
  rw [← List.append_assoc s.queue.queue]
  exact (List.perm_append_comm).append_right s.queue.dropped

theorem accountedFor_of_kept (hparted : Parted capacity s) (hcounted : Counted s)
    (hleft : s.loop = .left) (hkept : Kept s) : AccountedFor s := by
  refine ⟨_, hparted.enqueued hleft, ?_⟩
  rw [recordsIn_append, recordsIn_append, recordsIn_eq_zero.mpr hkept.putAside, Nat.zero_add,
    map_add]
  exact hcounted.left hleft hkept.drained

/-- Where a worker that has left accounts for every record, none was put aside and the sum fits. -/
theorem kept_of_accountedFor (hparted : Parted capacity s) (hcounted : Counted s)
    (hleft : s.loop = .left) (hfits : recordsIn s.queue.enqueued ≤ u64Max)
    (h : AccountedFor s) : Kept s := by
  obtain ⟨counted, hperm, hshown⟩ := h
  have hpartition := hparted.enqueued hleft
  have hsame : counted.Perm (s.putAside ++ s.drained ++ s.queue.dropped) :=
    (List.perm_append_left_iff _).mp (hperm.symm.trans hpartition)
  have htotal : recordsIn s.queue.enqueued = recordsIn s.processed + recordsIn s.queue.queue +
      (recordsIn s.putAside + recordsIn s.drained + recordsIn s.queue.dropped) := by
    rw [← recordsIn_append, ← recordsIn_append, ← recordsIn_append, ← recordsIn_append]
    exact (hpartition.map _).sum_eq
  have hdrained : recordsIn s.drained ≤ u64Max := by omega
  refine ⟨?_, hdrained⟩
  rw [hcounted.left hleft hdrained] at hshown
  have hcountedTotal : recordsIn counted =
      recordsIn s.putAside + recordsIn s.drained + recordsIn s.queue.dropped := by
    rw [← recordsIn_append, ← recordsIn_append]
    exact (hsame.map _).sum_eq
  have hmod := congrArg UInt64.toNat hshown
  rw [← map_add, toNat_wrap, toNat_wrap, hcountedTotal] at hmod
  apply recordsIn_eq_zero.mp
  unfold u64Max at hfits
  omega

/-- Where no step of the worker puts a batch with records aside or drains more records than a
counter holds, everything is accounted for once the worker has left; and where fewer records than
that were put into the queue at all, only there. -/
theorem abort_accounts_iff (hrun : Runs (step capacity) Any {} actions s) (hleft : s.loop = .left) :
    (Runs (step capacity) Keeps {} actions s → AccountedFor s) ∧
      (recordsIn s.queue.enqueued ≤ u64Max →
        (AccountedFor s ↔ Runs (step capacity) Keeps {} actions s)) := by
  have hparted := parted_of_runs hrun
  have hcounted := counted_of_runs hrun
  have hnew : Kept {} := ⟨by simp, by simp [recordsIn, total]⟩
  rw [runs_keeps_iff hrun hnew]
  refine ⟨accountedFor_of_kept hparted hcounted hleft, ?_⟩
  intro hfits
  exact ⟨kept_of_accountedFor hparted hcounted hleft hfits,
    accountedFor_of_kept hparted hcounted hleft⟩

/-- A message with one record. -/
def oneRecord : WorkerMsg :=
  .batch
    { enqueuedAt := 0
      records :=
        [{ timestamp := 0, arg1 := 0, arg2 := 0, arg3 := 0, arg4 := 0, arg5 := 0, debugid := 0,
           cpuid := 0 }] }

/-- The flag is set before the worker looks at it for the first time. -/
def abortBeforeCheck : List WorkerAction :=
  [.producer (.enqueue oneRecord), .producer .trySend, .producer .finish, .abort, .worker 0,
    .worker 0, .worker 0]

theorem abort_accounts_beforeCheck :
    ∃ s, Runs (step workerQueueCapacity) Any {} abortBeforeCheck s ∧ s.loop = .left ∧
      s.queue.counters.droppedRecords = 1 ∧ AccountedFor s := by
  have hexists : ∃ s, Runs (step workerQueueCapacity) Any {} abortBeforeCheck s ∧
      s.loop = .left ∧ s.putAside = [] ∧ recordsIn s.drained = 1 ∧
      s.queue.counters.droppedRecords = 1 :=
    exists_runs_of_runIf (by decide)
  obtain ⟨s, hrun, hleft, hputAside, hdrained, hcounter⟩ := hexists
  have hkept : Kept s := by
    refine ⟨by simp [hputAside], ?_⟩
    rw [hdrained]
    decide
  have hnew : Kept {} := ⟨by simp, by simp [recordsIn, total]⟩
  exact ⟨s, hrun, hleft, hcounter,
    (abort_accounts_iff hrun hleft).1 ((runs_keeps_iff hrun hnew).mpr hkept)⟩

/-- The flag is set when the worker has just received a batch. -/
def abortAfterReceive : List WorkerAction :=
  [.producer (.enqueue oneRecord), .producer .trySend, .producer .finish, .worker 0, .worker 0,
    .abort, .worker 0, .worker 0]

theorem abort_loses_received :
    ¬ ∀ actions s, Runs (step workerQueueCapacity) Any {} actions s → s.loop = .left →
      AccountedFor s := by
  intro haccounts
  have hexists : ∃ s, Runs (step workerQueueCapacity) Any {} abortAfterReceive s ∧
      s.loop = .left ∧ s.putAside = [⟨0, oneRecord⟩] ∧ recordsIn s.queue.enqueued = 1 :=
    exists_runs_of_runIf (by decide)
  obtain ⟨s, hrun, hleft, hputAside, hone⟩ := hexists
  have hfits : recordsIn s.queue.enqueued ≤ u64Max := by
    rw [hone]
    decide
  have hkept := kept_of_accountedFor (parted_of_runs hrun) (counted_of_runs hrun) hleft hfits
    (haccounts abortAfterReceive s hrun hleft)
  have hempty := hkept.putAside ⟨0, oneRecord⟩ (by rw [hputAside]; exact List.mem_singleton_self _)
  simp [oneRecord, WorkerMsg.records] at hempty

end ParserWorker

end Stax.StaxdClient
