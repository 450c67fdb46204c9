/-
# Stax.StaxdClient.WorkerOrder — the order in which the worker takes its batches.

The worker processes what it receives in order.  Only a worker that was told to drop its backlog puts
a batch aside or drains the queue.
-/
import Stax.StaxdClient.Worker

namespace Stax.StaxdClient

open Stax.Lib Stax.Lib.Machine Stax.Lib.DropOldest

/-- The batch that is handed to the queue. -/
def WorkerAction.batch? : WorkerAction → Option WorkerMsg
  | .producer action => action.batch?
  | .dropQueue | .abort | .worker _ => none

namespace ParserWorker

variable {capacity : ℕ} {s s' : ParserWorker} {action : WorkerAction} {actions : List WorkerAction}

theorem handed_workerStep {nowNs : ℕ} (h : s.workerStep nowNs = some s') :
    s'.queue.handed = s.queue.handed := by
  rcases workerStep_cases h with ⟨loop, calls, -, -, -, -, -, rfl⟩ | ⟨e, rest, -, -, rfl⟩ |
    ⟨e, -, -, rfl⟩ | ⟨e, ageNs, -, rfl⟩ | ⟨summary, e, rest, -, -, rfl⟩ | ⟨summary, -, -, rfl⟩
  all_goals rfl

theorem queue_handed_step (h : step capacity s action = some s') :
    s'.queue.handed = s.queue.handed ++ action.batch?.toList := by
  rcases step_cases h with ⟨queueAction, queue, rfl, -, hqueue, rfl⟩ | ⟨_, _, haction, rfl⟩ |
    ⟨nowNs, rfl, hworker⟩
  · exact handed_step hqueue
  · have hnone : action.batch? = none := by rcases haction with rfl | rfl <;> rfl
    rw [hnone]
    exact (List.append_nil _).symm
  · rw [handed_workerStep hworker]
    exact (List.append_nil _).symm

/-- What was received is processed first, then in hand, then put aside, then drained. -/
structure InOrder (s : ParserWorker) : Prop where
  received : s.queue.received = s.processed ++ s.loop.inHand ++ s.putAside ++ s.drained
  running : s.loop.isRunning → s.putAside = [] ∧ s.drained = []

theorem inOrder_new : InOrder {} := ⟨rfl, fun _ => ⟨rfl, rfl⟩⟩

/-- The batches received are, in this order, those processed, in hand, put aside and drained. -/
theorem InOrder.step (h : InOrder s) (hstep : step capacity s action = some s') : InOrder s' := by
  rcases step_cases hstep with ⟨queueAction, queue, -, hreceive, hqueue, rfl⟩ | ⟨_, _, -, rfl⟩ |
    ⟨nowNs, -, hworker⟩
  · refine ⟨?_, h.running⟩
    show queue.received = _
    rw [DropOldest.received_of_producer hreceive hqueue]
    exact h.received
  · exact ⟨h.received, h.running⟩
  · have hreceived := h.received
    rcases workerStep_cases hworker with ⟨loop, calls, hrunning, -, -, hhand, hcalls, rfl⟩ |
      ⟨e, rest, hloop, hqueue, rfl⟩ | ⟨e, hloop, -, rfl⟩ | ⟨e, ageNs, hloop, rfl⟩ |
      ⟨summary, e, rest, hloop, hqueue, rfl⟩ | ⟨summary, hloop, hqueue, rfl⟩
    · refine ⟨?_, fun _ => h.running hrunning⟩
      show s.queue.received =
        (s.calls ++ calls).filterMap _ ++ loop.inHand ++ s.putAside ++ s.drained
      rw [List.filterMap_append, hcalls, List.append_nil, hhand]
      exact hreceived
    · have hnone := h.running (by rw [hloop]; rfl)
      refine ⟨?_, fun _ => hnone⟩
      show s.queue.received ++ [e] = s.processed ++ [e] ++ s.putAside ++ s.drained
      rw [hreceived, hnone.1, hnone.2, hloop]
      simp [WorkerLoop.inHand]
    · have hnone := h.running (by rw [hloop]; rfl)
      refine ⟨?_, fun hrunning => by simp [WorkerLoop.isRunning] at hrunning⟩
      show s.queue.received = s.processed ++ [] ++ (s.putAside ++ [e]) ++ s.drained
      rw [hreceived, hnone.1, hnone.2, hloop]
      simp [WorkerLoop.inHand]
    · have hnone := h.running (by rw [hloop]; rfl)
      refine ⟨?_, fun _ => hnone⟩
      show s.queue.received = (s.calls ++ [PipelineCall.processRecords e]).filterMap _ ++ [] ++
        s.putAside ++ s.drained
      rw [hreceived, hloop, List.filterMap_append, List.append_nil]
      rfl
    · refine ⟨?_, fun hrunning => by simp [WorkerLoop.isRunning] at hrunning⟩
      show s.queue.received ++ [e] = s.processed ++ [] ++ s.putAside ++ (s.drained ++ [e])
      rw [hreceived, hloop]
      simp [WorkerLoop.inHand]
    · refine ⟨?_, fun hrunning => by simp [WorkerLoop.isRunning] at hrunning⟩
      rw [hloop] at hreceived
      exact hreceived

/-! ## A worker that is left to its batches -/

theorem closed_of_producer {queueAction : DropOldest.Action WorkerMsg}
    (h : step capacity s (.producer queueAction) = some s') : s.closed = false := by
  cases queueAction with
  | receive => simp [ParserWorker.step] at h
  | enqueue _ | trySend | tryRecv | finish =>
      simp only [ParserWorker.step] at h
      split_ifs at h with hclosed
      exact Bool.eq_false_of_not_eq_true hclosed

/-- Nobody has asked the worker to drop its backlog.  Where it is about to finish, the sender is gone
and the queue is empty. -/
structure Calm (s : ParserWorker) : Prop where
  abortBacklog : s.abortBacklog = false
  putAside : s.putAside = []
  drained : s.drained = []
  loop : ∀ summary, s.loop ≠ .drain summary
  closed : s.closed = true → s.queue.producer = .idle
  ending : s.loop = .beforeFinish ∨ s.loop = .finish ∨ s.loop = .left →
    s.closed = true ∧ s.queue.queue = []

theorem calm_new : Calm {} := ⟨rfl, rfl, rfl, fun _ => by simp, by simp, by simp⟩

/-- The worker's own steps, where nobody has asked it to abort. -/
theorem Calm.workerStep {nowNs : ℕ} (h : Calm s) (hworker : s.workerStep nowNs = some s') :
    Calm s' := by
  have hset := h.abortBacklog
  -- without an abort the loop never comes to the drain
  cases hloop : s.loop with
  | check =>
      simp only [ParserWorker.workerStep, hloop, hset, Option.some_inj] at hworker
      subst hworker
      exact ⟨rfl, h.putAside, h.drained, fun _ => by simp, h.closed, by simp⟩
  | receive =>
      simp only [ParserWorker.workerStep, hloop] at hworker
      split at hworker
      · obtain rfl := Option.some_inj.mp hworker
        exact ⟨hset, h.putAside, h.drained, fun _ => by simp, h.closed, by simp⟩
      · rename_i hempty
        obtain rfl := Option.some_inj.mp hworker
        -- it comes to the end only when the sender is gone and the queue is empty
        by_cases hclosed : s.closed = true
        · rw [if_pos hclosed]
          exact ⟨hset, h.putAside, h.drained, fun _ => by simp, h.closed,
            fun _ => ⟨hclosed, hempty⟩⟩
        · rw [if_neg hclosed]
          exact ⟨hset, h.putAside, h.drained, fun _ => by simp, h.closed, by simp⟩
  | recheck e =>
      simp only [ParserWorker.workerStep, hloop, hset, Bool.false_eq_true, if_false,
        Option.some_inj] at hworker
      subst hworker
      exact ⟨rfl, h.putAside, h.drained, fun _ => by simp, h.closed, by simp⟩
  | process e =>
      simp only [ParserWorker.workerStep, hloop, Option.some_inj] at hworker
      subst hworker
      exact ⟨hset, h.putAside, h.drained, fun _ => by simp, h.closed, by simp⟩
  | tick =>
      simp only [ParserWorker.workerStep, hloop, Option.some_inj] at hworker
      subst hworker
      exact ⟨hset, h.putAside, h.drained, fun _ => by simp, h.closed, by simp⟩
  | drain summary => exact absurd hloop (h.loop summary)
  | beforeFinish =>
      simp only [ParserWorker.workerStep, hloop, hset, Option.some_inj] at hworker
      subst hworker
      exact ⟨rfl, h.putAside, h.drained, fun _ => by simp, h.closed,
        fun _ => h.ending (Or.inl hloop)⟩
  | finish =>
      simp only [ParserWorker.workerStep, hloop, Option.some_inj] at hworker
      subst hworker
      exact ⟨hset, h.putAside, h.drained, fun _ => by simp, h.closed,
        fun _ => h.ending (Or.inr (Or.inl hloop))⟩
  | left => simp [ParserWorker.workerStep, hloop] at hworker

/-- Without a request to abort the worker drains nothing, and ends only at the end of its input. -/
theorem Calm.step (h : Calm s) (habort : action ≠ .abort)
    (hstep : step capacity s action = some s') : Calm s' := by
  cases action with
  | producer queueAction =>
      have hopen := closed_of_producer hstep
      have hending (hloop : s.loop = .beforeFinish ∨ s.loop = .finish ∨ s.loop = .left) : False :=
        absurd (hopen.symm.trans (h.ending hloop).1) (by decide)
      rcases step_cases hstep with ⟨_, queue, -, -, -, rfl⟩ | ⟨_, _, haction, -⟩ | ⟨_, haction, -⟩
      · exact ⟨h.abortBacklog, h.putAside, h.drained, h.loop,
          fun hclosed => absurd (hopen.symm.trans hclosed) (by decide),
          fun hloop => (hending hloop).elim⟩
      · simp at haction
      · simp at haction
  | dropQueue =>
      simp only [ParserWorker.step] at hstep
      split_ifs at hstep with hclosed hidle
      obtain rfl := Option.some_inj.mp hstep
      exact ⟨h.abortBacklog, h.putAside, h.drained, h.loop, fun _ => hidle,
        fun hloop => ⟨rfl, (h.ending hloop).2⟩⟩
  | abort => exact absurd rfl habort
  | worker nowNs => exact h.workerStep hstep

end ParserWorker

end Stax.StaxdClient
