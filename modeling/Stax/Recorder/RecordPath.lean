/-
# Stax.Recorder.RecordPath — from the kernel's trace buffer to the parser.

The daemon's drain thread puts what it reads into a queue that drops its oldest batch; a task sends
the batches to the client.  The client's loop does nothing but receive: it hands each batch to a
queue for the probe scanner and to a queue for the parser, both of which drop their oldest batch, and
a thread at the end of each takes the batches out.

All of them take their steps in any order.  The connection may be lost at any time, the client may
stop, and whoever waits for the sender or the worker may lose patience.  How the connection behaves is
a parameter, and what is assumed of it is `Transport.Documented`.
-/
import Stax.Kperf.ProbeScanners
import Stax.Lib.Relay
import Stax.Staxd.Session
import Stax.StaxdClient.WorkerOrder

namespace Stax.Recorder

open Stax.Kperf Stax.Lib Stax.Lib.Machine Stax.Lib.DropOldest Stax.Staxd Stax.StaxdClient
open Stax.Lib.Relay (Channel Received Transport)

/-! ## The path -/

/-- `send_batches`: waiting for a batch, or with one in hand. -/
inductive Sender
  | idle
  | sending (batch : KdBufBatch)
  | left
  deriving DecidableEq, Repr

/-- The receive loop of `drive_session_with_hooks`: it hands a batch to the scanner's queue first. -/
inductive ReceiveLoop
  | receive
  | scanner (batch : KdBufBatch)
  | parser
  | left
  deriving DecidableEq, Repr

/-- The way of a batch from the kernel's buffer to the parser: the daemon's drain thread, queue and
sender, the channel, and the client's receive loop with its two queues. -/
structure RecordPath where
  drainLoop : DrainLoop
  drainOpen : Bool := true
  sendQueue : State KdBufBatch SendDropStats := initial {}
  sender : Sender := .idle
  cancel : Bool := false
  records : Channel KdBufBatch := {}
  receiveLoop : ReceiveLoop := .receive
  /-- How often the first batch was announced. -/
  firstBatches : ℕ := 0
  totalDrained : ℕ := 0
  scanner : State ProbeScannerBatch ProbeScannerQueueCounters := initial {}
  probes : KperfProbeTriggerScanner := {}
  /-- The calls of `on_kperf_sample_start`. -/
  sampleStarts : List (UInt32 × KperfProbeTriggerTiming) := []
  parser : ParserWorker := {}
  /-- The batches made by the drain thread, and those that the sender did not get rid of. -/
  drained : List KdBufBatch := []
  unsent : List KdBufBatch := []

/-- What can happen on the way, each step of a thread for itself. -/
inductive RecordAction
  | read (batch : KdBufBatch) (heartbeat : Bool)
  | queueSend (action : DropOldest.Action KdBufBatch)
  /-- The drain thread sees the request to stop, or cannot read. -/
  | endDrain
  | take
  | send (startedMachTicks : UInt64)
  /-- The sender has not flushed in time. -/
  | abortSender
  /-- The client stops; the daemon may hear of it. -/
  | stop (heard : Bool)
  | receive (clientReceived : UInt64)
  | queueScan (action : DropOldest.Action ProbeScannerBatch)
  | next (enqueuedAt : ℕ)
  | queueParse (action : DropOldest.Action WorkerMsg)
  | scan
  | worker (nowNs : ℕ)
  /-- The worker has not stopped in time. -/
  | abortBacklog
  | lose (kept : ℕ)
  deriving DecidableEq, Repr

/-- The connection holds, the client goes on until the daemon closes, and nobody loses patience. -/
def RecordAction.Undisturbed : RecordAction → Prop
  | .abortSender | .stop _ | .abortBacklog | .lose _ => False
  | _ => True

instance instDecidableRecordUndisturbed : DecidablePred RecordAction.Undisturbed
  | .abortSender | .stop _ | .abortBacklog | .lose _ => isFalse id
  | .read _ _ | .queueSend _ | .endDrain | .take | .send _ | .receive _ | .queueScan _ | .next _
  | .queueParse _ | .scan | .worker _ => isTrue trivial

/-- What the scanner is told of a batch: its own time of the sample comes later. -/
def timingOf (batch : KdBufBatch) (clientReceived : UInt64) : KperfProbeTriggerTiming where
  kperfTs := 0
  staxdReadStarted := batch.readStartedMachTicks
  staxdDrained := batch.drainedMachTicks
  staxdQueuedForSend := batch.queuedForSendMachTicks
  staxdSendStarted := batch.sendStartedMachTicks
  clientReceived := clientReceived

namespace RecordPath

/-- `drain`, once the ready batch is on its way into the queue. -/
def start (config : SessionConfig) (ready : KdBufBatch) : RecordPath where
  drainLoop := { readBatchRecords := config.minReadBatchRecords }
  sendQueue := { initial {} with producer := .sending { serial := 0, batch := ready } }
  drained := [ready]

/-- `probe_scanner_thread`, for one batch. -/
def scanBatch (s : RecordPath) (batch : ProbeScannerBatch) : RecordPath :=
  { s with
    probes := probeScanner.run s.probes batch.records
    sampleStarts := s.sampleStarts ++ (probeScanner.outputs s.probes batch.records).map
      fun (tid, ts) => (tid, { batch.timing with kperfTs := UInt64.ofNat ts }) }

/-- The receive loop ends: the channel's receiver and both queues are dropped. -/
def leave (s : RecordPath) : Option RecordPath :=
  (ParserWorker.step workerQueueCapacity s.parser .dropQueue).map fun parser =>
    { s with receiveLoop := .left, records := s.records.push .dropped, parser := parser }

/-- What an action does, where it can happen at all. -/
def step (V : Transport KdBufBatch) (config : SessionConfig) (s : RecordPath) :
    RecordAction → Option RecordPath
  | .read batch heartbeat =>
    if s.drainOpen ∧ batch.records.length ≤ s.drainLoop.readBatchRecords ∧
        batch.sendStartedMachTicks = 0 then
      if batch.records.isEmpty ∧ ¬heartbeat then
        some { s with drainLoop := s.drainLoop.afterRead config 0 }
      else
        (DropOldest.step (BatchSendQueue.enqueueDropOldest sendQueueCapacity) s.sendQueue
            (.enqueue batch)).map fun queue =>
          { s with
            drainLoop := s.drainLoop.afterRead config batch.records.length
            sendQueue := queue
            drained := s.drained ++ [batch] }
    else none
  | .queueSend action =>
    if action.isProducer then
      (DropOldest.step (BatchSendQueue.enqueueDropOldest sendQueueCapacity) s.sendQueue action).map
        fun queue => { s with sendQueue := queue }
    else none
  | .endDrain => if s.sendQueue.producer = .idle then some { s with drainOpen := false } else none
  | .take =>
    match s.sender, s.sendQueue.queue with
    | .idle, e :: _ =>
      (DropOldest.step (BatchSendQueue.enqueueDropOldest sendQueueCapacity) s.sendQueue
          .receive).map fun queue => { s with sendQueue := queue, sender := .sending e.batch }
    | .idle, [] =>
      if s.drainOpen then none
      else some { s with sender := .left, records := s.records.push .closed }
    | _, _ => none
  | .send startedMachTicks =>
    match s.sender with
    | .sending batch =>
      match V.send s.records { batch with sendStartedMachTicks := startedMachTicks } with
      | some records => some { s with sender := .idle, records := records }
      | none =>
        some { s with
          sender := .left
          cancel := true
          records := s.records.push .closed
          unsent := s.unsent ++ [batch] }
    | _ => none
  | .abortSender =>
    match s.sender with
    | .idle =>
      if s.drainOpen then none
      else some { s with sender := .left, records := s.records.push .closed }
    | .sending batch =>
      if s.drainOpen then none
      else
        some { s with
          sender := .left
          records := s.records.push .closed
          unsent := s.unsent ++ [batch] }
    | .left => none
  | .stop heard =>
    match s.receiveLoop with
    | .receive => { s with cancel := s.cancel || heard }.leave
    | _ => none
  | .receive clientReceived =>
    match s.receiveLoop with
    | .receive =>
      match V.gives s.records with
      | none => none
      | some (.item batch) =>
        (DropOldest.step (ProbeScannerQueue.enqueueBatch probeScannerQueueCapacity) s.scanner
            (.enqueue { records := batch.records, timing := timingOf batch clientReceived })).map
          fun queue =>
            { s with
              records := s.records.push (.received batch)
              firstBatches := if s.records.received = [] then s.firstBatches + 1 else s.firstBatches
              totalDrained := s.totalDrained + batch.records.length
              scanner := queue
              receiveLoop := .scanner batch }
      | some _ => s.leave
    | _ => none
  | .queueScan action =>
    if action.isProducer then
      (DropOldest.step (ProbeScannerQueue.enqueueBatch probeScannerQueueCapacity) s.scanner
        action).map fun queue => { s with scanner := queue }
    else none
  | .next enqueuedAt =>
    match s.receiveLoop with
    | .scanner batch =>
      if s.scanner.producer = .idle then
        (ParserWorker.step workerQueueCapacity s.parser (.producer (.enqueue (.batch
            { enqueuedAt := enqueuedAt, records := batch.records })))).map fun parser =>
          { s with parser := parser, receiveLoop := .parser }
      else none
    | .parser =>
      if s.parser.queue.producer = .idle then some { s with receiveLoop := .receive } else none
    | _ => none
  | .queueParse action =>
    if action.isProducer then
      (ParserWorker.step workerQueueCapacity s.parser (.producer action)).map
        fun parser => { s with parser := parser }
    else none
  | .scan =>
    match s.scanner.queue with
    | e :: _ =>
      (DropOldest.step (ProbeScannerQueue.enqueueBatch probeScannerQueueCapacity) s.scanner
        .receive).map fun queue => { s with scanner := queue }.scanBatch e.batch
    | [] => none
  | .worker nowNs =>
    (ParserWorker.step workerQueueCapacity s.parser (.worker nowNs)).map
      fun parser => { s with parser := parser }
  | .abortBacklog =>
    match s.receiveLoop with
    | .left =>
      (ParserWorker.step workerQueueCapacity s.parser .abort).map
        fun parser => { s with parser := parser }
    | _ => none
  | .lose kept => some { s with records := s.records.push (.lost kept) }

end RecordPath

/-- The batch that the sender has taken but not sent yet. -/
def Sender.inHand : Sender → List KdBufBatch
  | .sending batch => [batch]
  | .idle | .left => []

/-- The batch that the parser's queue has not got yet. -/
def ReceiveLoop.pending : ReceiveLoop → List KdBufBatch
  | .scanner batch => [batch]
  | .receive | .parser | .left => []

namespace RecordPath

/-! ## What a step can do -/

/-- What a step comes to, by the queue, the channel or the loop that it concerns. -/
inductive Takes (V : Transport KdBufBatch) (s : RecordPath) : RecordAction → RecordPath → Prop
  /-- The drain thread puts a batch into its queue. -/
  | drains {action : RecordAction} {queueAction : DropOldest.Action KdBufBatch}
      {queue : State KdBufBatch SendDropStats} {drainLoop : DrainLoop}
      (hproducer : queueAction.isProducer = true ∨
        queueAction ≠ .receive ∧ s.drainOpen = true)
      (hstep : DropOldest.step (BatchSendQueue.enqueueDropOldest sendQueueCapacity) s.sendQueue
        queueAction = some queue) :
      Takes V s action { s with
        drainLoop := drainLoop
        sendQueue := queue
        drained := s.drained ++ queueAction.batch?.toList }
  | idles {action : RecordAction} {drainLoop : DrainLoop} {drainOpen : Bool}
      (hopen : drainOpen = s.drainOpen ∨ s.sendQueue.producer = .idle ∧ drainOpen = false) :
      Takes V s action { s with drainLoop := drainLoop, drainOpen := drainOpen }
  | takes {action : RecordAction} {e : Entry KdBufBatch} {rest : List (Entry KdBufBatch)}
      {queue : State KdBufBatch SendDropStats} (hsender : s.sender = .idle)
      (hqueue : s.sendQueue.queue = e :: rest)
      (hstep : DropOldest.step (BatchSendQueue.enqueueDropOldest sendQueueCapacity) s.sendQueue
        .receive = some queue) :
      Takes V s action { s with sendQueue := queue, sender := .sending e.batch }
  | sends {action : RecordAction} {batch : KdBufBatch} {startedMachTicks : UInt64}
      {records : Channel KdBufBatch} (hsender : s.sender = .sending batch)
      (hsend : V.send s.records { batch with sendStartedMachTicks := startedMachTicks } =
        some records) : Takes V s action { s with sender := .idle, records := records }
  /-- The sender leaves, with a batch in its hand maybe. -/
  | senderLeaves {action : RecordAction} {cancel : Bool} (hsender : s.sender ≠ .left)
      (hcause : action.Undisturbed →
        s.sender = .idle ∧ s.sendQueue.queue = [] ∧ s.drainOpen = false ∨
          ∃ batch, V.takes s.records batch = false) :
      Takes V s action { s with
        sender := .left
        cancel := cancel
        records := s.records.push .closed
        unsent := s.unsent ++ s.sender.inHand }
  /-- The client leaves, of its own or because nothing more comes. -/
  | leaves {action : RecordAction} {cancel : Bool} {parser : ParserWorker}
      (hloop : s.receiveLoop = .receive)
      (hstep : ParserWorker.step workerQueueCapacity s.parser .dropQueue = some parser)
      (hcause : action.Undisturbed →
        V.gives s.records = some .closed ∨ V.gives s.records = some .failed) :
      Takes V s action { s with
        cancel := cancel
        receiveLoop := .left
        records := s.records.push .dropped
        parser := parser }
  | receives {action : RecordAction} {batch : KdBufBatch}
      {scanned : ProbeScannerBatch} {queue : State ProbeScannerBatch ProbeScannerQueueCounters}
      (hloop : s.receiveLoop = .receive) (hgives : V.gives s.records = some (.item batch))
      (hscanned : scanned.records = batch.records)
      (hstep : DropOldest.step (ProbeScannerQueue.enqueueBatch probeScannerQueueCapacity) s.scanner
        (.enqueue scanned) = some queue) :
      Takes V s action { s with
        records := s.records.push (.received batch)
        firstBatches := if s.records.received = [] then s.firstBatches + 1 else s.firstBatches
        totalDrained := s.totalDrained + batch.records.length
        scanner := queue
        receiveLoop := .scanner batch }
  | queueScans {action : RecordAction} {queueAction : DropOldest.Action ProbeScannerBatch}
      {queue : State ProbeScannerBatch ProbeScannerQueueCounters}
      (hproducer : queueAction ≠ .receive ∧ queueAction.batch? = none)
      (hstep : DropOldest.step (ProbeScannerQueue.enqueueBatch probeScannerQueueCapacity) s.scanner
        queueAction = some queue) : Takes V s action { s with scanner := queue }
  | hands {action : RecordAction} {batch : KdBufBatch} {msg : WorkerMsg} {parser : ParserWorker}
      (hloop : s.receiveLoop = .scanner batch) (hmsg : msg.records = batch.records)
      (hstep : ParserWorker.step workerQueueCapacity s.parser (.producer (.enqueue msg)) =
        some parser) : Takes V s action { s with parser := parser, receiveLoop := .parser }
  | again {action : RecordAction} (hloop : s.receiveLoop = .parser) :
      Takes V s action { s with receiveLoop := .receive }
  /-- A step of the parser's queue, of its worker, or of who waits for it. -/
  | parses {action : RecordAction} {workerAction : WorkerAction} {parser : ParserWorker}
      (hbatch : workerAction.batch? = none) (hdrop : workerAction ≠ .dropQueue)
      (habort : action.Undisturbed → workerAction ≠ .abort)
      (hstep : ParserWorker.step workerQueueCapacity s.parser workerAction = some parser) :
      Takes V s action { s with parser := parser }
  | scans {action : RecordAction} {e : Entry ProbeScannerBatch}
      {rest : List (Entry ProbeScannerBatch)}
      {queue : State ProbeScannerBatch ProbeScannerQueueCounters}
      (hqueue : s.scanner.queue = e :: rest)
      (hstep : DropOldest.step (ProbeScannerQueue.enqueueBatch probeScannerQueueCapacity) s.scanner
        .receive = some queue) : Takes V s action ({ s with scanner := queue }.scanBatch e.batch)
  | loses {action : RecordAction} {kept : ℕ} (hdisturbs : ¬action.Undisturbed) :
      Takes V s action { s with records := s.records.push (.lost kept) }

theorem isProducer_cases {β : Type} {queueAction : DropOldest.Action β}
    (h : queueAction.isProducer = true) : queueAction ≠ .receive ∧ queueAction.batch? = none := by
  cases queueAction <;> simp [DropOldest.Action.isProducer, DropOldest.Action.batch?] at h ⊢

variable {V : Transport KdBufBatch} {config : SessionConfig} {s s' : RecordPath}
  {action : RecordAction} {actions : List RecordAction}

theorem takes_of_leave {cancel : Bool} (hloop : s.receiveLoop = .receive)
    (hcause : action.Undisturbed →
      V.gives s.records = some .closed ∨ V.gives s.records = some .failed)
    (h : { s with cancel := cancel }.leave = some s') : Takes V s action s' := by
  obtain ⟨parser, hstep, rfl⟩ := Option.map_eq_some_iff.mp h
  exact .leaves hloop hstep hcause

theorem takes_of_senderLeaves {cancel : Bool} {lost : List KdBufBatch}
    (hsender : s.sender ≠ .left) (hlost : lost = s.sender.inHand)
    (hcause : action.Undisturbed →
      s.sender = .idle ∧ s.sendQueue.queue = [] ∧ s.drainOpen = false ∨
        ∃ batch, V.takes s.records batch = false) :
    Takes V s action { s with
      sender := .left
      cancel := cancel
      records := s.records.push .closed
      unsent := s.unsent ++ lost } := by
  subst hlost
  exact .senderLeaves hsender hcause

/-- Every step is one of those that `Takes` lists, with what it needs. -/
theorem takes_of_step (h : s.step V config action = some s') : Takes V s action s' := by
  cases action with
  | read batch heartbeat =>
      simp only [step] at h
      split at h
      · rename_i hread
        split at h
        · obtain rfl := Option.some_inj.mp h
          exact .idles (Or.inl rfl)
        · obtain ⟨queue, hstep, rfl⟩ := Option.map_eq_some_iff.mp h
          exact .drains (Or.inr ⟨by simp, hread.1⟩) hstep
      · simp at h
  | queueSend queueAction =>
      simp only [step] at h
      split at h
      · rename_i hproducer
        -- going on with a batch in hand brings none in
        have hbatch := (isProducer_cases hproducer).2
        obtain ⟨queue, hstep, rfl⟩ := Option.map_eq_some_iff.mp h
        have hdrains : Takes V s (.queueSend queueAction) { s with
            drainLoop := s.drainLoop
            sendQueue := queue
            drained := s.drained ++ queueAction.batch?.toList } :=
          .drains (Or.inl hproducer) hstep
        rw [hbatch, Option.toList_none, List.append_nil] at hdrains
        exact hdrains
      · simp at h
  | endDrain =>
      simp only [step] at h
      split at h
      · rename_i hidle
        obtain rfl := Option.some_inj.mp h
        exact .idles (Or.inr ⟨hidle, rfl⟩)
      · simp at h
  | take =>
      simp only [step] at h
      split at h
      · rename_i e rest hsender hqueue
        obtain ⟨queue, hstep, rfl⟩ := Option.map_eq_some_iff.mp h
        exact .takes hsender hqueue hstep
      · rename_i hsender hqueue
        split at h
        · simp at h
        · rename_i hopen
          obtain rfl := Option.some_inj.mp h
          rw [← List.append_nil s.unsent]
          -- the queue is empty and nobody fills it any more
          refine takes_of_senderLeaves (by simp [hsender]) (by simp [hsender, Sender.inHand]) ?_
          exact fun _ => Or.inl ⟨hsender, hqueue, Bool.eq_false_of_not_eq_true hopen⟩
      · simp at h
  | send startedMachTicks =>
      simp only [step] at h
      split at h
      · rename_i batch hsender
        split at h
        · rename_i records hsend
          obtain rfl := Option.some_inj.mp h
          exact .sends hsender hsend
        · rename_i hsend
          obtain rfl := Option.some_inj.mp h
          -- the channel has refused the batch
          refine takes_of_senderLeaves (by simp [hsender]) (by simp [hsender, Sender.inHand]) ?_
          exact fun _ => Or.inr ⟨_, Transport.send_eq_none_iff.mp hsend⟩
      · simp at h
  | abortSender =>
      simp only [step] at h
      split at h
      · rename_i hsender
        split at h
        · simp at h
        · obtain rfl := Option.some_inj.mp h
          rw [← List.append_nil s.unsent]
          exact takes_of_senderLeaves (by simp [hsender]) (by simp [hsender, Sender.inHand])
            fun hfalse => hfalse.elim
      · rename_i batch hsender
        split at h
        · simp at h
        · obtain rfl := Option.some_inj.mp h
          exact takes_of_senderLeaves (by simp [hsender]) (by simp [hsender, Sender.inHand])
            fun hfalse => hfalse.elim
      · simp at h
  | stop heard =>
      simp only [step] at h
      split at h
      · rename_i hloop
        exact takes_of_leave hloop (fun hfalse => hfalse.elim) h
      · simp at h
  | receive clientReceived =>
      simp only [step] at h
      split at h
      · rename_i hloop
        cases hgives : V.gives s.records with
        | none => simp [hgives] at h
        | some got =>
            cases got with
            | item batch =>
                simp only [hgives] at h
                obtain ⟨queue, hstep, rfl⟩ := Option.map_eq_some_iff.mp h
                exact .receives hloop hgives rfl hstep
            | closed =>
                simp only [hgives] at h
                exact takes_of_leave hloop (fun _ => Or.inl hgives) h
            | failed =>
                simp only [hgives] at h
                exact takes_of_leave hloop (fun _ => Or.inr hgives) h
      · simp at h
  | queueScan queueAction =>
      simp only [step] at h
      split at h
      · rename_i hproducer
        obtain ⟨queue, hstep, rfl⟩ := Option.map_eq_some_iff.mp h
        exact .queueScans (isProducer_cases hproducer) hstep
      · simp at h
  | next enqueuedAt =>
      simp only [step] at h
      split at h
      · rename_i batch hloop
        split at h
        · obtain ⟨parser, hstep, rfl⟩ := Option.map_eq_some_iff.mp h
          exact .hands hloop rfl hstep
        · simp at h
      · rename_i hloop
        split at h
        · obtain rfl := Option.some_inj.mp h
          exact .again hloop
        · simp at h
      · simp at h
  | queueParse queueAction =>
      simp only [step] at h
      split at h
      · rename_i hproducer
        obtain ⟨parser, hstep, rfl⟩ := Option.map_eq_some_iff.mp h
        have hbatch : (WorkerAction.producer queueAction).batch? = none :=
          (isProducer_cases hproducer).2
        exact .parses hbatch (by simp) (by simp) hstep
      · simp at h
  | scan =>
      simp only [step] at h
      split at h
      · rename_i e rest hqueue
        obtain ⟨queue, hstep, rfl⟩ := Option.map_eq_some_iff.mp h
        exact .scans hqueue hstep
      · simp at h
  | worker nowNs =>
      obtain ⟨parser, hstep, rfl⟩ := Option.map_eq_some_iff.mp h
      exact .parses (show (WorkerAction.worker nowNs).batch? = none from rfl) (by simp) (by simp)
        hstep
  | abortBacklog =>
      simp only [step] at h
      split at h
      · obtain ⟨parser, hstep, rfl⟩ := Option.map_eq_some_iff.mp h
        exact .parses (show WorkerAction.abort.batch? = none from rfl) (by simp)
          (fun hfalse => hfalse.elim) hstep
      · simp at h
  | lose kept =>
      obtain rfl := Option.some_inj.mp h
      exact .loses id

/-! ## The daemon's side -/

/-- What the drain thread made is in the queue's books, and what was taken out of the queue was sent,
in order. -/
structure Sent (V : Transport KdBufBatch) (s : RecordPath) : Prop where
  accounted : Accounted (BatchSendQueue.enqueueDropOldest sendQueueCapacity) s.sendQueue
  handed : s.sendQueue.handed = s.drained
  counted : s.sendQueue.counters.droppedRecords =
    0 + Sat.ofNatHom u64Max (total (fun batch => batch.records.length) s.sendQueue.dropped)
  taken : s.sendQueue.received.map (fun e => e.batch.records) =
    (s.records.sent ++ s.sender.inHand ++ s.unsent).map KdBufBatch.records
  unsent : s.sender ≠ .left → s.unsent = []
  shown : V.Shown s.records

/-- What the drain thread made is in the books of the daemon after every step. -/
theorem Sent.step (h : Sent V s) (hstep : s.step V config action = some s') : Sent V s' := by
  cases takes_of_step hstep with
  | @drains queueAction queue drainLoop hproducer hqueue =>
      refine ⟨h.accounted.step hqueue, ?_, ?_, ?_, h.unsent, h.shown⟩
      · rw [handed_step hqueue, h.handed]
      · exact (BatchSendQueue.counts_droppedRecords sendQueueCapacity).step h.counted hqueue
      · have hreceive : queueAction ≠ .receive := by
          rcases hproducer with hproducer | hproducer
          · exact (isProducer_cases hproducer).1
          · exact hproducer.1
        rw [received_of_producer hreceive hqueue]
        exact h.taken
  | idles hopen => exact ⟨h.accounted, h.handed, h.counted, h.taken, h.unsent, h.shown⟩
  | @takes e rest queue hsender hempty hqueue =>
      -- what is taken out of the queue moves from the queue to the sender's hand
      have hcounted :=
        (BatchSendQueue.counts_droppedRecords sendQueueCapacity).step h.counted hqueue
      have hhanded := handed_step hqueue
      have haccounted := h.accounted.step hqueue
      obtain ⟨oldest, rest', hqueue', rfl⟩ := receive_cases hqueue
      obtain ⟨rfl, -⟩ := List.cons_eq_cons.mp (hempty.symm.trans hqueue')
      refine ⟨haccounted, ?_, hcounted, ?_, fun _ => h.unsent (by simp [hsender]), h.shown⟩
      · rw [hhanded, h.handed]
        exact List.append_nil _
      · have htaken := h.taken
        rw [hsender, h.unsent (by simp [hsender])] at htaken
        show (s.sendQueue.received ++ [e]).map _ =
          (s.records.sent ++ [e.batch] ++ s.unsent).map KdBufBatch.records
        rw [h.unsent (by simp [hsender]), List.map_append, htaken]
        simp [Sender.inHand]
  | @sends batch startedMachTicks records hsender hsend =>
      have htaken := h.taken
      have hshown := h.shown.send hsend
      obtain ⟨-, rfl⟩ := Transport.send_cases hsend
      rw [hsender] at htaken
      refine ⟨h.accounted, h.handed, h.counted, ?_, fun _ => h.unsent (by simp [hsender]),
        hshown⟩
      rw [htaken]
      show _ = ((s.records.sent ++ [_]) ++ [] ++ s.unsent).map KdBufBatch.records
      simp [Sender.inHand]
  | senderLeaves hsender hcause =>
      refine ⟨h.accounted, h.handed, h.counted, ?_, fun hleft => absurd rfl hleft,
        h.shown⟩
      have htaken := h.taken
      -- a batch in hand becomes one that was not sent
      rw [h.unsent hsender, List.append_nil] at htaken
      rw [htaken]
      show _ = (s.records.sent ++ [] ++ (s.unsent ++ s.sender.inHand)).map KdBufBatch.records
      rw [h.unsent hsender, List.append_nil, List.nil_append]
  | leaves hloop hparser hcause =>
      exact ⟨h.accounted, h.handed, h.counted, h.taken, h.unsent, h.shown⟩
  | receives hloop hgives hscanned hscan =>
      exact ⟨h.accounted, h.handed, h.counted, h.taken, h.unsent, ⟨hgives, h.shown⟩⟩
  | queueScans hproducer hscan =>
      exact ⟨h.accounted, h.handed, h.counted, h.taken, h.unsent, h.shown⟩
  | hands hloop hmsg hparser =>
      exact ⟨h.accounted, h.handed, h.counted, h.taken, h.unsent, h.shown⟩
  | again hloop => exact ⟨h.accounted, h.handed, h.counted, h.taken, h.unsent, h.shown⟩
  | parses hbatch hdrop habort hparser =>
      exact ⟨h.accounted, h.handed, h.counted, h.taken, h.unsent, h.shown⟩
  | scans hqueue hscan => exact ⟨h.accounted, h.handed, h.counted, h.taken, h.unsent, h.shown⟩
  | loses hdisturbs =>
      exact ⟨h.accounted, h.handed, h.counted, h.taken, h.unsent, h.shown⟩

theorem sent_start (V : Transport KdBufBatch) (config : SessionConfig) (ready : KdBufBatch) :
    Sent V (start config ready) := by
  have hqueue : DropOldest.step (BatchSendQueue.enqueueDropOldest sendQueueCapacity) (initial {})
      (.enqueue ready) = some (start config ready).sendQueue := rfl
  exact ⟨(accounted_initial _).step hqueue, rfl, rfl, rfl, fun _ => rfl, trivial⟩

/-! ## The client's side -/

/-- How many records the batches hold together. -/
def recordCount (batches : List (List KdBuf)) : ℕ := batches.flatten.length

/-- What the client received is in the books of both its queues. -/
structure Parsed (s : RecordPath) : Prop where
  totalDrained : s.totalDrained = recordCount (s.records.received.map KdBufBatch.records)
  firstBatches : s.firstBatches = if s.records.received = [] then 0 else 1
  scanner : s.scanner.handed.map ProbeScannerBatch.records =
    s.records.received.map KdBufBatch.records
  parser : s.parser.queue.handed.map WorkerMsg.records ++
      s.receiveLoop.pending.map KdBufBatch.records =
    s.records.received.map KdBufBatch.records
  parted : ParserWorker.Parted workerQueueCapacity s.parser
  counted : ParserWorker.Counted s.parser
  inOrder : s.parser.InOrder

/-- A step of the worker that no batch goes in with. -/
theorem Parsed.parses {parser : ParserWorker} {workerAction : WorkerAction} (h : Parsed s)
    (hbatch : workerAction.batch? = none)
    (hstep : ParserWorker.step workerQueueCapacity s.parser workerAction = some parser) :
    Parsed { s with parser := parser } := by
  refine ⟨h.totalDrained, h.firstBatches, h.scanner, ?_, h.parted.step hstep,
    h.counted.step hstep, h.inOrder.step hstep⟩
  show parser.queue.handed.map WorkerMsg.records ++ _ = _
  rw [ParserWorker.queue_handed_step hstep, hbatch, Option.toList_none, List.append_nil]
  exact h.parser

/-- What the client has received is in the books of both its queues after every step. -/
theorem Parsed.step (h : Parsed s) (hstep : s.step V config action = some s') : Parsed s' := by
  cases takes_of_step hstep with
  | drains hproducer hqueue =>
      exact ⟨h.totalDrained, h.firstBatches, h.scanner, h.parser, h.parted, h.counted, h.inOrder⟩
  | idles hopen =>
      exact ⟨h.totalDrained, h.firstBatches, h.scanner, h.parser, h.parted, h.counted, h.inOrder⟩
  | takes hsender hempty hqueue =>
      exact ⟨h.totalDrained, h.firstBatches, h.scanner, h.parser, h.parted, h.counted, h.inOrder⟩
  | sends hsender hsend =>
      obtain ⟨-, rfl⟩ := Transport.send_cases hsend
      exact ⟨h.totalDrained, h.firstBatches, h.scanner, h.parser, h.parted, h.counted, h.inOrder⟩
  | senderLeaves hsender hcause =>
      exact ⟨h.totalDrained, h.firstBatches, h.scanner, h.parser, h.parted, h.counted, h.inOrder⟩
  | leaves hloop hparser hcause =>
      have hleft := h.parses rfl hparser
      refine ⟨hleft.totalDrained, hleft.firstBatches, hleft.scanner, ?_, hleft.parted,
        hleft.counted, hleft.inOrder⟩
      have hparsed := hleft.parser
      rw [show ({ s with parser := _ } : RecordPath).receiveLoop = .receive from hloop] at hparsed
      exact hparsed
  | @receives batch scanned queue hloop hgives hscanned hscan =>
      -- both counters and both queues learn of the batch in this step
      refine ⟨?_, ?_, ?_, ?_, h.parted, h.counted, h.inOrder⟩
      · show s.totalDrained + batch.records.length =
          recordCount ((s.records.received ++ [batch]).map KdBufBatch.records)
        rw [h.totalDrained, recordCount, recordCount, List.map_append, List.flatten_append,
          List.length_append]
        simp
      · show (if s.records.received = [] then s.firstBatches + 1 else s.firstBatches) =
          if s.records.received ++ [batch] = [] then 0 else 1
        rw [h.firstBatches, if_neg (by simp : ¬s.records.received ++ [batch] = [])]
        split_ifs <;> rfl
      · show queue.handed.map ProbeScannerBatch.records =
          (s.records.received ++ [batch]).map KdBufBatch.records
        rw [handed_step hscan, List.map_append, h.scanner, List.map_append]
        simp [DropOldest.Action.batch?, hscanned]
      · have hparsed := h.parser
        rw [hloop] at hparsed
        show s.parser.queue.handed.map WorkerMsg.records ++ [batch.records] =
          (s.records.received ++ [batch]).map KdBufBatch.records
        rw [List.map_append, ← hparsed]
        simp [ReceiveLoop.pending]
  | queueScans hproducer hscan =>
      refine ⟨h.totalDrained, h.firstBatches, ?_, h.parser, h.parted, h.counted, h.inOrder⟩
      rw [handed_step hscan, hproducer.2, Option.toList_none, List.append_nil]
      exact h.scanner
  | @hands batch msg parser hloop hmsg hparser =>
      refine ⟨h.totalDrained, h.firstBatches, h.scanner, ?_, h.parted.step hparser,
        h.counted.step hparser, h.inOrder.step hparser⟩
      have hparsed := h.parser
      rw [hloop] at hparsed
      show parser.queue.handed.map WorkerMsg.records ++ [] =
        s.records.received.map KdBufBatch.records
      -- the batch that was pending goes into the queue of the parser
      rw [ParserWorker.queue_handed_step hparser, List.append_nil, ← hparsed, List.map_append]
      simp [WorkerAction.batch?, DropOldest.Action.batch?, ReceiveLoop.pending, hmsg]
  | again hloop =>
      have hparsed := h.parser
      rw [hloop] at hparsed
      exact ⟨h.totalDrained, h.firstBatches, h.scanner, hparsed, h.parted, h.counted, h.inOrder⟩
  | parses hbatch hdrop habort hparser => exact h.parses hbatch hparser
  | @scans e rest queue hqueue hscan =>
      refine ⟨h.totalDrained, h.firstBatches, ?_, h.parser, h.parted, h.counted, h.inOrder⟩
      have hhanded : queue.handed = s.scanner.handed :=
        (handed_step hscan).trans (List.append_nil _)
      show queue.handed.map ProbeScannerBatch.records = _
      rw [hhanded]
      exact h.scanner
  | loses hdisturbs =>
      exact ⟨h.totalDrained, h.firstBatches, h.scanner, h.parser, h.parted, h.counted, h.inOrder⟩

theorem parsed_start (config : SessionConfig) (ready : KdBufBatch) :
    Parsed (start config ready) :=
  ⟨rfl, rfl, rfl, rfl, ⟨accounted_initial _, List.Perm.refl []⟩,
    ⟨fun _ => rfl, fun _ => rfl, by simp [start], by simp [start]⟩, ParserWorker.inOrder_new⟩

/-- What the scanner saw. -/
def scanned (s : RecordPath) : List KdBuf :=
  (s.scanner.received.map fun e => e.batch.records).flatten

/-- A sample's start as the client announces it, without the times of its batch. -/
def startKey (start : UInt32 × KperfProbeTriggerTiming) : UInt32 × UInt64 :=
  (start.1, start.2.kperfTs)

/-- A sample's start as the scanner finds it. -/
def triggerKey (trigger : UInt32 × ℕ) : UInt32 × UInt64 := (trigger.1, UInt64.ofNat trigger.2)

/-- The scanner stands where the records it saw take it, and every trigger of theirs was passed on. -/
structure Scanned (s : RecordPath) : Prop where
  accounted : Accounted (ProbeScannerQueue.enqueueBatch probeScannerQueueCapacity) s.scanner
  probes : s.probes = probeScan s.scanned
  sampleStarts : s.sampleStarts.map startKey = (probeTriggers s.scanned).map triggerKey

theorem Scanned.queue {queue : State ProbeScannerBatch ProbeScannerQueueCounters}
    {queueAction : DropOldest.Action ProbeScannerBatch} (h : Scanned s)
    (hreceive : queueAction ≠ .receive)
    (hstep : DropOldest.step (ProbeScannerQueue.enqueueBatch probeScannerQueueCapacity) s.scanner
      queueAction = some queue) : Scanned { s with scanner := queue } := by
  have hsame : ({ s with scanner := queue } : RecordPath).scanned = s.scanned := by
    rw [scanned, scanned, received_of_producer hreceive hstep]
  refine ⟨h.accounted.step hstep, ?_, ?_⟩
  · rw [hsame]
    exact h.probes
  · rw [hsame]
    exact h.sampleStarts

/-- The scanner has seen exactly the batches that its queue has let through, in order. -/
theorem Scanned.step (h : Scanned s) (hstep : s.step V config action = some s') : Scanned s' := by
  cases takes_of_step hstep with
  | receives hloop hgives hscanned hscan =>
      have hscans := h.queue (by simp) hscan
      exact ⟨hscans.accounted, hscans.probes, hscans.sampleStarts⟩
  | queueScans hproducer hscan => exact h.queue hproducer.1 hscan
  | @scans e rest queue hqueue hscan =>
      have haccounted := h.accounted.step hscan
      obtain ⟨oldest, rest', hqueue', rfl⟩ := receive_cases hscan
      obtain ⟨rfl, -⟩ := List.cons_eq_cons.mp (hqueue.symm.trans hqueue')
      have hmore : (scanBatch { s with scanner := { s.scanner with
          queue := rest', received := s.scanner.received ++ [e] } } e.batch).scanned =
          s.scanned ++ e.batch.records := by
        show ((s.scanner.received ++ [e]).map fun e => e.batch.records).flatten = _
        rw [List.map_append, List.flatten_append, scanned]
        simp
      refine ⟨haccounted, ?_, ?_⟩
      · rw [hmore, probeScan, Transducer.run_append]
        show probeScanner.run s.probes e.batch.records = _
        rw [h.probes, probeScan]
      · rw [hmore, probeTriggers, Transducer.outputs_append, List.map_append]
        show (s.sampleStarts ++ (probeScanner.outputs s.probes e.batch.records).map _).map startKey =
          _
        rw [List.map_append, h.sampleStarts, List.map_map, h.probes]
        rfl
  | drains | idles | takes | sends | senderLeaves | leaves | hands | again | parses | loses =>
      exact ⟨h.accounted, h.probes, h.sampleStarts⟩

theorem scanned_start (config : SessionConfig) (ready : KdBufBatch) :
    Scanned (start config ready) := ⟨accounted_initial _, rfl, rfl⟩

/-! ## Where every record is -/

/-- The batches that the drain thread made. -/
def drainedBatches (s : RecordPath) : List (List KdBuf) := s.drained.map KdBufBatch.records

/-- The batches that the parser has worked on. -/
def processed (s : RecordPath) : List (List KdBuf) :=
  s.parser.processed.map fun e => e.batch.records

/-- Given up by the daemon, because its queue was full. -/
def droppedByDaemon (s : RecordPath) : List (List KdBuf) :=
  s.sendQueue.dropped.map fun e => e.batch.records

/-- Given up by the client, because the parser's queue was full. -/
def droppedByClient (s : RecordPath) : List (List KdBuf) :=
  s.parser.queue.dropped.map fun e => e.batch.records

/-- Given up by the worker, which was told to drop its backlog. -/
def droppedBacklog (s : RecordPath) : List (List KdBuf) :=
  (s.parser.putAside ++ s.parser.drained).map fun e => e.batch.records

/-- In the hand of a sender that was refused or aborted. -/
def unsentBatches (s : RecordPath) : List (List KdBuf) := s.unsent.map KdBufBatch.records

/-- Sent and not received: on its way, or lost with the connection or with the client. -/
def undelivered (s : RecordPath) : List (List KdBuf) :=
  (s.records.sent.drop s.records.received.length).map KdBufBatch.records

/-- In the worker's hands. -/
def inWork (s : RecordPath) : List (List KdBuf) :=
  s.parser.loop.inHand.map fun e => e.batch.records

/-- In a queue or in somebody's hand, the oldest first. -/
def queued (s : RecordPath) : List (List KdBuf) :=
  (s.parser.queue.queue.map fun e => e.batch.records) ++
    s.parser.queue.producer.inHand.map WorkerMsg.records ++
    s.receiveLoop.pending.map KdBufBatch.records ++
    s.sender.inHand.map KdBufBatch.records ++
    (s.sendQueue.queue.map fun e => e.batch.records) ++
    s.sendQueue.producer.inHand.map KdBufBatch.records

theorem recordCount_append (l l' : List (List KdBuf)) :
    recordCount (l ++ l') = recordCount l + recordCount l' := by
  rw [recordCount, List.flatten_append, List.length_append, recordCount, recordCount]

theorem recordCount_perm {l l' : List (List KdBuf)} (h : l.Perm l') :
    recordCount l = recordCount l' :=
  h.flatten.length_eq

theorem total_eq_recordCount {β : Type} (records : β → List KdBuf) (entries : List (Entry β)) :
    total (fun batch => (records batch).length) entries =
      recordCount (entries.map fun e => records e.batch) := by
  induction entries with
  | nil => rfl
  | cons e entries ih =>
      have hrest : total (fun batch => (records batch).length) (e :: entries) =
          (records e.batch).length + total (fun batch => (records batch).length) entries := by
        simp [total]
      rw [hrest, ih, List.map_cons, recordCount, recordCount, List.flatten_cons,
        List.length_append]

/-- Every batch is in just one place. -/
theorem drainedBatches_perm (hV : V.Documented) (hsent : Sent V s) (hparsed : Parsed s) :
    s.drainedBatches.Perm
      (s.processed ++ s.inWork ++ s.droppedByDaemon ++ s.droppedByClient ++ s.droppedBacklog ++
        s.unsentBatches ++ s.undelivered ++ s.queued) := by
  rw [List.perm_iff_count]
  intro batch
  -- the daemon's queue
  have hdrained : s.drainedBatches =
      (s.sendQueue.enqueued.map fun e => e.batch.records) ++
        s.sendQueue.producer.inHand.map KdBufBatch.records := by
    rw [drainedBatches, ← hsent.handed, State.handed_eq, List.map_append, List.map_map]
    rfl
  have hdaemon := (hsent.accounted.parted.map fun e => e.batch.records).count_eq batch
  -- the sender and the connection
  have htaken := congrArg (List.count batch) hsent.taken
  have hchannel : s.records.sent = s.records.received ++
      s.records.sent.drop s.records.received.length :=
    (List.prefix_iff_eq_append.mp (hV.received_isPrefix hsent.shown)).symm
  rw [hchannel] at htaken
  -- the parser's queue
  have hhanded := congrArg (List.count batch) hparsed.parser
  rw [State.handed_eq, List.map_append, List.map_map] at hhanded
  have hclient := (hparsed.parted.queue.parted.map fun e => e.batch.records).count_eq batch
  -- the worker
  rw [hparsed.inOrder.received] at hclient
  rw [hdrained]
  simp only [List.map_append, List.count_append, processed, inWork, droppedByDaemon,
    droppedByClient, droppedBacklog, unsentBatches, undelivered, queued, Function.comp_def]
    at hdaemon htaken hhanded hclient ⊢
  omega

/-- What the client received went in in this order. -/
theorem received_sublist (hV : V.Documented) (hsent : Sent V s) :
    (s.records.received.map KdBufBatch.records).Sublist s.drainedBatches := by
  have hsender : (s.records.received.map KdBufBatch.records).Sublist
      (s.sendQueue.received.map fun e => e.batch.records) := by
    rw [hsent.taken, List.append_assoc]
    exact ((hV.received_isPrefix hsent.shown).sublist.trans (List.sublist_append_left _ _)).map _
  have hqueue : (s.sendQueue.received.map fun e => e.batch.records).Sublist
      (s.sendQueue.enqueued.map fun e => e.batch.records) :=
    ((List.sublist_append_left _ _).trans hsent.accounted.ordered).map _
  refine hsender.trans (hqueue.trans ?_)
  rw [drainedBatches, ← hsent.handed, State.handed_eq, List.map_append, List.map_map]
  exact List.sublist_append_left _ _

/-- The parser works on batches of the drain thread, in the order in which they were made. -/
theorem processed_sublist (hV : V.Documented) (hsent : Sent V s) (hparsed : Parsed s) :
    s.processed.Sublist s.drainedBatches := by
  have hworker : s.processed.Sublist (s.parser.queue.received.map fun e => e.batch.records) := by
    rw [processed, hparsed.inOrder.received, List.append_assoc, List.append_assoc]
    exact (List.sublist_append_left _ _).map _
  have hclient : (s.parser.queue.received.map fun e => e.batch.records).Sublist
      (s.parser.queue.enqueued.map fun e => e.batch.records) :=
    ((List.sublist_append_left _ _).trans hparsed.parted.queue.ordered).map _
  have hhanded : (s.parser.queue.enqueued.map fun e => e.batch.records).Sublist
      (s.records.received.map KdBufBatch.records) := by
    rw [← hparsed.parser, State.handed_eq, List.map_append, List.map_map, List.append_assoc]
    exact List.sublist_append_left _ _
  exact (hworker.trans (hclient.trans hhanded)).trans (received_sublist hV hsent)

/-! ## Undisturbed runs -/

/-- The sender leaves once there is nothing left to send, and the client once there is nothing left to
receive; until then the connection holds. -/
structure Steady (s : RecordPath) : Prop where
  holds : s.receiveLoop ≠ .left → s.records.severed = false
  closed : s.records.closed = true → s.sender = .left
  drainOpen : s.drainOpen = false → s.sendQueue.producer = .idle
  sender : s.sender = .left → s.drainOpen = false ∧ s.sendQueue.queue = []
  left : s.receiveLoop = .left → s.sender = .left ∧ s.records.received = s.records.sent
  unsent : s.unsent = []
  parserClosed : s.parser.closed = true → s.receiveLoop = .left
  calm : s.parser.Calm

/-- Only dropping the queue closes it. -/
theorem closed_step {parser : ParserWorker} {workerAction : WorkerAction}
    (hdrop : workerAction ≠ .dropQueue)
    (h : ParserWorker.step workerQueueCapacity s.parser workerAction = some parser) :
    parser.closed = s.parser.closed := by
  cases workerAction with
  | producer queueAction =>
      rcases ParserWorker.step_cases h with ⟨_, queue, -, -, -, rfl⟩ | ⟨_, _, haction, -⟩ |
        ⟨_, haction, -⟩
      · rfl
      · simp at haction
      · simp at haction
  | dropQueue => exact absurd rfl hdrop
  | abort =>
      obtain rfl := Option.some_inj.mp h
      rfl
  | worker nowNs =>
      have hworker : s.parser.workerStep nowNs = some parser := h
      rcases ParserWorker.workerStep_cases hworker with ⟨loop, calls, -, -, -, -, -, rfl⟩ |
        ⟨e, rest, -, -, rfl⟩ | ⟨e, -, -, rfl⟩ | ⟨e, ageNs, -, rfl⟩ | ⟨summary, e, rest, -, -, rfl⟩ |
        ⟨summary, -, -, rfl⟩
      all_goals rfl

/-- A queue that its producer has left alone, and that nobody fills any more, does not grow. -/
theorem idle_producer {β σ : Type} {policy : Policy β σ} {queue queue' : State β σ}
    {queueAction : DropOldest.Action β} (hidle : queue.producer = .idle)
    (hproducer : queueAction.isProducer = true)
    (h : DropOldest.step policy queue queueAction = some queue') : False := by
  cases queueAction with
  | trySend | tryRecv | finish => simp [DropOldest.step, hidle] at h
  | enqueue _ | receive => simp [DropOldest.Action.isProducer] at hproducer

/-- In an undisturbed run nobody leaves before all has been handed on. -/
theorem Steady.step (h : Steady s) (hV : V.Documented) (hsent : Sent V s)
    (hundisturbed : action.Undisturbed) (hstep : s.step V config action = some s') : Steady s' := by
  cases takes_of_step hstep with
  | @drains queueAction queue drainLoop hproducer hqueue =>
      -- a producer that can take a step has not been closed
      have hopen : s.drainOpen = true := by
        rcases hproducer with hproducer | hproducer
        · by_contra hshut
          have hidle := h.drainOpen (Bool.eq_false_of_not_eq_true hshut)
          exact idle_producer hidle hproducer hqueue
        · exact hproducer.2
      have hnot (hshut : s.drainOpen = false) : False :=
        absurd (hopen.symm.trans hshut) (by decide)
      exact ⟨h.holds, h.closed, fun hshut => (hnot hshut).elim,
        fun hleft => (hnot (h.sender hleft).1).elim, h.left, h.unsent, h.parserClosed,
        h.calm⟩
  | @idles drainLoop drainOpen hopen =>
      refine ⟨h.holds, h.closed, ?_, ?_, h.left, h.unsent, h.parserClosed, h.calm⟩
      · intro hshut
        rcases hopen with rfl | hidle
        · exact h.drainOpen hshut
        · exact hidle.1
      · intro hleft
        refine ⟨?_, (h.sender hleft).2⟩
        rcases hopen with rfl | hidle
        · exact (h.sender hleft).1
        · exact hidle.2
  | @takes e rest queue hsender hqueue htake =>
      obtain ⟨oldest, rest', -, rfl⟩ := receive_cases htake
      -- a sender that takes a batch is still there
      have hnot (hleft : s.sender = .left) : False := by simp [hsender] at hleft
      exact ⟨h.holds, fun hclosed => (hnot (h.closed hclosed)).elim, h.drainOpen,
        fun hleft => by simp at hleft, fun hleft => (hnot (h.left hleft).1).elim, h.unsent,
        h.parserClosed, h.calm⟩
  | @sends batch startedMachTicks records hsender hsend =>
      have hnot (hleft : s.sender = .left) : False := by simp [hsender] at hleft
      have hreceiving : s.receiveLoop ≠ .left := fun hleft => hnot (h.left hleft).1
      obtain ⟨-, rfl⟩ := Transport.send_cases hsend
      exact ⟨h.holds, fun hclosed => (hnot (h.closed hclosed)).elim, h.drainOpen,
        fun hleft => by simp at hleft, fun hleft => (hreceiving hleft).elim, h.unsent,
        h.parserClosed, h.calm⟩
  | @senderLeaves cancel hsender hcause =>
      have hreceiving : s.receiveLoop ≠ .left := fun hleft => hsender (h.left hleft).1
      -- in an undisturbed run it leaves because all is sent; a refusal would mean a lost connection
      rcases hcause hundisturbed with ⟨hidle, hempty, hshut⟩ | ⟨batch, hrefuses⟩
      · refine ⟨h.holds, fun _ => rfl, h.drainOpen, fun _ => ⟨hshut, hempty⟩,
          fun hleft => (hreceiving hleft).elim, ?_, h.parserClosed, h.calm⟩
        show s.unsent ++ s.sender.inHand = []
        rw [h.unsent, hidle]
        rfl
      · have hopen : s.records.closed = false :=
          Bool.eq_false_of_not_eq_true fun hclosed => hsender (h.closed hclosed)
        have hsevered := hV.takes s.records batch hsent.shown hopen hrefuses
        exact absurd ((h.holds hreceiving).symm.trans hsevered) (by decide)
  | @leaves cancel parser hloop hparser hcause =>
      have hholds := h.holds (by simp [hloop])
      -- the client leaves because the channel is at its end, not because it is broken
      rcases hcause hundisturbed with hgives | hgives
      · obtain ⟨hclosed, hall⟩ := hV.finished hsent.shown hholds hgives
        exact ⟨fun hreceiving => absurd rfl hreceiving, h.closed, h.drainOpen, h.sender,
          fun _ => ⟨h.closed hclosed, hall⟩, h.unsent, fun _ => rfl, h.calm.step (by simp) hparser⟩
      · have hsevered := hV.fails s.records hsent.shown hgives
        exact absurd (hholds.symm.trans hsevered) (by decide)
  | @receives batch scanned queue hloop hgives hscanned hscan =>
      have hholds := h.holds (by simp [hloop])
      refine ⟨fun _ => hholds, h.closed, h.drainOpen, h.sender, fun hleft => by simp at hleft,
        h.unsent, ?_, h.calm⟩
      intro hclosed
      have hleft := h.parserClosed hclosed
      simp [hloop] at hleft
  | queueScans hproducer hscan =>
      exact ⟨h.holds, h.closed, h.drainOpen, h.sender, h.left, h.unsent, h.parserClosed,
        h.calm⟩
  | @hands batch msg parser hloop hmsg hparser =>
      have hholds := h.holds (by simp [hloop])
      refine ⟨fun _ => hholds, h.closed, h.drainOpen, h.sender, fun hleft => by simp at hleft,
        h.unsent, ?_, h.calm.step (by simp) hparser⟩
      intro hclosed
      rw [closed_step (by simp) hparser] at hclosed
      have hleft := h.parserClosed hclosed
      simp [hloop] at hleft
  | again hloop =>
      have hholds := h.holds (by simp [hloop])
      refine ⟨fun _ => hholds, h.closed, h.drainOpen, h.sender, fun hleft => by simp at hleft,
        h.unsent, ?_, h.calm⟩
      intro hclosed
      have hleft := h.parserClosed hclosed
      simp [hloop] at hleft
  | @parses workerAction parser hbatch hdrop habort hparser =>
      refine ⟨h.holds, h.closed, h.drainOpen, h.sender, h.left, h.unsent, ?_,
        h.calm.step (habort hundisturbed) hparser⟩
      intro hclosed
      rw [closed_step hdrop hparser] at hclosed
      exact h.parserClosed hclosed
  | scans hqueue hscan =>
      exact ⟨h.holds, h.closed, h.drainOpen, h.sender, h.left, h.unsent, h.parserClosed,
        h.calm⟩
  | loses hdisturbs => exact absurd hundisturbed hdisturbs

theorem steady_start (config : SessionConfig) (ready : KdBufBatch) :
    Steady (start config ready) :=
  ⟨fun _ => rfl, by simp [start, Channel.closed, Channel.closedIn], by simp [start],
    by simp [start], by simp [start], rfl, by simp [start], ParserWorker.calm_new⟩

/-- Once the worker has left, nothing was lost or put aside, and everything has come to an end. -/
theorem Steady.ended (h : Steady s) (hleft : s.parser.loop = .left) :
    s.inWork = [] ∧ s.droppedBacklog = [] ∧ s.unsentBatches = [] ∧ s.undelivered = [] ∧
      s.queued = [] := by
  obtain ⟨hclosed, hempty⟩ := h.calm.ending (Or.inr (Or.inr hleft))
  have hidle := h.calm.closed hclosed
  have hloop := h.parserClosed hclosed
  obtain ⟨hsender, hreceived⟩ := h.left hloop
  obtain ⟨hshut, hqueue⟩ := h.sender hsender
  refine ⟨?_, ?_, ?_, ?_, ?_⟩
  · rw [inWork, hleft]
    rfl
  · rw [droppedBacklog, h.calm.putAside, h.calm.drained]
    rfl
  · rw [unsentBatches, h.unsent]
    rfl
  · rw [undelivered, hreceived, List.drop_length]
    rfl
  · rw [queued, hempty, hidle, hloop, hsender, hqueue, h.drainOpen hshut]
    rfl

/-! ## From the kernel's buffer to the parser -/

theorem sent_of_runs {ready : KdBufBatch} {cond : RecordPath → RecordAction → Prop}
    (h : Runs (RecordPath.step V config) cond (start config ready) actions s) : Sent V s :=
  h.invariant (fun _ _ _ hsent _ hstep => hsent.step hstep) (sent_start V config ready)

theorem parsed_of_runs {ready : KdBufBatch} {cond : RecordPath → RecordAction → Prop}
    (h : Runs (RecordPath.step V config) cond (start config ready) actions s) : Parsed s :=
  h.invariant (fun _ _ _ hparsed _ hstep => hparsed.step hstep) (parsed_start config ready)

theorem scanned_of_runs {ready : KdBufBatch} {cond : RecordPath → RecordAction → Prop}
    (h : Runs (RecordPath.step V config) cond (start config ready) actions s) : Scanned s :=
  h.invariant (fun _ _ _ hscanned _ hstep => hscanned.step hstep) (scanned_start config ready)

theorem Sent.droppedRecords (h : Sent V s) :
    s.sendQueue.counters.droppedRecords.val = min (recordCount s.droppedByDaemon) u64Max := by
  have hcounted := h.counted
  rw [zero_add, total_eq_recordCount KdBufBatch.records] at hcounted
  rw [hcounted]
  rfl

theorem Parsed.droppedRecords (h : Parsed s) (hrunning : s.parser.loop ≠ .left) :
    s.parser.queue.counters.droppedRecords.toNat = recordCount s.droppedByClient % 2 ^ 64 := by
  rw [h.counted.evicted hrunning, toNat_wrap, ParserWorker.recordsIn,
    total_eq_recordCount WorkerMsg.records]
  rfl

theorem Parsed.droppedRecords_of_left (h : Parsed s) (hleft : s.parser.loop = .left)
    (hkept : s.parser.drained = []) :
    s.parser.queue.counters.droppedRecords.toNat = recordCount s.droppedByClient % 2 ^ 64 := by
  have hcounted := h.counted.left hleft (by rw [hkept]; exact Nat.zero_le _)
  have hnone : wrap (ParserWorker.recordsIn s.parser.drained) = 0 := by
    rw [hkept]
    rfl
  rw [hcounted, hnone, zero_add, toNat_wrap, ParserWorker.recordsIn,
    total_eq_recordCount WorkerMsg.records]
  rfl

/-- However the drain thread, the sender, the connection, the client's loop, the scanner and the worker
interleave, and whoever leaves or is cut off when: the parser works on batches that the drain thread
made, in their order, and each of the drain thread's batches is in just one place.  It was worked on or
is in the worker's hands, was dropped where a queue was full, was given up with the backlog, was left
in the hand of a sender that was refused or aborted, was sent and not received, or is in a queue or in
somebody's hand.  The counters say what the queues dropped.  The scanner's triggers are those of the
batches that it saw, which are some of the drain thread's too, and the first batch is announced once at
most. -/
theorem records_accounted {ready : KdBufBatch} (hV : V.Documented)
    (h : Runs (RecordPath.step V config) Any (start config ready) actions s) :
    s.processed.Sublist s.drainedBatches ∧
      s.drainedBatches.Perm
        (s.processed ++ s.inWork ++ s.droppedByDaemon ++ s.droppedByClient ++ s.droppedBacklog ++
          s.unsentBatches ++ s.undelivered ++ s.queued) ∧
      s.sendQueue.counters.droppedRecords.val = min (recordCount s.droppedByDaemon) u64Max ∧
      (s.parser.loop ≠ .left →
        s.parser.queue.counters.droppedRecords.toNat =
          recordCount s.droppedByClient % 2 ^ 64) ∧
      (s.scanner.received.map fun e => e.batch.records).Sublist s.drainedBatches ∧
      s.sampleStarts.map startKey = (probeTriggers s.scanned).map triggerKey ∧
      s.totalDrained = recordCount (s.records.received.map KdBufBatch.records) ∧
      s.firstBatches ≤ 1 := by
  have hsent := sent_of_runs h
  have hparsed := parsed_of_runs h
  have hscanned := scanned_of_runs h
  refine ⟨processed_sublist hV hsent hparsed, drainedBatches_perm hV hsent hparsed,
    hsent.droppedRecords, hparsed.droppedRecords, ?_, hscanned.sampleStarts, hparsed.totalDrained,
    ?_⟩
  · have hqueued : (s.scanner.received.map fun e => e.batch.records).Sublist
        (s.records.received.map KdBufBatch.records) := by
      rw [← hparsed.scanner, State.handed_eq, List.map_append, List.map_map]
      exact (((List.sublist_append_left _ _).trans hscanned.accounted.ordered).map _).trans
        (List.sublist_append_left _ _)
    exact hqueued.trans (received_sublist hV hsent)
  · rw [hparsed.firstBatches]
    split_ifs <;> omega

/-- A batch of one record after the empty one that is ready first. -/
def oneRecord : KdBufBatch where
  records := [
    { timestamp := 0, arg1 := 0, arg2 := 0, arg3 := 0, arg4 := 0, arg5 := 0, debugid := 0, cpuid := 0 }]
  readStartedMachTicks := 1
  drainedMachTicks := 2
  queuedForSendMachTicks := 3
  sendStartedMachTicks := 0
  drainedAtUnixNs := 4

/-- A batch without records, which the daemon sends first. -/
def readyBatch : KdBufBatch := { oneRecord with records := [] }

/-- A session whose buffer holds one record. -/
def smallConfig : SessionConfig where
  targetPid := 1
  frequencyHz := 1
  bufRecords := 1
  samplers := 0
  pmuEventConfigs := []
  classMask := 0
  filterRangeValue1 := 0
  filterRangeValue2 := 0
  typefilterCscs := []

/-- Both batches are read, sent and under way when the drain thread stops. -/
def bothSent : List RecordAction :=
  [.queueSend .trySend, .queueSend .finish, .read oneRecord false, .queueSend .trySend,
    .queueSend .finish, .endDrain, .take, .send 5, .take, .send 6, .take]

/-- The connection is a queue. -/
def queue : Transport KdBufBatch := Transport.queue KdBufBatch

theorem records_accounted_lost :
    ∃ s, Runs (RecordPath.step queue smallConfig) Any (start smallConfig readyBatch)
        (bothSent ++ [.receive 7, .lose 0]) s ∧
      s.drainedBatches = [[], oneRecord.records] ∧ s.undelivered = [oneRecord.records] ∧
      s.drainedBatches.Perm
        (s.processed ++ s.inWork ++ s.droppedByDaemon ++ s.droppedByClient ++ s.droppedBacklog ++
          s.unsentBatches ++ s.undelivered ++ s.queued) := by
  have hexists : ∃ s, Runs (RecordPath.step queue smallConfig) Any (start smallConfig readyBatch)
      (bothSent ++ [.receive 7, .lose 0]) s ∧ s.drainedBatches = [[], oneRecord.records] ∧
      s.undelivered = [oneRecord.records] :=
    exists_runs_of_runIf (by decide)
  obtain ⟨s, hrun, hdrained, hundelivered⟩ := hexists
  exact ⟨s, hrun, hdrained, hundelivered,
    (records_accounted (Transport.documented_queue _) hrun).2.1⟩

/-- Where the connection holds, the client goes on until the daemon closes and nobody loses patience,
the worker leaves with every record worked on or dropped by one of the two queues; where neither
counter shows a drop, the parser has worked on all records, in their order. -/
theorem records_arrive {ready : KdBufBatch} (hV : V.Documented)
    (h : Runs (RecordPath.step V config) (fun _ action => action.Undisturbed) (start config ready)
      actions s) (hleft : s.parser.loop = .left)
    (hfits : recordCount s.drainedBatches ≤ u64Max) :
    recordCount s.drainedBatches =
        recordCount s.processed + s.sendQueue.counters.droppedRecords.val +
          s.parser.queue.counters.droppedRecords.toNat ∧
      (s.sendQueue.counters.droppedRecords.val = 0 →
        s.parser.queue.counters.droppedRecords.toNat = 0 →
        s.processed.flatten = s.drainedBatches.flatten) := by
  have hsent := sent_of_runs h
  have hparsed := parsed_of_runs h
  have hboth : Sent V s ∧ Steady s := h.invariant (p := fun s => Sent V s ∧ Steady s)
    (fun _ _ _ hknown hundisturbed hstep =>
      ⟨hknown.1.step hstep, hknown.2.step hV hknown.1 hundisturbed hstep⟩)
    ⟨sent_start V config ready, steady_start config ready⟩
  have hsteady := hboth.2
  have hcount := recordCount_perm (drainedBatches_perm hV hsent hparsed)
  -- of the places where a batch can be, only those that the statement counts are left
  obtain ⟨hwork, hbacklog, hunsent, hundelivered, hqueued⟩ := hsteady.ended hleft
  rw [hwork, hbacklog, hunsent, hundelivered, hqueued] at hcount
  simp only [List.append_nil, recordCount_append] at hcount
  have hdaemon := hsent.droppedRecords
  have hclient := hparsed.droppedRecords_of_left hleft hsteady.calm.drained
  -- neither counter has saturated or wrapped
  rw [min_eq_left (by omega)] at hdaemon
  rw [Nat.mod_eq_of_lt (by unfold u64Max at hfits; omega)] at hclient
  have htotal : recordCount s.drainedBatches =
      recordCount s.processed + s.sendQueue.counters.droppedRecords.val +
        s.parser.queue.counters.droppedRecords.toNat := by omega
  refine ⟨htotal, fun hnoDaemon hnoClient => ?_⟩
  -- a sublist of the same length is the whole list
  refine (processed_sublist hV hsent hparsed).flatten.eq_of_length ?_
  show recordCount s.processed = recordCount s.drainedBatches
  omega

/-- What the client does with a batch. -/
def handOn : List RecordAction :=
  [.receive 7, .queueScan .trySend, .queueScan .finish, .next 8, .queueParse .trySend,
    .queueParse .finish, .next 9]

theorem records_arrive_both :
    ∃ s, Runs (RecordPath.step queue smallConfig) (fun _ action => action.Undisturbed)
        (start smallConfig readyBatch)
        (bothSent ++ handOn ++ handOn ++ [.receive 10] ++ List.replicate 14 (.worker 11)) s ∧
      s.parser.loop = .left ∧ recordCount s.drainedBatches ≤ u64Max ∧
      s.processed.flatten = oneRecord.records ∧
      s.processed.flatten = s.drainedBatches.flatten := by
  have hexists : ∃ s, Runs (RecordPath.step queue smallConfig)
      (fun _ action => action.Undisturbed) (start smallConfig readyBatch)
      (bothSent ++ handOn ++ handOn ++ [.receive 10] ++ List.replicate 14 (.worker 11)) s ∧
      s.parser.loop = .left ∧ recordCount s.drainedBatches ≤ u64Max ∧
      s.processed.flatten = oneRecord.records ∧
      s.sendQueue.counters.droppedRecords.val = 0 ∧
      s.parser.queue.counters.droppedRecords.toNat = 0 :=
    exists_runs_of_runIf (by decide)
  obtain ⟨s, hrun, hleft, hfits, hrecords, hdaemon, hclient⟩ := hexists
  exact ⟨s, hrun, hleft, hfits, hrecords,
    (records_arrive (Transport.documented_queue _) hrun hleft hfits).2 hdaemon hclient⟩

end RecordPath

end Stax.Recorder
