/-
# Stax.Recorder.IngestPath — from the recorder's events to the server's aggregator.

The recorder's forwarder sends its batches through a channel, and the drainer that the server has
spawned for the run takes them out and applies their events.  The forwarder, the channel, the drainer
and all other tasks of the server take their steps in any order; the connection may be lost.  How the
channel behaves is a parameter, and what is assumed of it is `Transport.Documented`.

While the run is active, the aggregator has what the recorder put in, from the first event on, in
order, each event once.
-/
import Stax.Lib.Relay
import Stax.Recorder.IngestSink
import Stax.Server.Draining

namespace Stax.Recorder

open Stax.Lib Stax.Lib.Machine Stax.Server
open Stax.Lib.Relay (Channel Received Transport)

/-! ## The path -/

/-- The shade's sink, the channel to the server, and the server with its drainer. -/
structure IngestPath where
  sink : IngestSink := {}
  channel : Channel IngestBatch := {}
  server : ServerState

/-- What can happen on the path: steps of the sink, of the channel and of the server. -/
inductive PathAction
  | sink (action : Recorder.Action)
  /-- The drainer gets a batch, or learns that there are no more. -/
  | receive
  | server (action : Server.Action)
  | dropReceiver
  | lose (kept : ℕ)

/-- The action is the drainer's `recv`. -/
def receives (t : ℕ) : Server.Action → Bool
  | .step i (.received _) | .step i .channelClosed | .step i .failed => i = t
  | _ => false

/-- Somebody asks for another drainer for the run. -/
def PathAction.attaches (run : RunId) : PathAction → Bool
  | .server (.call (.attachRun other)) => other = run
  | _ => false

/-- The drainer is in its loop. -/
def inLoop : Job → Bool
  | .drainer _ _ (.detaching _) => false
  | .drainer _ _ _ => true
  | _ => false

namespace IngestPath

variable (V : Transport IngestBatch)

/-- What the channel says to the forwarder's step. -/
def pass (channel : Channel IngestBatch) (forwarder : ForwardEvents) (action : Recorder.Action) :
    Option (Channel IngestBatch) :=
  match forwarder, action with
  | .send batch _, .forward => V.send channel { events := batch }
  | .send batch _, .refuse => if V.takes channel { events := batch } then none else some channel
  | .close, .forward => some (channel.push .closed)
  | _, _ => some channel

/-- What the drainer's `recv` comes to. -/
def recvChoice : Received IngestBatch → Choice
  | .item batch => .received batch.events
  | .closed => .channelClosed
  | .failed => .failed

/-- The path for the drainer that is the `t`-th job. -/
def step (cache : Option HostCache) (t : ℕ) (s : IngestPath) : PathAction → Option IngestPath
  | .sink action =>
    (IngestSink.step s.sink action).bind fun sink =>
      (pass V s.channel s.sink.forwarder action).map fun channel =>
        { s with sink := sink, channel := channel }
  | .receive =>
    (V.gives s.channel).bind fun received =>
      (ServerState.step cache s.server (.step t (recvChoice received))).map fun server =>
        match received with
        | .item batch => { s with channel := s.channel.push (.received batch), server := server }
        | .closed | .failed => { s with server := server }
  | .server action =>
    if receives t action then none
    else (ServerState.step cache s.server action).map fun server => { s with server := server }
  | .dropReceiver =>
    if (s.server.jobs[t]?).any inLoop then none
    else some { s with channel := s.channel.push .dropped }
  | .lose kept => some { s with channel := s.channel.push (.lost kept) }

/-! ## What was sent -/

variable {V : Transport IngestBatch} {cache : Option HostCache} {t : ℕ} {s s' : IngestPath}
  {action : PathAction} {actions : List PathAction} {run : RunId}

/-- What the forwarder sent is what went into the channel. -/
structure Flows (V : Transport IngestBatch) (s : IngestPath) : Prop where
  forwards : IngestSink.Forwards s.sink
  sent : s.channel.sent = s.sink.sent
  shown : V.Shown s.channel

/-- A step of the sink sends its batch, or leaves the channel alone but for closing it. -/
theorem pass_cases {forwarder : ForwardEvents} {channel channel' : Channel IngestBatch}
    {sinkAction : Recorder.Action} (h : pass V channel forwarder sinkAction = some channel') :
    (∃ batch inputClosed, forwarder = .send batch inputClosed ∧ sinkAction = .forward ∧
        V.send channel { events := batch } = some channel') ∨
      ((channel' = channel ∨ channel' = channel.push .closed) ∧
        (sinkAction = .forward → ∀ batch inputClosed, forwarder ≠ .send batch inputClosed)) := by
  unfold pass at h
  split at h
  · rename_i batch inputClosed
    exact Or.inl ⟨batch, inputClosed, rfl, rfl, h⟩
  · split_ifs at h
    exact Or.inr ⟨Or.inl (Option.some_inj.mp h).symm, by simp⟩
  · exact Or.inr ⟨Or.inr (Option.some_inj.mp h).symm, by simp⟩
  · rename_i hsend hrefuse hclose
    refine Or.inr ⟨Or.inl (Option.some_inj.mp h).symm, ?_⟩
    rintro rfl batch inputClosed rfl
    exact hsend batch inputClosed rfl rfl

/-- A step of the forwarder that sends nothing. -/
theorem sent_of_not_send {sink sink' : IngestSink} {sinkAction : Recorder.Action}
    (h : IngestSink.step sink sinkAction = some sink')
    (hnot : sinkAction = .forward → ∀ batch inputClosed, sink.forwarder ≠ .send batch inputClosed) :
    sink'.sent = sink.sent := by
  cases sinkAction with
  | enqueueEvent event =>
      simp only [IngestSink.step] at h
      split_ifs at h
      obtain rfl := Option.some_inj.mp h
      rw [IngestSink.enqueueEvent]
      split_ifs <;> rfl
  | closeSender =>
      simp only [IngestSink.step] at h
      split_ifs at h
      obtain rfl := Option.some_inj.mp h
      rfl
  | forward =>
      rcases IngestSink.forward_cases h with ⟨_, _, _, -, -, -, -, -, -, -, rfl⟩ |
        ⟨_, -, -, -, -, -, rfl⟩ | ⟨-, -, -, rfl⟩ | ⟨batch, inputClosed, hsend, -⟩ | ⟨-, rfl⟩ | ⟨-, rfl⟩
      case inr.inr.inr.inl => exact absurd hsend (hnot rfl batch inputClosed)
      all_goals rfl
  | expire =>
      simp only [IngestSink.step] at h
      split at h
      · split_ifs at h
        obtain rfl := Option.some_inj.mp h
        rfl
      · simp at h
  | refuse =>
      simp only [IngestSink.step] at h
      split at h
      · obtain rfl := Option.some_inj.mp h
        rfl
      · simp at h

/-- A step of the sink and what it does to the channel keep the channel what the sink has sent. -/
theorem Flows.sink {sink : IngestSink} {channel : Channel IngestBatch}
    {sinkAction : Recorder.Action} (h : Flows V s)
    (hstep : IngestSink.step s.sink sinkAction = some sink)
    (hpass : pass V s.channel s.sink.forwarder sinkAction = some channel) :
    Flows V { s with sink := sink, channel := channel } := by
  have hforwards := h.forwards.step hstep
  rcases pass_cases hpass with ⟨batch, inputClosed, hsend, rfl, hsent⟩ | ⟨hchannel, hnot⟩
  · have hsink : sink.sent = s.sink.sent ++ [{ events := batch }] := by
      simp only [IngestSink.step, IngestSink.forward, hsend, Option.some_inj] at hstep
      subst hstep
      rfl
    have hshown := h.shown.send hsent
    obtain ⟨-, rfl⟩ := Transport.send_cases hsent
    refine ⟨hforwards, ?_, hshown⟩
    show s.channel.sent ++ _ = sink.sent
    rw [hsink, h.sent]
  · have hsink := sent_of_not_send hstep hnot
    rcases hchannel with rfl | rfl
    · exact ⟨hforwards, h.sent.trans hsink.symm, h.shown⟩
    · exact ⟨hforwards, h.sent.trans hsink.symm, h.shown⟩

/-! ## What was received -/

/-- The events that the drainer has received. -/
def received (s : IngestPath) : List IngestEvent := s.channel.received.flatMap IngestBatch.events

/-- What is sent flows, and the drainer is fed with what it received as long as its run is active. -/
structure Feeds (V : Transport IngestBatch) (s : IngestPath) (run : RunId) (t : ℕ) : Prop where
  flows : Flows V s
  tracked : s.server.Tracked
  begun : run ∈ s.server.begun
  fed : s.server.inner.IsActive run →
    ∃ processed job, s.server.Fed run t s.received processed job

theorem receivedBy_eq_nil {serverAction : Server.Action} (h : receives t serverAction = false) :
    serverAction.receivedBy t = [] := by
  cases serverAction with
  | step i choice =>
      cases choice with
      | received events =>
          have hne : ¬ i = t := of_decide_eq_false h
          exact if_neg hne
      | _ => rfl
  | _ => rfl

/-- A step of the server that feeds the drainer with these events. -/
theorem Feeds.server {server : ServerState} {channel : Channel IngestBatch}
    {serverAction : Server.Action} (h : Feeds V s run t)
    (hflows : Flows V { s with channel := channel, server := server })
    (hreceived : channel.received.flatMap IngestBatch.events =
      s.received ++ serverAction.receivedBy t)
    (hattach : serverAction ≠ .call (.attachRun run))
    (hstep : ServerState.step cache s.server serverAction = some server) :
    Feeds V { s with channel := channel, server := server } run t := by
  refine ⟨hflows, h.tracked.step hstep, (begun_suffix_step hstep).subset h.begun, ?_⟩
  intro hactive
  have hbefore : s.server.inner.IsActive run := by
    by_contra hnot
    exact h.tracked.not_active_step hstep h.begun hnot hactive
  obtain ⟨processed, job, hfed⟩ := h.fed hbefore
  obtain ⟨processed', job', hfed'⟩ := hfed.step hbefore hattach hstep
  refine ⟨processed', job', ?_⟩
  show server.Fed run t (channel.received.flatMap IngestBatch.events) processed' job'
  rw [hreceived]
  exact hfed'

/-- Whatever happens on the way, the drainer has been fed what the channel has given, in order. -/
theorem Feeds.step (h : Feeds V s run t) (hattach : action.attaches run = false)
    (hstep : IngestPath.step V cache t s action = some s') : Feeds V s' run t := by
  cases action with
  | sink sinkAction =>
      obtain ⟨sink, hsink, hrest⟩ := Option.bind_eq_some_iff.mp hstep
      obtain ⟨channel, hpass, rfl⟩ := Option.map_eq_some_iff.mp hrest
      -- the sink only sends, so what the server has received stays
      have hsame : channel.received = s.channel.received := by
        rcases pass_cases hpass with ⟨_, _, -, -, hsent⟩ | ⟨rfl | rfl, -⟩
        · obtain ⟨-, rfl⟩ := Transport.send_cases hsent
          rfl
        · rfl
        · rfl
      refine ⟨h.flows.sink hsink hpass, h.tracked, h.begun, fun hactive => ?_⟩
      show ∃ processed job,
        s.server.Fed run t (channel.received.flatMap IngestBatch.events) processed job
      rw [hsame]
      exact h.fed hactive
  | receive =>
      obtain ⟨received, hgives, hrest⟩ := Option.bind_eq_some_iff.mp hstep
      obtain ⟨server, hserver, rfl⟩ := Option.map_eq_some_iff.mp hrest
      cases received with
      | item batch =>
          -- the batch that the channel gives is the one the drainer receives
          refine h.server ⟨h.flows.forwards, h.flows.sent, h.flows.shown.receive hgives⟩ ?_
            (by simp) hserver
          show (s.channel.received ++ [batch]).flatMap IngestBatch.events =
            s.received ++ (if t = t then batch.events else [])
          rw [if_pos rfl, List.flatMap_append, List.flatMap_singleton, received]
      | closed =>
          refine h.server ⟨h.flows.forwards, h.flows.sent, h.flows.shown⟩ ?_ (by simp) hserver
          exact (List.append_nil _).symm
      | failed =>
          refine h.server ⟨h.flows.forwards, h.flows.sent, h.flows.shown⟩ ?_ (by simp) hserver
          exact (List.append_nil _).symm
  | server serverAction =>
      simp only [IngestPath.step] at hstep
      split_ifs at hstep with hreceives
      obtain ⟨server, hserver, rfl⟩ := Option.map_eq_some_iff.mp hstep
      refine h.server ⟨h.flows.forwards, h.flows.sent, h.flows.shown⟩ ?_ ?_ hserver
      · rw [receivedBy_eq_nil (Bool.eq_false_of_not_eq_true hreceives), List.append_nil]
        rfl
      · rintro rfl
        exact absurd hattach (by simp [PathAction.attaches])
  | dropReceiver =>
      simp only [IngestPath.step] at hstep
      split_ifs at hstep
      obtain rfl := Option.some_inj.mp hstep
      exact ⟨⟨h.flows.forwards, h.flows.sent, h.flows.shown⟩, h.tracked, h.begun, h.fed⟩
  | lose kept =>
      obtain rfl := Option.some_inj.mp hstep
      exact ⟨⟨h.flows.forwards, h.flows.sent, h.flows.shown⟩, h.tracked, h.begun, h.fed⟩

/-! ## The whole way -/

/-- The run is active, its drainer is the `t`-th job and has just been spawned, nothing was ingested
yet, and no other job is concerned with what is ingested for the run. -/
structure Opened (server : ServerState) (run : RunId) (t : ℕ) : Prop where
  active : ∃ active, server.inner.active = some active ∧ active.id = run ∧ active.Counted []
  drainer : ∃ cancel, server.jobs[t]? = some (.drainer run cancel .spawned)
  others : ∀ i job, i ≠ t → server.jobs[i]? = some job → job.Aside run
  empty : server.aggregator.entries = []

theorem feeds_opened {server : ServerState} (htracked : server.Tracked)
    (h : Opened server run t) : Feeds V { server := server } run t := by
  obtain ⟨active, hactive, hid, hcounted⟩ := h.active
  obtain ⟨cancel, hdrainer⟩ := h.drainer
  have hforwards : IngestSink.Forwards ({} : IngestSink) := IngestSink.forwards_of_runs (.nil _)
  refine ⟨⟨hforwards, rfl, trivial⟩, htracked, (htracked.inner.listed run).mpr (Or.inl ⟨active, hactive, hid⟩), fun _ => ?_⟩
  refine ⟨[], .drainer run cancel .spawned, hdrainer, .drainer _ _, h.others, rfl, ?_, ?_⟩
  · rw [h.empty]
    rfl
  · intro other hother
    obtain rfl := Option.some_inj.mp (hactive.symm.trans hother)
    exact hcounted

/-- Nothing is under way any more: the forwarder is done and was never refused, the connection holds and
has no batch left, and the drainer waits for the next one. -/
structure AtRest (V : Transport IngestBatch) (s : IngestPath) (t : ℕ) : Prop where
  done : s.sink.forwarder = .done
  unrefused : s.sink.refused = false
  holds : s.channel.severed = false
  silent : ∀ batch, V.gives s.channel ≠ some (.item batch)
  waiting : ∃ run cancel notified, s.server.jobs[t]? = some (.drainer run cancel (.waiting notified))

theorem Feeds.received_isPrefix (hV : V.Documented) (h : Feeds V s run t) :
    s.received <+: s.sink.enqueued := by
  obtain ⟨later, hlater⟩ := hV.received_isPrefix h.flows.shown
  have hsent : s.received <+: s.sink.sent.flatMap IngestBatch.events := by
    rw [← h.flows.sent, ← hlater, List.flatMap_append]
    exact List.prefix_append _ _
  exact hsent.trans h.flows.forwards.delivered

theorem Feeds.received_eq (hV : V.Documented) (h : Feeds V s run t) (hrest : AtRest V s t) :
    s.received = s.sink.enqueued := by
  have hended := h.flows.forwards.ended (by rw [hrest.done]; rfl) hrest.unrefused
  have hgives : V.gives s.channel = none ∨ V.gives s.channel = some .closed := by
    cases hgives : V.gives s.channel with
    | none => exact Or.inl rfl
    | some received =>
        cases received with
        | item batch => exact absurd hgives (hrest.silent batch)
        | closed => exact Or.inr rfl
        | failed =>
            have hsevered := hV.fails s.channel h.flows.shown hgives
            exact absurd (hrest.holds.symm.trans hsevered) (by decide)
  have hwhole := hV.complete s.channel h.flows.shown hrest.holds hgives
  rw [hended.2, received, hwhole, h.flows.sent]
  rfl

/-- In every interleaving of the recorder, the channel and the server's tasks, and whatever is lost on
the way: as long as the run is active and has no second drainer, what the aggregator holds is what the
first events that the recorder put in write there, in their order and each once, but for the one that
is just being written; the run's counters count the same events.  Where the recorder is done, nothing
was lost and the drainer waits, these are all the events. -/
theorem events_arrive {before : List Server.Action} {server : ServerState} (hV : V.Documented)
    (hreach : Runs (ServerState.step cache) Any .initial before server)
    (hopened : Opened server run t)
    (h : Runs (IngestPath.step V cache t) (fun _ a => a.attaches run = false)
      { server := server } actions s) (hactive : s.server.inner.IsActive run) :
    ∃ processed pending, processed <+: s.sink.enqueued ∧
      s.server.aggregator.entries ++ pending =
        (processed.filterMap IngestEvent.aggregatorWrite).map (run, ·) ∧
      pending.length ≤ 1 ∧ s.server.inner.Counted processed ∧
      (AtRest V s t → processed = s.sink.enqueued ∧
        s.server.aggregator.contents =
          (s.sink.enqueued.filterMap IngestEvent.aggregatorWrite).foldl LiveAggregator.apply {}) := by
  have hfeeds : Feeds V s run t := h.invariant (p := fun s => Feeds V s run t)
    (fun _ _ _ hfeeds hattach hstep => hfeeds.step hattach hstep)
    (feeds_opened (ServerState.tracked_of_runs hreach) hopened)
  obtain ⟨processed, job, hfed⟩ := hfeeds.fed hactive
  refine ⟨processed, job.unwritten.map (run, ·), ?_, hfed.written, ?_, hfed.counted, ?_⟩
  -- what was processed was received, and what was received was sent in this order
  · refine List.IsPrefix.trans ?_ (hfeeds.received_isPrefix hV)
    rw [hfed.received]
    exact List.prefix_append _ _
  · rw [List.length_map]
    exact job.length_unwritten_le
  · intro hrest
    obtain ⟨run', cancel, notified, hwaiting⟩ := hrest.waiting
    -- a drainer that waits has nothing left to write
    obtain rfl := Option.some_inj.mp (hfed.stands.symm.trans hwaiting)
    have hall : processed = s.sink.enqueued := by
      rw [← hfeeds.received_eq hV hrest, hfed.received]
      exact (List.append_nil _).symm
    refine ⟨hall, ?_⟩
    have hwritten : s.server.aggregator.entries ++ [] = _ := hfed.written
    rw [s.server.aggregator.replays, ← List.append_nil s.server.aggregator.entries, hwritten, hall,
      List.map_map]
    simp

/-- A server on which a recorder has opened a run. -/
def openedServer : ServerState where
  inner :=
    { active := some (.recording 1 "r" 0)
      cancel := some 1
      ingestAttached := true }
  revision := 2
  nextRunId := 2
  begun := [1]
  jobs := [.started 1, .drainer 1 1 .spawned]

theorem runs_openedServer :
    Runs (ServerState.step none) Any .initial
      (.call (.startRun "r") :: List.replicate 8 (.step 0 (.go 0))) openedServer :=
  runs_of_runIf rfl

theorem opened_openedServer : Opened openedServer 1 1 := by
  refine ⟨⟨_, rfl, rfl, rfl, rfl⟩, ⟨1, rfl⟩, ?_, rfl⟩
  intro i job hne hjob
  match i with
  | 0 =>
      obtain rfl := Option.some_inj.mp hjob
      trivial
  | 1 => exact absurd rfl hne
  | i + 2 => simp [openedServer] at hjob

/-- A name and a wakeup in two batches, the first of which is received before the second is sent. -/
def twoBatches : List PathAction :=
  [.sink (.enqueueEvent (.threadName 5 6 "main")), .sink .forward, .sink .forward, .sink .expire,
    .sink .forward, .server (.step 1 (.go 0)), .receive,
    .sink (.enqueueEvent (.wakeup
      { timestampNs := 9, wakerTid := 6, wakeeTid := 7, wakerUserStack := [], wakerKernelStack := [] })),
    .sink .closeSender, .server (.step 1 (.go 0)), .sink .forward, .sink .forward,
    .server (.step 1 (.go 0)), .sink .forward, .sink .forward, .sink .forward, .sink .forward,
    .server (.step 1 (.go 0)), .receive, .server (.step 1 (.go 0)), .server (.step 1 (.go 0)),
    .server (.step 1 (.go 0))]

/-- The connection is a queue. -/
def queue : Transport IngestBatch := Transport.queue IngestBatch

theorem events_arrive_twoBatches :
    ∃ s, Runs (IngestPath.step queue none 1) (fun _ a => a.attaches 1 = false)
        { server := openedServer } twoBatches s ∧
      s.sink.enqueued.length = 2 ∧
      s.server.aggregator.contents =
        (s.sink.enqueued.filterMap IngestEvent.aggregatorWrite).foldl LiveAggregator.apply {} := by
  have hexists : ∃ s, Runs (IngestPath.step queue none 1) (fun _ a => a.attaches 1 = false)
      { server := openedServer } twoBatches s ∧
      (s.sink.enqueued.length = 2 ∧ s.server.inner.IsActive 1 ∧
        (s.sink.forwarder = .done ∧ s.sink.refused = false ∧ s.channel.severed = false ∧
          queue.gives s.channel = some .closed) ∧ s.server.jobs[1]? = some (.drainer 1 1 (.waiting false))) :=
    exists_runs_of_runIf (by decide +kernel)
  obtain ⟨s, hrun, htwo, hactive, ⟨hdone, hunrefused, hholds, hclosed⟩, hwaiting⟩ := hexists
  have hrest : AtRest queue s 1 :=
    ⟨hdone, hunrefused, hholds, by simp [hclosed], 1, 1, false, hwaiting⟩
  obtain ⟨processed, pending, -, -, -, -, hall⟩ :=
    events_arrive (Transport.documented_queue _) runs_openedServer opened_openedServer hrun hactive
  exact ⟨s, hrun, htwo, (hall hrest).2⟩

end IngestPath

end Stax.Recorder
