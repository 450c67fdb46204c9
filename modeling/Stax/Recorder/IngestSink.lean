/-
# Stax.Recorder.IngestSink — the recorder's events on their way to the server.

The recorder puts events into an unbounded channel; a forwarder takes them out and sends them in
batches.  A batch starts with the event the forwarder waited for, is filled with what is there, and
then with what arrives in time.  The channel may be closed, the time be over and a send be refused at
any moment.

What is sent is a prefix of what was put in, and all of it where nothing was refused.
-/
import Stax.Lib.Machine
import Stax.Server.Ingest

namespace Stax.Recorder

open Stax.Lib Stax.Lib.Machine Stax.Server

/-- How many events go into a batch at most. -/
def ingestBatchMaxEvents : ℕ := 1024

/-- What is sent at once: events, in the order in which they were recorded. -/
structure IngestBatch where
  events : List IngestEvent
  deriving DecidableEq, Repr

/-- Where in `forward_events` the forwarder stands. -/
inductive ForwardEvents
  | recv
  | fill (batch : List IngestEvent)
  | wait (batch : List IngestEvent) (inputClosed : Bool)
  | refill (batch : List IngestEvent) (inputClosed : Bool)
  | send (batch : List IngestEvent) (inputClosed : Bool)
  | close
  | exit
  | done
  deriving DecidableEq, Repr

/-- The sink of the shade: the channel that events are put into, and the task that forwards them in
batches. -/
structure IngestSink where
  channel : List IngestEvent := []
  senderClosed : Bool := false
  stopRequested : Bool := false
  forwarder : ForwardEvents := .recv
  /-- What went through the vox channel. -/
  sent : List IngestBatch := []
  voxClosed : Bool := false
  /-- Every event that `enqueue_event` was called with. -/
  enqueued : List IngestEvent := []
  /-- A send has failed. -/
  refused : Bool := false
  deriving DecidableEq

/-- What the recorder does with the sink, and the steps of the forwarder. -/
inductive Action
  | enqueueEvent (event : IngestEvent)
  | closeSender
  /-- The forwarder's next step, where what it waits for is there and a send is accepted. -/
  | forward
  /-- The batch's time is over. -/
  | expire
  /-- The send fails. -/
  | refuse
  deriving DecidableEq, Repr

/-- Behind the second draining of the channel. -/
def afterRefill (batch : List IngestEvent) (inputClosed : Bool) : ForwardEvents :=
  if inputClosed then .send batch inputClosed else .wait batch inputClosed

namespace IngestSink

/-- `enqueue_event`. -/
def enqueueEvent (s : IngestSink) (event : IngestEvent) : IngestSink :=
  if s.forwarder = .done then
    { s with enqueued := s.enqueued ++ [event], stopRequested := true }
  else { s with enqueued := s.enqueued ++ [event], channel := s.channel ++ [event] }

/-- The next step of `forward_events`. -/
def forward (s : IngestSink) : Option IngestSink :=
  match s.forwarder with
  | .recv =>
    match s.channel with
    | first :: rest => some { s with channel := rest, forwarder := .fill [first] }
    | [] => if s.senderClosed then some { s with forwarder := .close } else none
  | .fill batch =>
    if batch.length < ingestBatchMaxEvents then
      match s.channel with
      | event :: rest => some { s with channel := rest, forwarder := .fill (batch ++ [event]) }
      | [] => some { s with forwarder := .wait batch s.senderClosed }
    else some { s with forwarder := .wait batch false }
  | .wait batch inputClosed =>
    if batch.length < ingestBatchMaxEvents then
      match s.channel with
      | event :: rest =>
        some { s with channel := rest, forwarder := .refill (batch ++ [event]) inputClosed }
      | [] => if s.senderClosed then some { s with forwarder := .send batch true } else none
    else some { s with forwarder := .send batch inputClosed }
  | .refill batch inputClosed =>
    if batch.length < ingestBatchMaxEvents then
      match s.channel with
      | event :: rest =>
        some { s with channel := rest, forwarder := .refill (batch ++ [event]) inputClosed }
      | [] => some { s with forwarder := afterRefill batch (inputClosed || s.senderClosed) }
    else some { s with forwarder := afterRefill batch inputClosed }
  | .send batch inputClosed =>
    some { s with
      sent := s.sent ++ [{ events := batch }]
      forwarder := if inputClosed then .close else .recv }
  | .close => some { s with voxClosed := true, forwarder := .exit }
  | .exit => some { s with stopRequested := true, forwarder := .done }
  | .done => none

/-- What an action does, where it can happen at all. -/
def step (s : IngestSink) : Action → Option IngestSink
  | .enqueueEvent event => if s.senderClosed then none else some (s.enqueueEvent event)
  | .closeSender => if s.senderClosed then none else some { s with senderClosed := true }
  | .forward => s.forward
  | .expire =>
    match s.forwarder with
    | .wait batch inputClosed =>
      if batch.length < ingestBatchMaxEvents then
        some { s with forwarder := .send batch inputClosed }
      else none
    | _ => none
  | .refuse =>
    match s.forwarder with
    | .send _ _ => some { s with stopRequested := true, refused := true, forwarder := .close }
    | _ => none

end IngestSink

/-! ## What a step can do -/

namespace ForwardEvents

/-- The batch that is being filled. -/
def batch : ForwardEvents → List IngestEvent
  | fill batch => batch
  | wait batch _ => batch
  | refill batch _ => batch
  | send batch _ => batch
  | _ => []

/-- The forwarder knows that no more events will come. -/
def inputClosed : ForwardEvents → Bool
  | wait _ inputClosed => inputClosed
  | refill _ inputClosed => inputClosed
  | send _ inputClosed => inputClosed
  | _ => false

/-- The forwarder is in its loop. -/
def isRunning : ForwardEvents → Bool
  | close | exit | done => false
  | _ => true

/-- The forwarder has a batch. -/
def isBatching : ForwardEvents → Bool
  | fill _ | wait _ _ | refill _ _ | send _ _ => true
  | _ => false

/-- How many steps the forwarder has left where no event comes. -/
def rank : ForwardEvents → ℕ
  | done => 0
  | exit => 1
  | close => 2
  | recv => 3
  | send _ _ => 4
  | wait _ _ => 5
  | refill _ _ => 6
  | fill _ => 6

end ForwardEvents

namespace IngestSink

variable {s s' : IngestSink} {action : Action} {actions : List Action}

/-- The forwarder takes an event from the channel into its batch. -/
def Takes (s s' : IngestSink) : Prop :=
  ∃ event rest next, s.channel = event :: rest ∧ s.forwarder.isRunning ∧
    s.forwarder.batch.length < ingestBatchMaxEvents ∧ next.isBatching ∧
    next.batch = s.forwarder.batch ++ [event] ∧ next.inputClosed = s.forwarder.inputClosed ∧
    next.rank < 4 + s.forwarder.rank ∧ s' = { s with channel := rest, forwarder := next }

/-- The forwarder goes on with its batch as it is. -/
def Moves (s s' : IngestSink) : Prop :=
  ∃ next, s.forwarder.isBatching ∧ next.isBatching ∧ next.batch = s.forwarder.batch ∧
    (next.inputClosed → s.forwarder.inputClosed ∨ (s.channel = [] ∧ s.senderClosed)) ∧
    next.rank < s.forwarder.rank ∧ s' = { s with forwarder := next }

theorem takes_of {event : IngestEvent} {rest : List IngestEvent} {next : ForwardEvents}
    (hchannel : s.channel = event :: rest)
    (h : s.forwarder.isRunning ∧ s.forwarder.batch.length < ingestBatchMaxEvents ∧
      next.isBatching ∧ next.batch = s.forwarder.batch ++ [event] ∧
      next.inputClosed = s.forwarder.inputClosed ∧ next.rank < 4 + s.forwarder.rank) :
    Takes s { s with channel := rest, forwarder := next } :=
  ⟨event, rest, next, hchannel, h.1, h.2.1, h.2.2.1, h.2.2.2.1, h.2.2.2.2.1, h.2.2.2.2.2, rfl⟩

theorem moves_to {next : ForwardEvents}
    (h : s.forwarder.isBatching ∧ next.isBatching ∧ next.batch = s.forwarder.batch ∧
      (next.inputClosed → s.forwarder.inputClosed ∨ (s.channel = [] ∧ s.senderClosed)) ∧
      next.rank < s.forwarder.rank) : Moves s { s with forwarder := next } :=
  ⟨next, h.1, h.2.1, h.2.2.1, h.2.2.2.1, h.2.2.2.2, rfl⟩

theorem moves_afterRefill {batch : List IngestEvent} {inputClosed inputClosed' : Bool}
    (hforwarder : s.forwarder = .refill batch inputClosed)
    (hclosed : inputClosed' → inputClosed ∨ (s.channel = [] ∧ s.senderClosed)) :
    Moves s { s with forwarder := afterRefill batch inputClosed' } := by
  apply moves_to
  rw [hforwarder]
  cases inputClosed' with
  | false => exact ⟨rfl, rfl, rfl, fun h => absurd h Bool.false_ne_true,
        by simp [afterRefill, ForwardEvents.rank]⟩
  | true => exact ⟨rfl, rfl, rfl, hclosed, by simp [afterRefill, ForwardEvents.rank]⟩

/-- All that the forwarder's next step can do. -/
theorem forward_cases (h : s.forward = some s') :
    Takes s s' ∨ Moves s s' ∨
      (s.forwarder = .recv ∧ s.channel = [] ∧ s.senderClosed ∧
        s' = { s with forwarder := .close }) ∨
      (∃ batch inputClosed, s.forwarder = .send batch inputClosed ∧
        s' = { s with
          sent := s.sent ++ [{ events := batch }]
          forwarder := if inputClosed then .close else .recv }) ∨
      (s.forwarder = .close ∧ s' = { s with voxClosed := true, forwarder := .exit }) ∨
      (s.forwarder = .exit ∧ s' = { s with stopRequested := true, forwarder := .done }) := by
  cases hforwarder : s.forwarder with
  | recv =>
      simp only [forward, hforwarder] at h
      split at h
      · rename_i first rest hchannel
        obtain rfl := Option.some_inj.mp h
        refine Or.inl (takes_of hchannel ?_)
        rw [hforwarder]
        exact ⟨rfl, by decide, rfl, rfl, rfl, by simp [ForwardEvents.rank]⟩
      · rename_i hchannel
        split_ifs at h with hclosed
        exact Or.inr (Or.inr (Or.inl ⟨rfl, hchannel, hclosed, (Option.some_inj.mp h).symm⟩))
  | fill batch =>
      simp only [forward, hforwarder] at h
      by_cases hroom : batch.length < ingestBatchMaxEvents
      · rw [if_pos hroom] at h
        split at h
        · rename_i event rest hchannel
          obtain rfl := Option.some_inj.mp h
          refine Or.inl (takes_of hchannel ?_)
          rw [hforwarder]
          exact ⟨rfl, hroom, rfl, rfl, rfl, by simp [ForwardEvents.rank]⟩
        · rename_i hchannel
          obtain rfl := Option.some_inj.mp h
          refine Or.inr (Or.inl (moves_to ?_))
          rw [hforwarder]
          exact ⟨rfl, rfl, rfl, fun hclosed => Or.inr ⟨hchannel, hclosed⟩,
            by simp [ForwardEvents.rank]⟩
      · rw [if_neg hroom] at h
        obtain rfl := Option.some_inj.mp h
        refine Or.inr (Or.inl (moves_to ?_))
        rw [hforwarder]
        exact ⟨rfl, rfl, rfl, Or.inl, by simp [ForwardEvents.rank]⟩
  | wait batch inputClosed =>
      simp only [forward, hforwarder] at h
      by_cases hroom : batch.length < ingestBatchMaxEvents
      · rw [if_pos hroom] at h
        split at h
        · rename_i event rest hchannel
          obtain rfl := Option.some_inj.mp h
          refine Or.inl (takes_of hchannel ?_)
          rw [hforwarder]
          exact ⟨rfl, hroom, rfl, rfl, rfl, by simp [ForwardEvents.rank]⟩
        · rename_i hchannel
          split_ifs at h with hclosed
          obtain rfl := Option.some_inj.mp h
          refine Or.inr (Or.inl (moves_to ?_))
          rw [hforwarder]
          exact ⟨rfl, rfl, rfl, fun _ => Or.inr ⟨hchannel, hclosed⟩,
            by simp [ForwardEvents.rank]⟩
      · rw [if_neg hroom] at h
        obtain rfl := Option.some_inj.mp h
        refine Or.inr (Or.inl (moves_to ?_))
        rw [hforwarder]
        exact ⟨rfl, rfl, rfl, Or.inl, by simp [ForwardEvents.rank]⟩
  | refill batch inputClosed =>
      simp only [forward, hforwarder] at h
      by_cases hroom : batch.length < ingestBatchMaxEvents
      · rw [if_pos hroom] at h
        split at h
        · rename_i event rest hchannel
          obtain rfl := Option.some_inj.mp h
          refine Or.inl (takes_of hchannel ?_)
          rw [hforwarder]
          exact ⟨rfl, hroom, rfl, rfl, rfl, by simp [ForwardEvents.rank]⟩
        · rename_i hchannel
          obtain rfl := Option.some_inj.mp h
          refine Or.inr (Or.inl (moves_afterRefill hforwarder ?_))
          intro hclosed
          rcases (Bool.or_eq_true _ _).mp hclosed with hclosed | hclosed
          · exact Or.inl hclosed
          · exact Or.inr ⟨hchannel, hclosed⟩
      · rw [if_neg hroom] at h
        obtain rfl := Option.some_inj.mp h
        exact Or.inr (Or.inl (moves_afterRefill hforwarder Or.inl))
  | send batch inputClosed =>
      simp only [forward, hforwarder, Option.some_inj] at h
      exact Or.inr (Or.inr (Or.inr (Or.inl ⟨batch, inputClosed, rfl, h.symm⟩)))
  | close =>
      simp only [forward, hforwarder, Option.some_inj] at h
      exact Or.inr (Or.inr (Or.inr (Or.inr (Or.inl ⟨rfl, h.symm⟩))))
  | exit =>
      simp only [forward, hforwarder, Option.some_inj] at h
      exact Or.inr (Or.inr (Or.inr (Or.inr (Or.inr ⟨rfl, h.symm⟩))))
  | done => simp [forward, hforwarder] at h

/-- All that a step of the sink can do. -/
theorem step_cases (h : step s action = some s') :
    (∃ event, s.senderClosed = false ∧ s' = s.enqueueEvent event) ∨
      (s.senderClosed = false ∧ s' = { s with senderClosed := true }) ∨
      s.forward = some s' ∨ Moves s s' ∨
      ∃ batch inputClosed, s.forwarder = .send batch inputClosed ∧
        s' = { s with stopRequested := true, refused := true, forwarder := .close } := by
  cases action with
  | enqueueEvent event =>
      simp only [step] at h
      split_ifs at h with hclosed
      exact Or.inl ⟨event, Bool.eq_false_of_not_eq_true hclosed, (Option.some_inj.mp h).symm⟩
  | closeSender =>
      simp only [step] at h
      split_ifs at h with hclosed
      exact Or.inr (Or.inl
        ⟨Bool.eq_false_of_not_eq_true hclosed, (Option.some_inj.mp h).symm⟩)
  | forward => exact Or.inr (Or.inr (Or.inl h))
  | expire =>
      simp only [step] at h
      split at h
      · rename_i batch inputClosed hforwarder
        split_ifs at h
        obtain rfl := Option.some_inj.mp h
        refine Or.inr (Or.inr (Or.inr (Or.inl (moves_to ?_))))
        rw [hforwarder]
        exact ⟨rfl, rfl, rfl, Or.inl, by simp [ForwardEvents.rank]⟩
      · simp at h
  | refuse =>
      simp only [step] at h
      split at h
      · rename_i batch inputClosed hforwarder
        exact Or.inr (Or.inr (Or.inr (Or.inr
          ⟨batch, inputClosed, hforwarder, (Option.some_inj.mp h).symm⟩)))
      · simp at h

/-! ## Nothing is lost on the way -/

/-- The events that went through the vox channel, in order. -/
def delivered (s : IngestSink) : List IngestEvent := s.sent.flatMap IngestBatch.events

/-- In the loop every event is sent, in the batch or in the channel; behind it they are all sent
unless a send was refused. -/
structure Forwards (s : IngestSink) : Prop where
  running : s.forwarder.isRunning →
    s.enqueued = s.delivered ++ s.forwarder.batch ++ s.channel
  ended : s.forwarder.isRunning = false → s.refused = false →
    s.senderClosed ∧ s.enqueued = s.delivered
  delivered : s.delivered <+: s.enqueued
  sizes : ∀ batch ∈ s.sent, 1 ≤ batch.events.length ∧ batch.events.length ≤ ingestBatchMaxEvents
  batch : s.forwarder.isBatching →
    1 ≤ s.forwarder.batch.length ∧ s.forwarder.batch.length ≤ ingestBatchMaxEvents
  inputClosed : s.forwarder.inputClosed → s.channel = [] ∧ s.senderClosed
  stopped : s.refused → s.stopRequested
  voxClosed : s.voxClosed → s.forwarder.isRunning = false
  done : s.forwarder = .done → s.voxClosed
  exit : s.forwarder = .exit → s.voxClosed

theorem isRunning_of_isBatching {loop : ForwardEvents} (h : loop.isBatching) : loop.isRunning := by
  cases loop <;> first | rfl | simp [ForwardEvents.isBatching] at h

/-- An event that comes in stands at the end of all. -/
theorem Forwards.enqueueEvent (h : Forwards s) (hopen : s.senderClosed = false)
    (event : IngestEvent) : Forwards (s.enqueueEvent event) := by
  have hprefix : s.delivered <+: s.enqueued ++ [event] :=
    h.delivered.trans (List.prefix_append _ _)
  have hended : s.forwarder.isRunning = false → s.refused = false → False := by
    intro hrunning hrefused
    have hclosed := (h.ended hrunning hrefused).1
    rw [hopen] at hclosed
    exact Bool.false_ne_true hclosed
  rw [IngestSink.enqueueEvent]
  split_ifs with hdone
  · refine { h with running := ?_, ended := ?_, delivered := hprefix, stopped := fun _ => rfl }
    · intro hrunning
      rw [hdone] at hrunning
      exact absurd hrunning Bool.false_ne_true
    · intro hrunning hrefused
      exact (hended hrunning hrefused).elim
  · refine { h with running := ?_, ended := ?_, delivered := hprefix, inputClosed := ?_ }
    · intro hrunning
      change s.enqueued ++ [event] = s.delivered ++ s.forwarder.batch ++ (s.channel ++ [event])
      rw [h.running hrunning, List.append_assoc]
    · intro hrunning hrefused
      exact (hended hrunning hrefused).elim
    · intro hclosed
      have hsender := (h.inputClosed hclosed).2
      rw [hopen] at hsender
      exact absurd hsender Bool.false_ne_true

/-- An event taken from the channel joins the batch in hand. -/
theorem Forwards.takes (h : Forwards s) (htakes : Takes s s') : Forwards s' := by
  obtain ⟨event, rest, next, hchannel, hrunning, hroom, hbatching, hbatch, hclosed, -, rfl⟩ := htakes
  have hnext : next.isRunning := isRunning_of_isBatching hbatching
  refine { h with
    running := ?_, ended := ?_, batch := ?_, inputClosed := ?_, voxClosed := ?_, done := ?_,
    exit := ?_ }
  · intro _
    change s.enqueued = s.delivered ++ next.batch ++ rest
    rw [h.running hrunning, hchannel, hbatch]
    simp
  · intro hend
    exact absurd (hnext.symm.trans hend) Bool.false_ne_true.symm
  · intro _
    change 1 ≤ next.batch.length ∧ next.batch.length ≤ ingestBatchMaxEvents
    rw [hbatch, List.length_append, List.length_singleton]
    omega
  · intro hinput
    change next.inputClosed = true at hinput
    rw [hclosed] at hinput
    have hempty := (h.inputClosed hinput).1
    rw [hchannel] at hempty
    simp at hempty
  · intro hvox
    exact absurd ((h.voxClosed hvox).symm.trans hrunning) Bool.false_ne_true
  · intro hdone
    change next = .done at hdone
    rw [hdone] at hbatching
    exact absurd hbatching Bool.false_ne_true
  · intro hexit
    change next = .exit at hexit
    rw [hexit] at hbatching
    exact absurd hbatching Bool.false_ne_true

/-- A step that moves no event keeps everything where it is. -/
theorem Forwards.moves (h : Forwards s) (hmoves : Moves s s') : Forwards s' := by
  obtain ⟨next, hbatching, hnext, hbatch, hclosed, -, rfl⟩ := hmoves
  have hrunning := isRunning_of_isBatching hbatching
  refine { h with
    running := ?_, ended := ?_, batch := ?_, inputClosed := ?_, voxClosed := ?_, done := ?_,
    exit := ?_ }
  · intro _
    change s.enqueued = s.delivered ++ next.batch ++ s.channel
    rw [hbatch]
    exact h.running hrunning
  · intro hend
    exact absurd ((isRunning_of_isBatching hnext).symm.trans hend) Bool.false_ne_true.symm
  · intro _
    change 1 ≤ next.batch.length ∧ next.batch.length ≤ ingestBatchMaxEvents
    rw [hbatch]
    exact h.batch hbatching
  · intro hinput
    rcases hclosed hinput with hinput | hinput
    · exact h.inputClosed hinput
    · exact hinput
  · intro hvox
    exact absurd ((h.voxClosed hvox).symm.trans hrunning) Bool.false_ne_true
  · intro hdone
    change next = .done at hdone
    rw [hdone] at hnext
    exact absurd hnext Bool.false_ne_true
  · intro hexit
    change next = .exit at hexit
    rw [hexit] at hnext
    exact absurd hnext Bool.false_ne_true

/-- A batch that is sent goes behind what was delivered, and after the last one the channel is
closed. -/
theorem Forwards.sends {batch : List IngestEvent} {inputClosed : Bool} (h : Forwards s)
    (hsend : s.forwarder = .send batch inputClosed) :
    Forwards { s with
      sent := s.sent ++ [{ events := batch }]
      forwarder := if inputClosed then .close else .recv } := by
  have hrunning := h.running (by rw [hsend]; rfl)
  have hsize := h.batch (by rw [hsend]; rfl)
  have hclosed := h.inputClosed
  rw [hsend] at hrunning hsize hclosed
  change s.enqueued = s.delivered ++ batch ++ s.channel at hrunning
  -- the batch moves from the forwarder's hand to what was delivered
  have hdelivered : (s.sent ++ [IngestBatch.mk batch]).flatMap IngestBatch.events =
      s.delivered ++ batch := by
    rw [List.flatMap_append, List.flatMap_singleton]
    rfl
  refine {
    running := ?_
    ended := ?_
    delivered := ?_
    sizes := ?_
    batch := ?_
    inputClosed := ?_
    stopped := h.stopped
    voxClosed := ?_
    done := ?_
    exit := ?_ }
  · intro hnext
    change s.enqueued = (s.sent ++ [IngestBatch.mk batch]).flatMap IngestBatch.events ++ _ ++ s.channel
    rw [hdelivered]
    cases inputClosed with
    | false =>
        rw [hrunning]
        simp [ForwardEvents.batch]
    | true => exact absurd hnext Bool.false_ne_true
  · intro hend _
    change s.senderClosed ∧
      s.enqueued = (s.sent ++ [IngestBatch.mk batch]).flatMap IngestBatch.events
    cases inputClosed with
    | false => exact absurd hend Bool.false_ne_true.symm
    | true =>
        -- the input has closed, so the channel was empty before this batch was sent
        have hempty := hclosed rfl
        rw [hdelivered, hrunning, hempty.1, List.append_nil]
        exact ⟨hempty.2, rfl⟩
  · change (s.sent ++ [IngestBatch.mk batch]).flatMap IngestBatch.events <+: s.enqueued
    rw [hdelivered, hrunning]
    exact List.prefix_append _ _
  · intro other hother
    rcases List.mem_append.mp hother with hother | hother
    · exact h.sizes other hother
    · rw [List.mem_singleton.mp hother]
      exact hsize
  · intro hbatching
    cases inputClosed <;> exact absurd hbatching Bool.false_ne_true
  · intro hinput
    cases inputClosed <;> exact absurd hinput Bool.false_ne_true
  · intro hvox
    have hsending := h.voxClosed hvox
    rw [hsend] at hsending
    exact absurd hsending Bool.false_ne_true.symm
  · intro hdone
    cases inputClosed <;> simp at hdone
  · intro hexit
    cases inputClosed <;> simp at hexit

/-- The forwarder's next step loses nothing and repeats nothing. -/
theorem Forwards.forward (h : Forwards s) (hforward : s.forward = some s') : Forwards s' := by
  rcases forward_cases hforward with htakes | hmoves | ⟨hrecv, hchannel, hclosed, rfl⟩ |
    ⟨batch, inputClosed, hsend, rfl⟩ | ⟨hclose, rfl⟩ | ⟨hexit, rfl⟩
  · exact h.takes htakes
  · exact h.moves hmoves
  -- nothing is in hand and the channel is empty, so all has been delivered
  · have hrunning := h.running (by rw [hrecv]; rfl)
    rw [hrecv, hchannel] at hrunning
    refine { h with
      running := fun hnext => absurd hnext Bool.false_ne_true
      ended := ?_
      batch := fun hnext => absurd hnext Bool.false_ne_true
      inputClosed := fun hnext => absurd hnext Bool.false_ne_true
      voxClosed := fun _ => rfl
      done := by simp
      exit := by simp }
    intro _ _
    refine ⟨hclosed, hrunning.trans ?_⟩
    change s.delivered ++ [] ++ [] = s.delivered
    rw [List.append_nil, List.append_nil]
  · exact h.sends hsend
  · exact { h with
      running := fun hnext => absurd hnext Bool.false_ne_true
      ended := fun _ => h.ended (by rw [hclose]; rfl)
      batch := fun hnext => absurd hnext Bool.false_ne_true
      inputClosed := fun hnext => absurd hnext Bool.false_ne_true
      voxClosed := fun _ => rfl
      done := fun _ => rfl
      exit := fun _ => rfl }
  · exact { h with
      running := fun hnext => absurd hnext Bool.false_ne_true
      ended := fun _ => h.ended (by rw [hexit]; rfl)
      batch := fun hnext => absurd hnext Bool.false_ne_true
      inputClosed := fun hnext => absurd hnext Bool.false_ne_true
      stopped := fun _ => rfl
      voxClosed := fun _ => rfl
      done := fun _ => h.exit hexit
      exit := fun _ => h.exit hexit }

/-- Whatever happens next, the events put in are those delivered, those in hand and those waiting,
in order. -/
theorem Forwards.step (h : Forwards s) (hstep : step s action = some s') : Forwards s' := by
  rcases step_cases hstep with ⟨event, hopen, rfl⟩ | ⟨hopen, rfl⟩ | hforward | hmoves |
    ⟨batch, inputClosed, hsend, rfl⟩
  · exact h.enqueueEvent hopen event
  · exact { h with
      ended := fun hend hrefused => ⟨rfl, (h.ended hend hrefused).2⟩
      inputClosed := fun hinput => ⟨(h.inputClosed hinput).1, rfl⟩ }
  · exact h.forward hforward
  · exact h.moves hmoves
  · exact { h with
      running := fun hnext => absurd hnext Bool.false_ne_true
      ended := fun _ hrefused => absurd hrefused Bool.false_ne_true.symm
      batch := fun hnext => absurd hnext Bool.false_ne_true
      inputClosed := fun hnext => absurd hnext Bool.false_ne_true
      stopped := fun _ => rfl
      voxClosed := fun _ => rfl
      done := by simp
      exit := by simp }

theorem forwards_of_runs (h : Runs step Any {} actions s) : Forwards s :=
  h.invariant (fun _ _ _ hforwards _ hstep => hforwards.step hstep)
    { running := fun _ => rfl
      ended := fun hend => absurd hend Bool.false_ne_true.symm
      delivered := List.prefix_refl []
      sizes := fun _ hbatch => absurd hbatch List.not_mem_nil
      batch := fun hbatching => absurd hbatching Bool.false_ne_true
      inputClosed := fun hinput => absurd hinput Bool.false_ne_true
      stopped := fun hrefused => absurd hrefused Bool.false_ne_true
      voxClosed := fun hvox => absurd hvox Bool.false_ne_true
      done := by simp
      exit := by simp }

/-! ## The forwarder comes to an end -/

/-- How many steps are left once the sender is closed. -/
def rank (s : IngestSink) : ℕ := 4 * s.channel.length + s.forwarder.rank

/-- Once nothing more comes in, every step brings the forwarder closer to its end. -/
theorem rank_step (hclosed : s.senderClosed) (hstep : step s action = some s') :
    s'.senderClosed ∧ s'.rank < s.rank := by
  have hmoved : Moves s s' → s'.senderClosed ∧ s'.rank < s.rank := by
    rintro ⟨next, -, -, -, -, hrank, rfl⟩
    refine ⟨hclosed, ?_⟩
    show 4 * s.channel.length + next.rank < 4 * s.channel.length + s.forwarder.rank
    omega
  rcases step_cases hstep with ⟨event, hopen, rfl⟩ | ⟨hopen, rfl⟩ | hforward | hmoves |
    ⟨batch, inputClosed, hsend, rfl⟩
  · exact absurd (hopen.symm.trans hclosed) Bool.false_ne_true
  · exact absurd (hopen.symm.trans hclosed) Bool.false_ne_true
  · rcases forward_cases hforward with
      ⟨event, rest, next, hchannel, -, -, -, -, -, hrank, rfl⟩ | hmoves | ⟨hrecv, -, -, rfl⟩ |
      ⟨batch, inputClosed, hsend, rfl⟩ | ⟨hclose, rfl⟩ | ⟨hexit, rfl⟩
    · refine ⟨hclosed, ?_⟩
      show 4 * rest.length + next.rank < 4 * s.channel.length + s.forwarder.rank
      rw [hchannel, List.length_cons]
      omega
    · exact hmoved hmoves
    · refine ⟨hclosed, ?_⟩
      simp [rank, hrecv, ForwardEvents.rank]
    · refine ⟨hclosed, ?_⟩
      cases inputClosed <;> simp [rank, hsend, ForwardEvents.rank]
    · refine ⟨hclosed, ?_⟩
      simp [rank, hclose, ForwardEvents.rank]
    · refine ⟨hclosed, ?_⟩
      simp [rank, hexit, ForwardEvents.rank]
  · exact hmoved hmoves
  · refine ⟨hclosed, ?_⟩
    simp [rank, hsend, ForwardEvents.rank]

theorem length_le_rank (hclosed : s.senderClosed) (h : Runs step Any s actions s') :
    actions.length ≤ s.rank := by
  have hsum : s'.senderClosed ∧ actions.length + s'.rank ≤ s.rank := by
    induction h with
    | nil s => exact ⟨hclosed, by simp⟩
    | cons hcond hstep hrest ih =>
        have hone := rank_step hclosed hstep
        have hmore := ih hone.1
        rw [List.length_cons]
        exact ⟨hmore.1, by omega⟩
  omega

/-- Once nothing more comes in, a forwarder that is not done can take a step. -/
theorem exists_forward (hclosed : s.senderClosed) (hforwarder : s.forwarder ≠ .done) :
    ∃ s', step s .forward = some s' := by
  cases hstands : s.forwarder with
  | recv =>
      cases hchannel : s.channel <;> simp [step, forward, hstands, hchannel, hclosed]
  | fill batch =>
      by_cases hroom : batch.length < ingestBatchMaxEvents
      · cases hchannel : s.channel <;> simp [step, forward, hstands, hchannel, hroom]
      · simp [step, forward, hstands, hroom]
  | wait batch inputClosed =>
      by_cases hroom : batch.length < ingestBatchMaxEvents
      · cases hchannel : s.channel <;> simp [step, forward, hstands, hchannel, hroom, hclosed]
      · simp [step, forward, hstands, hroom]
  | refill batch inputClosed =>
      by_cases hroom : batch.length < ingestBatchMaxEvents
      · cases hchannel : s.channel <;> simp [step, forward, hstands, hchannel, hroom]
      · simp [step, forward, hstands, hroom]
  | send batch inputClosed => simp [step, forward, hstands]
  | close => simp [step, forward, hstands]
  | exit => simp [step, forward, hstands]
  | done => exact absurd hstands hforwarder

/-! ## What the forwarder promises -/

/-- A send was refused if it was before, or is now. -/
theorem refused_step (hstep : step s action = some s') :
    s'.refused = true ↔ s.refused = true ∨ action = .refuse := by
  cases action with
  | enqueueEvent event =>
      simp only [step] at hstep
      split_ifs at hstep
      obtain rfl := Option.some_inj.mp hstep
      rw [enqueueEvent]
      split_ifs <;> simp
  | closeSender =>
      simp only [step] at hstep
      split_ifs at hstep
      obtain rfl := Option.some_inj.mp hstep
      simp
  | forward =>
      rcases forward_cases hstep with ⟨_, _, _, -, -, -, -, -, -, -, rfl⟩ |
        ⟨_, -, -, -, -, -, rfl⟩ | ⟨-, -, -, rfl⟩ | ⟨_, _, -, rfl⟩ | ⟨-, rfl⟩ | ⟨-, rfl⟩ <;> simp
  | expire =>
      simp only [step] at hstep
      split at hstep
      · split_ifs at hstep
        obtain rfl := Option.some_inj.mp hstep
        simp
      · simp at hstep
  | refuse =>
      simp only [step] at hstep
      split at hstep
      · obtain rfl := Option.some_inj.mp hstep
        simp
      · simp at hstep

theorem refused_iff (h : Runs step Any s actions s') :
    s'.refused = true ↔ s.refused = true ∨ .refuse ∈ actions := by
  induction h with
  | nil s => simp
  | cons hcond hstep hrest ih =>
      rw [ih, refused_step hstep, List.mem_cons, or_assoc, eq_comm (b := Action.refuse)]

/-- What is sent is a prefix of what was put in, in batches of the allowed sizes.  A refused send
stops the recording; where none is refused, the vox channel is closed only after the sender, and
everything is sent then.  Once the sender is closed the forwarder comes to an end. -/
theorem forward_events_faithful (hrun : Runs step Any {} actions s) :
    s.delivered <+: s.enqueued ∧
      (∀ batch ∈ s.sent,
        1 ≤ batch.events.length ∧ batch.events.length ≤ ingestBatchMaxEvents) ∧
      (.refuse ∈ actions → s.stopRequested) ∧
      (.refuse ∉ actions → s.voxClosed → s.senderClosed ∧ s.delivered = s.enqueued) ∧
      (s.senderClosed → ∀ later s', Runs step Any s later s' →
        later.length ≤ s.rank ∧
          ((s'.forwarder = .done ∧ s'.voxClosed) ∨ ∃ s'', step s' .forward = some s'')) := by
  have hforwards := forwards_of_runs hrun
  have hrefused : s.refused = true ↔ .refuse ∈ actions := by
    rw [refused_iff hrun]
    simp
  refine ⟨hforwards.delivered, hforwards.sizes, ?_, ?_, ?_⟩
  · intro hmem
    exact hforwards.stopped (hrefused.mpr hmem)
  · intro hmem hvox
    have hunrefused : s.refused = false := by
      apply Bool.eq_false_of_not_eq_true
      intro htrue
      exact hmem (hrefused.mp htrue)
    have hended := hforwards.ended (hforwards.voxClosed hvox) hunrefused
    exact ⟨hended.1, hended.2.symm⟩
  · intro hclosed later s' hlater
    refine ⟨length_le_rank hclosed hlater, ?_⟩
    have hforwards' := forwards_of_runs (hrun.append hlater)
    have hclosed' : s'.senderClosed = true :=
      hlater.invariant (p := fun s => s.senderClosed = true)
        (fun _ _ _ hclosed _ hstep => (rank_step hclosed hstep).1) hclosed
    by_cases hdone : s'.forwarder = .done
    · exact Or.inl ⟨hdone, hforwards'.done hdone⟩
    · exact Or.inr (exists_forward hclosed' hdone)

/-- Two events, of which the second comes while the first is in the batch; then the sender is
closed and the forwarder ends. -/
def twoThenClosed : List Action :=
  [.enqueueEvent (.targetAttached 1 0), .forward, .enqueueEvent (.threadName 1 2 "main"), .forward,
    .closeSender, .forward, .forward, .forward, .forward, .forward]

theorem forward_events_faithful_twoThenClosed :
    ∃ s, Runs step Any {} twoThenClosed s ∧ s.sent.length = 1 ∧ s.voxClosed ∧
      s.delivered = s.enqueued ∧ s.enqueued.length = 2 := by
  have hexists : ∃ s, Runs step Any {} twoThenClosed s ∧ s.sent.length = 1 ∧ s.voxClosed ∧
      s.enqueued.length = 2 :=
    exists_runs_of_runIf (by decide)
  obtain ⟨s, hrun, hone, hvox, htwo⟩ := hexists
  have hall := (forward_events_faithful hrun).2.2.2.1 (by decide) hvox
  exact ⟨s, hrun, hone, hvox, hall.2, htwo⟩

end IngestSink

end Stax.Recorder
