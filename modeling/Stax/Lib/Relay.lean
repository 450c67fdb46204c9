/-
# Stax.Lib.Relay — messages passed on from channel to channel.

A channel is known by what has happened to it.  What it answers next, whether it takes a message and
what its receiver gets, is left to a transport, which is a parameter.  A message that is still on its
way, or a sender who waits for room, is a step that has not been taken yet.

Of a transport this is assumed and no more (`Transport.Documented`): messages are received in the order
in which they were sent, each once at most; as long as the connection holds, a receiver who has to wait
or hears that no more will come has got all there was, and hears of the end once the last sender has
gone; a channel fails, or refuses a message, only when its receiver has gone or its connection is lost.
How much is lost with a connection is left open.

A relay receives from one channel and sends into the next, and may send a last message of its own where
its input ends.  A chain is a row of channels with a relay between each two.  The relays, the producers
at one end and the consumer at the other take their steps in any order.
-/
import Stax.Lib.Machine

namespace Stax.Lib.Relay

open Stax.Lib.Machine

variable {β γ : Type*}

/-! ## Channels -/

/-- What can happen to a channel between a sender and a receiver. -/
inductive Event (β : Type*)
  | sent (x : β)
  | received (x : β)
  /-- No sender is left. -/
  | closed
  /-- The receiver has gone away. -/
  | dropped
  /-- The connection is lost, in a way that the number tells the transport. -/
  | lost (kept : ℕ)
  deriving DecidableEq, Repr

/-- A channel, given by all that has happened to it; what it does next is for its transport to say.
-/
structure Channel (β : Type*) where
  /-- What has happened, the newest first. -/
  past : List (Event β) := []
  deriving DecidableEq, Repr

/-- What a receiver learns from a channel: a message, that there are no more, or that it is broken.
-/
inductive Received (β : Type*)
  | item (x : β)
  | closed
  | failed
  deriving DecidableEq, Repr

namespace Channel

/-- One more thing has happened. -/
def push (c : Channel β) (e : Event β) : Channel β := ⟨e :: c.past⟩

/-- The messages sent in a past, the oldest first. -/
def sentIn : List (Event β) → List β
  | [] => []
  | .sent x :: past => sentIn past ++ [x]
  | _ :: past => sentIn past

/-- The messages received in a past, the oldest first. -/
def receivedIn : List (Event β) → List β
  | [] => []
  | .received x :: past => receivedIn past ++ [x]
  | _ :: past => receivedIn past

/-- In this past the last sender has gone away. -/
def closedIn : List (Event β) → Bool
  | [] => false
  | .closed :: _ => true
  | _ :: past => closedIn past

/-- In this past the receiver has gone away, or the connection was lost. -/
def severedIn : List (Event β) → Bool
  | [] => false
  | .dropped :: _ | .lost _ :: _ => true
  | _ :: past => severedIn past

/-- What was sent without an error. -/
def sent (c : Channel β) : List β := sentIn c.past

/-- What the receiver has got, the oldest first. -/
def received (c : Channel β) : List β := receivedIn c.past

/-- No sender is left. -/
def closed (c : Channel β) : Bool := closedIn c.past

/-- The receiver has gone away, or the connection is lost. -/
def severed (c : Channel β) : Bool := severedIn c.past

/-- All that will ever be sent has been received. -/
def Finished (c : Channel β) : Prop := c.closed = true ∧ c.received = c.sent

end Channel

/-! ## Transports -/

/-- How channels answer, given what has happened to them. -/
structure Transport (β : Type*) where
  takes : Channel β → β → Bool
  /-- What the receiver gets; nothing where it has to wait. -/
  gives : Channel β → Option (Received β)

namespace Transport

/-- A message is sent, where the transport takes it. -/
def send (V : Transport β) (c : Channel β) (x : β) : Option (Channel β) :=
  if V.takes c x then some (c.push (.sent x)) else none

/-- Such a past comes up: what was sent had been taken, what was received had been given. -/
def ShownIn (V : Transport β) : List (Event β) → Prop
  | [] => True
  | .sent x :: past => V.takes ⟨past⟩ x = true ∧ V.ShownIn past
  | .received x :: past => V.gives ⟨past⟩ = some (.item x) ∧ V.ShownIn past
  | _ :: past => V.ShownIn past

/-- The channel comes up with this transport. -/
def Shown (V : Transport β) (c : Channel β) : Prop := V.ShownIn c.past

/-- What is assumed of a transport, on the channels that come up with it. -/
structure Documented (V : Transport β) : Prop where
  order : ∀ c x, V.Shown c → V.gives c = some (.item x) → c.received ++ [x] <+: c.sent
  complete : ∀ c, V.Shown c → c.severed = false → V.gives c = none ∨ V.gives c = some .closed →
    c.received = c.sent
  closes : ∀ c, V.Shown c → c.severed = false → V.gives c = some .closed → c.closed = true
  ends : ∀ c, V.Shown c → c.closed = true → V.gives c ≠ none
  fails : ∀ c, V.Shown c → V.gives c = some .failed → c.severed = true
  takes : ∀ c x, V.Shown c → c.closed = false → V.takes c x = false → c.severed = true

variable {V : Transport β} {c c' : Channel β} {x : β}

theorem send_cases (h : V.send c x = some c') : V.takes c x = true ∧ c' = c.push (.sent x) := by
  rw [send] at h
  split at h
  · rename_i htakes
    exact ⟨htakes, (Option.some_inj.mp h).symm⟩
  · simp at h

theorem send_eq_none_iff : V.send c x = none ↔ V.takes c x = false := by
  rw [send]
  split_ifs with htakes <;> simp [htakes]

theorem Shown.send (h : V.Shown c) (hsend : V.send c x = some c') : V.Shown c' := by
  obtain ⟨htakes, rfl⟩ := send_cases hsend
  exact ⟨htakes, h⟩

theorem Shown.receive (h : V.Shown c) (hgives : V.gives c = some (.item x)) :
    V.Shown (c.push (.received x)) :=
  ⟨hgives, h⟩

/-- What has been received is the beginning of what has been sent. -/
theorem Documented.received_isPrefix (hV : V.Documented) (h : V.Shown c) :
    c.received <+: c.sent := by
  obtain ⟨past⟩ := c
  induction past with
  | nil => exact List.prefix_rfl
  | cons e past ih =>
      cases e with
      | sent x => exact (ih h.2).trans (List.prefix_append _ _)
      | received x => exact hV.order ⟨past⟩ x h.2 h.1
      | closed => exact ih h
      | dropped => exact ih h
      | lost kept => exact ih h

/-- A receiver who hears that no more will come has got all that will ever be sent. -/
theorem Documented.finished (hV : V.Documented) (h : V.Shown c) (hholds : c.severed = false)
    (hgives : V.gives c = some .closed) : c.Finished :=
  ⟨hV.closes c h hholds hgives, hV.complete c h hholds (Or.inr hgives)⟩

/-! ### A queue -/

/-- What a queue still holds: nothing gets in any more once the connection is lost. -/
def queued : List (Event β) → List β
  | [] => []
  | .sent x :: past => if Channel.severedIn past then queued past else queued past ++ [x]
  | .received _ :: past => (queued past).tail
  | .closed :: past => queued past
  | .dropped :: _ => []
  | .lost kept :: past => (queued past).take kept

/-- The sender of a queue learns of a receiver that has gone at once, of a lost connection when it is
lost once more. -/
def refused : List (Event β) → Bool
  | [] => false
  | .dropped :: _ => true
  | .lost _ :: past => Channel.severedIn past
  | _ :: past => refused past

/-- A transport: an unbounded queue. -/
def queue (β : Type*) : Transport β where
  takes c _ := !refused c.past
  gives c :=
    match queued c.past with
    | x :: _ => some (.item x)
    | [] => if c.severed then some .failed else if c.closed then some .closed else none

theorem gives_queue_item (h : (queue β).gives c = some (.item x)) :
    ∃ rest, queued c.past = x :: rest := by
  simp only [queue] at h
  split at h
  · rename_i y rest hqueued
    obtain rfl := Received.item.inj (Option.some_inj.mp h)
    exact ⟨rest, hqueued⟩
  · split_ifs at h <;> simp at h

/-- Where a queue gives no message it is empty, and says how it is closed. -/
theorem gives_queue_end {got : Option (Received β)} (h : (queue β).gives c = got)
    (hnot : ∀ x, got ≠ some (.item x)) :
    queued c.past = [] ∧
      got = if c.severed then some .failed else if c.closed then some .closed else none := by
  subst h
  cases hqueued : queued c.past with
  | cons x rest => exact absurd (by simp [queue, hqueued]) (hnot x)
  | nil => exact ⟨rfl, by simp [queue, hqueued]⟩

theorem severed_of_refused {past : List (Event β)} (h : refused past = true) :
    Channel.severedIn past = true := by
  induction past with
  | nil => simp [refused] at h
  | cons e past ih =>
      cases e with
      | sent x => exact ih h
      | received x => exact ih h
      | closed => exact ih h
      | dropped => rfl
      | lost kept => rfl

/-- What was received and what is queued went in in this order, before anything else; nothing else went
in where the connection holds. -/
theorem received_append_queued (h : (queue β).Shown c) :
    c.received ++ queued c.past <+: c.sent ∧
      (c.severed = false → c.received ++ queued c.past = c.sent) := by
  obtain ⟨past⟩ := c
  induction past with
  | nil => exact ⟨List.prefix_rfl, fun _ => rfl⟩
  | cons e past ih =>
      cases e with
      | sent x =>
          obtain ⟨hbefore, hwhole⟩ := ih h.2
          show Channel.receivedIn past ++ (if Channel.severedIn past then queued past
              else queued past ++ [x]) <+: Channel.sentIn past ++ [x] ∧
            (Channel.severedIn past = false → Channel.receivedIn past ++
              (if Channel.severedIn past then queued past else queued past ++ [x]) =
                Channel.sentIn past ++ [x])
          cases hsevered : Channel.severedIn past with
          | true => exact ⟨hbefore.trans (List.prefix_append _ _), fun hholds => by simp at hholds⟩
          | false =>
              have hall : Channel.receivedIn past ++ (queued past ++ [x]) =
                  Channel.sentIn past ++ [x] := by
                rw [← List.append_assoc]
                exact congrArg (· ++ [x]) (hwhole hsevered)
              exact ⟨hall ▸ List.prefix_rfl, fun _ => hall⟩
      | received x =>
          obtain ⟨rest, hqueued⟩ := gives_queue_item h.1
          have hqueued : queued past = x :: rest := hqueued
          have hsame : Channel.receivedIn past ++ [x] ++ (queued past).tail =
              Channel.receivedIn past ++ queued past := by
            rw [hqueued, List.append_assoc]
            rfl
          obtain ⟨hbefore, hwhole⟩ := ih h.2
          exact ⟨hsame ▸ hbefore, fun hholds => hsame.trans (hwhole hholds)⟩
      | closed => exact ih h
      | dropped =>
          refine ⟨?_, fun hholds => absurd hholds (by simp [Channel.severed, Channel.severedIn])⟩
          show Channel.receivedIn past ++ [] <+: Channel.sentIn past
          rw [List.append_nil]
          exact (List.prefix_append _ _).trans (ih h).1
      | lost kept =>
          refine ⟨?_, fun hholds => absurd hholds (by simp [Channel.severed, Channel.severedIn])⟩
          show Channel.receivedIn past ++ (queued past).take kept <+: Channel.sentIn past
          exact ((List.prefix_append_right_inj _).mpr (List.take_prefix _ _)).trans (ih h).1

/-- A plain queue does what is assumed of a transport. -/
theorem documented_queue (β : Type*) : (queue β).Documented where
  order := by
    intro c x h hgives
    obtain ⟨rest, hqueued⟩ := gives_queue_item hgives
    refine List.IsPrefix.trans ?_ (received_append_queued h).1
    rw [hqueued, List.prefix_append_right_inj]
    exact List.prefix_append [x] rest
  complete := by
    intro c h hholds hgives
    have hnil : queued c.past = [] := by
      rcases hgives with hgives | hgives <;> exact (gives_queue_end hgives (by simp)).1
    rw [← (received_append_queued h).2 hholds, hnil, List.append_nil]
  closes := by
    intro c _ hholds hgives
    obtain ⟨-, hend⟩ := gives_queue_end hgives (by simp)
    cases hclosed : c.closed with
    | true => rfl
    | false => simp [hholds, hclosed] at hend
  ends := by
    intro c _ hclosed hgives
    obtain ⟨-, hend⟩ := gives_queue_end hgives (by simp)
    cases hsevered : c.severed <;> simp [hsevered, hclosed] at hend
  fails := by
    intro c _ hgives
    obtain ⟨-, hend⟩ := gives_queue_end hgives (by simp)
    cases hsevered : c.severed with
    | true => rfl
    | false => cases hclosed : c.closed <;> simp [hsevered, hclosed] at hend
  takes := fun _ _ _ _ htakes => severed_of_refused (by simpa [queue] using htakes)

end Transport

/-! ## Relays -/

/-- What a relay sends last where its input is closed, and where it fails. -/
structure Ends (β : Type*) where
  onClosed : Option β := none
  onFailed : Option β := none

/-- The relay may send such a message at the end of its input. -/
def Ends.Last (ends : Ends β) (m : β) : Prop := ends.onClosed = some m ∨ ends.onFailed = some m

/-- Where a relay is: waiting for a message, passing one on, sending its last one, or done. -/
inductive Phase (β : Type*)
  | recv
  | send (x : β)
  | last (m : β)
  | ended
  deriving DecidableEq, Repr

/-- A relay at the end of its input. -/
def atEnd (m? : Option β) (input output : Channel β) : Phase β × Channel β × Channel β :=
  match m? with
  | some m => (.last m, input, output)
  | none => (.ended, input.push .dropped, output.push .closed)

/-- A relay's step between a channel of one transport and a channel of another. -/
def relayStep (V W : Transport β) (ends : Ends β) (phase : Phase β) (input output : Channel β) :
    Option (Phase β × Channel β × Channel β) :=
  match phase with
  | .recv =>
    match V.gives input with
    | none => none
    | some (.item x) => some (.send x, input.push (.received x), output)
    | some .closed => some (atEnd ends.onClosed input output)
    | some .failed => some (atEnd ends.onFailed input output)
  | .send x =>
    match W.send output x with
    | some output => some (.recv, input, output)
    | none => some (.ended, input.push .dropped, output.push .closed)
  | .last m => some (.ended, input.push .dropped, ((W.send output m).getD output).push .closed)
  | .ended => none

section relays

variable {V W : Transport β} {ends : Ends β} {phase phase' : Phase β}
  {input input' output output' : Channel β}

/-- The input of a relay has come to its end. -/
def AtEnd (V : Transport β) (ends : Ends β) (input : Channel β) (m? : Option β) : Prop :=
  V.gives input = some .failed ∧ m? = ends.onFailed ∨
    V.gives input = some .closed ∧ m? = ends.onClosed

/-- All that a relay's step can do, by its phase and by what the two transports answer. -/
theorem relayStep_cases
    (h : relayStep V W ends phase input output = some (phase', input', output')) :
    (∃ x, phase = .recv ∧ V.gives input = some (.item x) ∧ phase' = .send x ∧
        input' = input.push (.received x) ∧ output' = output) ∨
      (∃ m, phase = .recv ∧ AtEnd V ends input (some m) ∧ phase' = .last m ∧ input' = input ∧
        output' = output) ∨
      (phase = .recv ∧ AtEnd V ends input none ∧ phase' = .ended ∧ input' = input.push .dropped ∧
        output' = output.push .closed) ∨
      (∃ x, phase = .send x ∧ W.send output x = some output' ∧ phase' = .recv ∧ input' = input) ∨
      (∃ x, phase = .send x ∧ W.takes output x = false ∧ phase' = .ended ∧
        input' = input.push .dropped ∧ output' = output.push .closed) ∨
      ∃ m, phase = .last m ∧ phase' = .ended ∧ input' = input.push .dropped ∧
        output' = ((W.send output m).getD output).push .closed := by
  -- at the end of the input a relay either has a last message or is done
  have hend : ∀ m?, AtEnd V ends input m? → atEnd m? input output = (phase', input', output') →
      (∃ m, AtEnd V ends input (some m) ∧ phase' = .last m ∧ input' = input ∧
          output' = output) ∨
        (AtEnd V ends input none ∧ phase' = .ended ∧ input' = input.push .dropped ∧
          output' = output.push .closed) := by
    intro m? hatEnd heq
    cases m? with
    | some m =>
        simp only [atEnd, Prod.mk.injEq] at heq
        exact Or.inl ⟨m, hatEnd, heq.1.symm, heq.2.1.symm, heq.2.2.symm⟩
    | none =>
        simp only [atEnd, Prod.mk.injEq] at heq
        exact Or.inr ⟨hatEnd, heq.1.symm, heq.2.1.symm, heq.2.2.symm⟩
  cases phase with
  | recv =>
      simp only [relayStep] at h
      cases hgives : V.gives input with
      | none => simp [hgives] at h
      | some got =>
          cases got with
          | item x =>
              simp only [hgives, Option.some_inj, Prod.mk.injEq] at h
              exact Or.inl ⟨x, rfl, rfl, h.1.symm, h.2.1.symm, h.2.2.symm⟩
          | closed =>
              simp only [hgives, Option.some_inj] at h
              rcases hend _ (Or.inr ⟨hgives, rfl⟩) h with ⟨m, hm⟩ | hnone
              · exact Or.inr (Or.inl ⟨m, rfl, hm⟩)
              · exact Or.inr (Or.inr (Or.inl ⟨rfl, hnone⟩))
          | failed =>
              simp only [hgives, Option.some_inj] at h
              rcases hend _ (Or.inl ⟨hgives, rfl⟩) h with ⟨m, hm⟩ | hnone
              · exact Or.inr (Or.inl ⟨m, rfl, hm⟩)
              · exact Or.inr (Or.inr (Or.inl ⟨rfl, hnone⟩))
  | send x =>
      simp only [relayStep] at h
      cases hsend : W.send output x with
      | some sent =>
          simp only [hsend, Option.some_inj, Prod.mk.injEq] at h
          obtain ⟨rfl, rfl, rfl⟩ := h
          exact Or.inr (Or.inr (Or.inr (Or.inl ⟨x, rfl, hsend, rfl, rfl⟩)))
      | none =>
          simp only [hsend, Option.some_inj, Prod.mk.injEq] at h
          exact Or.inr (Or.inr (Or.inr (Or.inr (Or.inl ⟨x, rfl,
            Transport.send_eq_none_iff.mp hsend, h.1.symm, h.2.1.symm, h.2.2.symm⟩))))
  | last m =>
      simp only [relayStep, Option.some_inj, Prod.mk.injEq] at h
      exact Or.inr (Or.inr (Or.inr (Or.inr (Or.inr
        ⟨m, rfl, h.1.symm, h.2.1.symm, h.2.2.symm⟩))))
  | ended => simp [relayStep] at h

/-- What a relay has sent, against what it has received. -/
def Linked (ends : Ends β) : Phase β → List β → List β → Prop
  | .recv, received, sent => sent = received
  | .send x, received, sent => sent ++ [x] = received
  | .last m, received, sent => sent = received ∧ ends.Last m
  | .ended, received, sent => sent <+: received ∨ ∃ m, ends.Last m ∧ sent = received ++ [m]

/-- A relay has sent the first of what it has received, or all of it and a word of its own. -/
theorem Linked.sent_cases {received sent : List β} (h : Linked ends phase received sent) :
    sent <+: received ∨ ∃ m, ends.Last m ∧ sent = received ++ [m] := by
  cases phase with
  | recv =>
      obtain rfl : sent = received := h
      exact Or.inl List.prefix_rfl
  | send x =>
      obtain rfl : sent ++ [x] = received := h
      exact Or.inl (List.prefix_append _ _)
  | last m =>
      obtain ⟨rfl, -⟩ := h
      exact Or.inl List.prefix_rfl
  | ended => exact h

theorem AtEnd.last {m : β} (h : AtEnd V ends input (some m)) : ends.Last m := by
  rcases h with ⟨-, hm⟩ | ⟨-, hm⟩
  · exact Or.inr hm.symm
  · exact Or.inl hm.symm

/-- What becomes of a relay's channels in a step, seen from their other ends. -/
theorem relayStep_frame
    (h : relayStep V W ends phase input output = some (phase', input', output')) :
    input'.sent = input.sent ∧ input'.closed = input.closed ∧
      output'.received = output.received := by
  rcases relayStep_cases h with ⟨x, -, -, -, rfl, rfl⟩ | ⟨m, -, -, -, rfl, rfl⟩ |
    ⟨-, -, -, rfl, rfl⟩ | ⟨x, -, hsend, -, rfl⟩ | ⟨x, -, -, -, rfl, rfl⟩ | ⟨m, -, -, rfl, rfl⟩
  · exact ⟨rfl, rfl, rfl⟩
  · exact ⟨rfl, rfl, rfl⟩
  · exact ⟨rfl, rfl, rfl⟩
  · obtain ⟨-, rfl⟩ := Transport.send_cases hsend
    exact ⟨rfl, rfl, rfl⟩
  · exact ⟨rfl, rfl, rfl⟩
  · cases hsend : W.send output m with
    | none => exact ⟨rfl, rfl, rfl⟩
    | some sent =>
        obtain ⟨-, rfl⟩ := Transport.send_cases hsend
        exact ⟨rfl, rfl, rfl⟩

theorem shown_relayStep
    (h : relayStep V W ends phase input output = some (phase', input', output'))
    (hinput : V.Shown input) (houtput : W.Shown output) : V.Shown input' ∧ W.Shown output' := by
  rcases relayStep_cases h with ⟨x, -, hgives, -, rfl, rfl⟩ | ⟨m, -, -, -, rfl, rfl⟩ |
    ⟨-, -, -, rfl, rfl⟩ | ⟨x, -, hsend, -, rfl⟩ | ⟨x, -, -, -, rfl, rfl⟩ | ⟨m, -, -, rfl, rfl⟩
  · exact ⟨hinput.receive hgives, houtput⟩
  · exact ⟨hinput, houtput⟩
  · exact ⟨hinput, houtput⟩
  · exact ⟨hinput, houtput.send hsend⟩
  · exact ⟨hinput, houtput⟩
  · cases hsend : W.send output m with
    | none => exact ⟨hinput, houtput⟩
    | some sent =>
        have hsent : W.Shown sent := houtput.send hsend
        exact ⟨hinput, hsent⟩

/-- A relay's step keeps what it has sent a beginning of what it has received, with its last word
behind. -/
theorem linked_relayStep
    (h : relayStep V W ends phase input output = some (phase', input', output'))
    (hlinked : Linked ends phase input.received output.sent) :
    Linked ends phase' input'.received output'.sent := by
  rcases relayStep_cases h with ⟨x, rfl, -, rfl, rfl, rfl⟩ |
    ⟨m, rfl, hatEnd, rfl, rfl, rfl⟩ | ⟨rfl, -, rfl, rfl, rfl⟩ | ⟨x, rfl, hsend, rfl, rfl⟩ |
    ⟨x, rfl, -, rfl, rfl, rfl⟩ | ⟨m, rfl, rfl, rfl, rfl⟩
  · show output'.sent ++ [x] = input.received ++ [x]
    rw [show output'.sent = input.received from hlinked]
  · exact ⟨hlinked, hatEnd.last⟩
  · have hsame : output.sent = input.received := hlinked
    exact Or.inl (hsame ▸ List.prefix_rfl)
  · obtain ⟨-, rfl⟩ := Transport.send_cases hsend
    exact hlinked
  · have hone : output.sent ++ [x] = input.received := hlinked
    exact Or.inl (hone ▸ List.prefix_append _ _)
  · obtain ⟨hsame, hlast⟩ := hlinked
    cases hsend : W.send output m with
    | none => exact Or.inl (hsame ▸ List.prefix_rfl)
    | some sent =>
        obtain ⟨-, rfl⟩ := Transport.send_cases hsend
        refine Or.inr ⟨m, hlast, ?_⟩
        show output.sent ++ [m] = input.received ++ [m]
        rw [hsame]

/-- How a relay stands where no connection is lost and what it sends is taken. -/
def Flows (ends : Ends β) : Phase β → Channel β → Channel β → Prop
  | .recv, input, output | .send _, input, output =>
    input.severed = false ∧ output.closed = false
  | .last m, input, output =>
    (input.severed = false ∧ output.closed = false) ∧ input.Finished ∧ ends.onClosed = some m
  | .ended, input, output =>
    output.closed = true ∧ input.Finished ∧
      output.sent = input.received ++ ends.onClosed.toList

theorem Flows.output_congr (h : Flows ends phase input output)
    (hclosed : output'.closed = output.closed) (hsent : output'.sent = output.sent) :
    Flows ends phase input output' := by
  cases phase <;> simp only [Flows, hclosed, hsent] at h ⊢ <;> exact h

/-- An input that is still open may change as long as it holds. -/
theorem Flows.input_congr (h : Flows ends phase input output) (hopen : input.closed = false)
    (hsevered : input'.severed = input.severed) : Flows ends phase input' output := by
  cases phase with
  | recv | send x =>
      simp only [Flows, hsevered] at h ⊢
      exact h
  | last m => exact absurd (hopen.symm.trans h.2.1.1) (by decide)
  | ended => exact absurd (hopen.symm.trans h.2.1.1) (by decide)

theorem Flows.input_close (h : Flows ends phase input output) :
    Flows ends phase (input.push .closed) output := by
  cases phase with
  | recv | send x => exact h
  | last m => exact ⟨h.1, ⟨rfl, h.2.1.2⟩, h.2.2⟩
  | ended => exact ⟨h.1, ⟨rfl, h.2.1.2⟩, h.2.2⟩

/-- A relay that takes a step has not closed its output yet. -/
theorem Flows.open_of_relayStep (hflows : Flows ends phase input output)
    (h : relayStep V W ends phase input output = some (phase', input', output')) :
    output.closed = false := by
  cases phase with
  | recv | send x => exact hflows.2
  | last m => exact hflows.1.2
  | ended => simp [relayStep] at h

/-- Where the input holds, its end is heard of when all has been received, and it is no failure. -/
theorem AtEnd.finished {m? : Option β} (h : AtEnd V ends input m?) (hV : V.Documented)
    (hinput : V.Shown input) (hholds : input.severed = false) :
    input.Finished ∧ m? = ends.onClosed := by
  rcases h with ⟨hgives, -⟩ | ⟨hgives, hm⟩
  · exact absurd (hholds.symm.trans (hV.fails input hinput hgives)) (by decide)
  · exact ⟨hV.finished hinput hholds hgives, hm⟩

/-- A relay whose output is taken passes everything on, and closes its output only at the end. -/
theorem flows_relayStep
    (h : relayStep V W ends phase input output = some (phase', input', output'))
    (hflows : Flows ends phase input output) (hlinked : Linked ends phase input.received output.sent)
    (hV : V.Documented) (hW : W.Documented) (hinput : V.Shown input) (houtput : W.Shown output)
    (hholds : output.severed = false) :
    Flows ends phase' input' output' ∧ output'.severed = false ∧ input'.closed = input.closed := by
  have hopen := hflows.open_of_relayStep h
  rcases relayStep_cases h with ⟨x, rfl, -, rfl, rfl, rfl⟩ |
    ⟨m, rfl, hatEnd, rfl, rfl, rfl⟩ | ⟨rfl, hatEnd, rfl, rfl, rfl⟩ | ⟨x, rfl, hsend, rfl, rfl⟩ |
    ⟨x, rfl, hrefuses, rfl, rfl, rfl⟩ | ⟨m, rfl, rfl, rfl, rfl⟩
  · exact ⟨hflows, hholds, rfl⟩
  · obtain ⟨hfinished, hm⟩ := hatEnd.finished hV hinput hflows.1
    exact ⟨⟨hflows, hfinished, hm.symm⟩, hholds, rfl⟩
  · obtain ⟨hfinished, hm⟩ := hatEnd.finished hV hinput hflows.1
    refine ⟨⟨rfl, hfinished, ?_⟩, hholds, rfl⟩
    rw [← hm, Option.toList_none, List.append_nil]
    exact hlinked
  · obtain ⟨-, rfl⟩ := Transport.send_cases hsend
    exact ⟨hflows, hholds, rfl⟩
  · have hsevered := hW.takes output x houtput hopen hrefuses
    exact absurd (hsevered.symm.trans hholds) (by decide)
  · obtain ⟨-, hfinished, hm⟩ := hflows
    obtain ⟨sent, hsend⟩ : ∃ sent, W.send output m = some sent := by
      rw [← Option.ne_none_iff_exists', ne_eq, Transport.send_eq_none_iff]
      intro hrefuses
      exact absurd (hholds.symm.trans (hW.takes output m houtput hopen hrefuses)) (by decide)
    rw [hsend]
    obtain ⟨-, rfl⟩ := Transport.send_cases hsend
    refine ⟨⟨rfl, hfinished, ?_⟩, hholds, rfl⟩
    show output.sent ++ [m] = input.received ++ ends.onClosed.toList
    rw [hm, hlinked.1, Option.toList_some]

end relays

/-! ## Chains -/

/-- Channels one behind the other, with a relay between any two neighbours. -/
structure Chain (n : ℕ) (β : Type*) where
  channel : Fin (n + 1) → Channel β
  phase : Fin n → Phase β

/-- What can happen to a chain: at its two ends, at a relay, or to a connection. -/
inductive Action (n : ℕ) (β : Type*)
  /-- A producer sends a message, and the last one goes away. -/
  | send (x : β)
  | close
  | relay (i : Fin n)
  /-- The consumer receives a message, and goes away. -/
  | receive
  | leave
  | lose (i : Fin (n + 1)) (kept : ℕ)
  deriving DecidableEq, Repr

/-- No connection is lost. -/
def Action.Holds {n : ℕ} : Action n β → Prop
  | .lose _ _ => False
  | _ => True

namespace Chain

variable {n : ℕ}

/-- A chain that nothing has gone into yet. -/
def empty (n : ℕ) (β : Type*) : Chain n β where
  channel := fun _ => {}
  phase := fun _ => .recv

/-- The channel that the producers send into. -/
def first (s : Chain n β) : Channel β := s.channel 0

/-- The channel that the consumer receives from. -/
def last (s : Chain n β) : Channel β := s.channel (Fin.last n)

/-- One of the channels is replaced. -/
def set (s : Chain n β) (k : Fin (n + 1)) (c : Channel β) : Chain n β :=
  { s with channel := Function.update s.channel k c }

/-- Something happens to a channel. -/
def push (s : Chain n β) (k : Fin (n + 1)) (e : Event β) : Chain n β :=
  s.set k ((s.channel k).push e)

/-- The last producer goes away. -/
def closeFirst (s : Chain n β) : Chain n β := s.push 0 .closed

/-- The consumer goes away. -/
def dropLast (s : Chain n β) : Chain n β := s.push (Fin.last n) .dropped

/-- What a relay's step leaves. -/
def relayed (s : Chain n β) (i : Fin n) (phase : Phase β) (input output : Channel β) : Chain n β :=
  { (s.set i.castSucc input).set i.succ output with phase := Function.update s.phase i phase }

variable (V : Fin (n + 1) → Transport β) (ends : Fin n → Ends β)

/-- What an action does to a chain, where it can happen at all. -/
def step (s : Chain n β) : Action n β → Option (Chain n β)
  | .send x => if s.first.closed then none else ((V 0).send s.first x).map (s.set 0)
  | .close => some s.closeFirst
  | .relay i =>
    (relayStep (V i.castSucc) (V i.succ) (ends i) (s.phase i) (s.channel i.castSucc)
      (s.channel i.succ)).map fun (phase, input, output) => s.relayed i phase input output
  | .receive =>
    match (V (Fin.last n)).gives s.last with
    | some (.item x) => some (s.push (Fin.last n) (.received x))
    | _ => none
  | .leave => some s.dropLast
  | .lose i kept => some (s.push i (.lost kept))

/-- `let _ = tx.send(..)`: whether the message is taken is not looked at. -/
def trySend (s : Chain n β) (x : β) : Chain n β := (s.step V ends (.send x)).getD s

/-- The first channel closes with its last sender. -/
def closeUnless (s : Chain n β) (senders : Bool) : Chain n β :=
  if senders then s else s.closeFirst

variable {V ends} {s s' : Chain n β} {action : Action n β} {actions : List (Action n β)}

@[simp] theorem phase_set (k : Fin (n + 1)) (c : Channel β) : (s.set k c).phase = s.phase := rfl

@[simp] theorem channel_set_self (k : Fin (n + 1)) (c : Channel β) : (s.set k c).channel k = c :=
  Function.update_self ..

theorem channel_set_of_ne {k j : Fin (n + 1)} (c : Channel β) (h : j ≠ k) :
    (s.set k c).channel j = s.channel j :=
  Function.update_of_ne h ..

/-- What does not change in a channel does not change in the chain. -/
theorem map_channel_set {δ : Type*} (f : Channel β → δ) {k : Fin (n + 1)} {c : Channel β}
    (hc : f c = f (s.channel k)) (i : Fin (n + 1)) : f ((s.set k c).channel i) = f (s.channel i) := by
  by_cases hi : i = k
  · rw [hi, channel_set_self, hc]
  · rw [channel_set_of_ne c hi]

theorem sent_push {k : Fin (n + 1)} {e : Event β} (he : ∀ x, e ≠ .sent x) (i : Fin (n + 1)) :
    ((s.push k e).channel i).sent = (s.channel i).sent := by
  refine map_channel_set Channel.sent ?_ i
  cases e with
  | sent x => exact absurd rfl (he x)
  | received x => rfl
  | closed => rfl
  | dropped => rfl
  | lost kept => rfl

theorem received_push {k : Fin (n + 1)} {e : Event β} (he : ∀ x, e ≠ .received x)
    (i : Fin (n + 1)) : ((s.push k e).channel i).received = (s.channel i).received := by
  refine map_channel_set Channel.received ?_ i
  cases e with
  | sent x => rfl
  | received x => exact absurd rfl (he x)
  | closed => rfl
  | dropped => rfl
  | lost kept => rfl

theorem closed_push {k : Fin (n + 1)} {e : Event β} (he : e ≠ .closed) (i : Fin (n + 1)) :
    ((s.push k e).channel i).closed = (s.channel i).closed := by
  refine map_channel_set Channel.closed ?_ i
  cases e with
  | sent x => rfl
  | received x => rfl
  | closed => exact absurd rfl he
  | dropped => rfl
  | lost kept => rfl

/-- All that a step of a chain can do, by the channel or the relay it concerns. -/
theorem step_cases (h : step V ends s action = some s') :
    (∃ x, action = .send x ∧ s.first.closed = false ∧ (V 0).takes s.first x = true ∧
        s' = s.push 0 (.sent x)) ∨
      (action = .close ∧ s' = s.push 0 .closed) ∨
      (∃ i phase input output, action = .relay i ∧
        relayStep (V i.castSucc) (V i.succ) (ends i) (s.phase i) (s.channel i.castSucc)
          (s.channel i.succ) = some (phase, input, output) ∧
        s' = s.relayed i phase input output) ∨
      (∃ x, action = .receive ∧ (V (Fin.last n)).gives s.last = some (.item x) ∧
        s' = s.push (Fin.last n) (.received x)) ∨
      (action = .leave ∧ s' = s.push (Fin.last n) .dropped) ∨
      ∃ i kept, action = .lose i kept ∧ s' = s.push i (.lost kept) := by
  cases action with
  | send x =>
      simp only [step] at h
      split at h
      · simp at h
      · rename_i hopen
        obtain ⟨c, hc, hs'⟩ := Option.map_eq_some_iff.mp h
        obtain ⟨htakes, rfl⟩ := Transport.send_cases hc
        exact Or.inl ⟨x, rfl, Bool.eq_false_of_not_eq_true hopen, htakes, hs'.symm⟩
  | close => exact Or.inr (Or.inl ⟨rfl, (Option.some_inj.mp h).symm⟩)
  | relay i =>
      obtain ⟨⟨phase, input, output⟩, hrelay, hs'⟩ := Option.map_eq_some_iff.mp h
      exact Or.inr (Or.inr (Or.inl ⟨i, phase, input, output, rfl, hrelay, hs'.symm⟩))
  | receive =>
      simp only [step] at h
      split at h
      · rename_i x hgives
        exact Or.inr (Or.inr (Or.inr (Or.inl
          ⟨x, rfl, hgives, (Option.some_inj.mp h).symm⟩)))
      · simp at h
  | leave =>
      exact Or.inr (Or.inr (Or.inr (Or.inr (Or.inl ⟨rfl, (Option.some_inj.mp h).symm⟩))))
  | lose i kept =>
      exact Or.inr (Or.inr (Or.inr (Or.inr (Or.inr
        ⟨i, kept, rfl, (Option.some_inj.mp h).symm⟩))))

/-- Only what a producer sends goes in at the start. -/
theorem sent_first_step (h : step V ends s action = some s') (hsend : ∀ x, action ≠ .send x) :
    s'.first.sent = s.first.sent := by
  rcases step_cases h with ⟨x, rfl, -⟩ | ⟨-, rfl⟩ | ⟨i, phase, input, output, -, hrelay, rfl⟩ |
    ⟨x, -, -, rfl⟩ | ⟨-, rfl⟩ | ⟨i, kept, -, rfl⟩
  · exact absurd rfl (hsend x)
  · exact sent_push (by simp) 0
  · have hframe := relayStep_frame hrelay
    show (((s.set i.castSucc input).set i.succ output).channel 0).sent = s.first.sent
    rw [channel_set_of_ne output (Fin.succ_ne_zero i).symm]
    exact map_channel_set Channel.sent hframe.1 0
  · exact sent_push (by simp) 0
  · exact sent_push (by simp) 0
  · exact sent_push (by simp) 0

theorem closed_first_step (h : step V ends s action = some s') (hclose : action ≠ .close) :
    s'.first.closed = s.first.closed := by
  rcases step_cases h with ⟨x, -, -, -, rfl⟩ | ⟨rfl, -⟩ |
    ⟨i, phase, input, output, -, hrelay, rfl⟩ | ⟨x, -, -, rfl⟩ | ⟨-, rfl⟩ | ⟨i, kept, -, rfl⟩
  · exact closed_push (by simp) 0
  · exact absurd rfl hclose
  · have hframe := relayStep_frame hrelay
    show (((s.set i.castSucc input).set i.succ output).channel 0).closed = s.first.closed
    rw [channel_set_of_ne output (Fin.succ_ne_zero i).symm]
    exact map_channel_set Channel.closed hframe.2.1 0
  · exact closed_push (by simp) 0
  · exact closed_push (by simp) 0
  · exact closed_push (by simp) 0

theorem sent_first_send {x : β} (h : step V ends s (.send x) = some s') :
    s'.first.sent = s.first.sent ++ [x] := by
  rcases step_cases h with ⟨y, heq, -, -, rfl⟩ | ⟨heq, -⟩ | ⟨_, _, _, _, heq, -⟩ |
    ⟨_, heq, -⟩ | ⟨heq, -⟩ | ⟨_, _, heq, -⟩
  · obtain rfl := Action.send.inj heq
    exact congrArg Channel.sent (channel_set_self 0 _)
  all_goals simp at heq

/-- Only what the consumer receives comes out at the end. -/
theorem received_last_step (h : step V ends s action = some s') (hreceive : action ≠ .receive) :
    s'.last.received = s.last.received := by
  rcases step_cases h with ⟨x, -, -, -, rfl⟩ | ⟨-, rfl⟩ |
    ⟨i, phase, input, output, -, hrelay, rfl⟩ | ⟨x, rfl, -⟩ | ⟨-, rfl⟩ | ⟨i, kept, -, rfl⟩
  · exact received_push (by simp) _
  · exact received_push (by simp) _
  · have hframe := relayStep_frame hrelay
    have hinput : ((s.set i.castSucc input).channel (Fin.last n)).received = s.last.received := by
      rw [channel_set_of_ne input (Fin.castSucc_lt_last i).ne']
      rfl
    refine (map_channel_set (s := s.set i.castSucc input) Channel.received ?_ _).trans hinput
    rw [channel_set_of_ne input Fin.castSucc_lt_succ.ne']
    exact hframe.2.2
  · exact absurd rfl hreceive
  · exact received_push (by simp) _
  · exact received_push (by simp) _

/-- A producer's message is refused by an open channel only where the transport says so. -/
theorem send_eq_none {x : β} (h : step V ends s (.send x) = none)
    (hopen : s.first.closed = false) : (V 0).takes s.first x = false := by
  rw [step, hopen] at h
  exact Transport.send_eq_none_iff.mp (Option.map_eq_none_iff.mp h)

theorem open_of_send {x : β} (h : step V ends s (.send x) = some s') :
    s.first.closed = false := by
  rw [step] at h
  split at h
  · simp at h
  · rename_i hopen
    exact Bool.eq_false_of_not_eq_true hopen

/-- A relay that has ended stays so. -/
theorem ended_step {i : Fin n} (h : step V ends s action = some s') (hended : s.phase i = .ended) :
    s'.phase i = .ended := by
  rcases step_cases h with ⟨x, -, -, -, rfl⟩ | ⟨-, rfl⟩ |
    ⟨j, phase, input, output, -, hrelay, rfl⟩ | ⟨x, -, -, rfl⟩ | ⟨-, rfl⟩ | ⟨j, kept, -, rfl⟩
  · exact hended
  · exact hended
  · show Function.update s.phase j phase i = .ended
    have hne : i ≠ j := by
      rintro rfl
      rw [hended] at hrelay
      simp [relayStep] at hrelay
    rw [Function.update_of_ne hne]
    exact hended
  · exact hended
  · exact hended
  · exact hended

theorem relay_of_ended {i : Fin n} (hended : s.phase i = .ended) :
    step V ends s (.relay i) = none := by
  simp [step, hended, relayStep]

/-- What a producer's message changes at the two ends. -/
theorem send_step {x : β} (h : step V ends s (.send x) = some s') :
    s'.first.sent = s.first.sent ++ [x] ∧ s'.first.closed = s.first.closed ∧
      s'.last.received = s.last.received :=
  ⟨sent_first_send h, closed_first_step h (by simp), received_last_step h (by simp)⟩

theorem receive_last_step (h : step V ends s .receive = some s') :
    ∃ x, (V (Fin.last n)).gives s.last = some (.item x) ∧
      s'.last.received = s.last.received ++ [x] := by
  rcases step_cases h with ⟨_, heq, -⟩ | ⟨heq, -⟩ | ⟨_, _, _, _, heq, -⟩ |
    ⟨x, -, hgives, rfl⟩ | ⟨heq, -⟩ | ⟨_, _, heq, -⟩
  case inr.inr.inr.inl =>
    exact ⟨x, hgives, congrArg Channel.received (channel_set_self _ _)⟩
  all_goals simp at heq

@[simp] theorem sent_first_dropLast (s : Chain n β) : s.dropLast.first.sent = s.first.sent :=
  sent_push (by simp) 0

@[simp] theorem closed_first_dropLast (s : Chain n β) :
    s.dropLast.first.closed = s.first.closed :=
  closed_push (by simp) 0

@[simp] theorem received_last_dropLast (s : Chain n β) :
    s.dropLast.last.received = s.last.received :=
  received_push (by simp) _

/-! ### The senders of the first channel -/

/-- The message is sent, or nothing changes. -/
theorem trySend_cases (V : Fin (n + 1) → Transport β) (ends : Fin n → Ends β) (s : Chain n β)
    (x : β) :
    step V ends s (.send x) = some (s.trySend V ends x) ∨
      step V ends s (.send x) = none ∧ s.trySend V ends x = s := by
  rw [trySend]
  cases step V ends s (.send x) with
  | some s' => exact Or.inl rfl
  | none => exact Or.inr ⟨rfl, rfl⟩

/-- The channel stays as it is or is closed. -/
theorem closeUnless_cases (V : Fin (n + 1) → Transport β) (ends : Fin n → Ends β)
    (s : Chain n β) (senders : Bool) :
    s.closeUnless senders = s ∧ senders = true ∨
      step V ends s .close = some (s.closeUnless senders) ∧ senders = false := by
  cases senders with
  | true => exact Or.inl ⟨rfl, rfl⟩
  | false => exact Or.inr ⟨rfl, rfl⟩

@[simp] theorem sent_first_closeUnless (s : Chain n β) (senders : Bool) :
    (s.closeUnless senders).first.sent = s.first.sent := by
  cases senders with
  | true => rfl
  | false => exact sent_push (by simp) 0

@[simp] theorem received_last_closeUnless (s : Chain n β) (senders : Bool) :
    (s.closeUnless senders).last.received = s.last.received := by
  cases senders with
  | true => rfl
  | false => exact received_push (by simp) _

@[simp] theorem phase_closeUnless (s : Chain n β) (senders : Bool) :
    (s.closeUnless senders).phase = s.phase := by
  cases senders <;> rfl

theorem closed_first_closeUnless (h : s.first.closed = false) (senders : Bool) :
    (s.closeUnless senders).first.closed = !senders := by
  cases senders with
  | true => exact h
  | false => exact congrArg Channel.closed (channel_set_self 0 _)

/-! ### Whatever happens to the connections -/

/-- Every channel comes up with its transport, and every relay passes on what it receives. -/
structure Sound (V : Fin (n + 1) → Transport β) (ends : Fin n → Ends β) (s : Chain n β) : Prop where
  shown : ∀ i, (V i).Shown (s.channel i)
  linked : ∀ i, Linked (ends i) (s.phase i) (s.channel i.castSucc).received (s.channel i.succ).sent

theorem sound_empty : Sound V ends (empty n β) := ⟨fun _ => trivial, fun _ => rfl⟩

theorem shown_set {k : Fin (n + 1)} {c : Channel β} (h : ∀ i, (V i).Shown (s.channel i))
    (hc : (V k).Shown c) (i : Fin (n + 1)) : (V i).Shown ((s.set k c).channel i) := by
  by_cases hi : i = k
  · subst hi
    rw [channel_set_self]
    exact hc
  · rw [channel_set_of_ne c hi]
    exact h i

/-- Something happens to a channel that its relay does not send or receive. -/
theorem Sound.push {k : Fin (n + 1)} {e : Event β} (h : Sound V ends s)
    (he : (V k).Shown ((s.channel k).push e))
    (hreceived : k = Fin.last n ∨ ∀ x, e ≠ .received x) (hsent : k = 0 ∨ ∀ x, e ≠ .sent x) :
    Sound V ends (s.push k e) := by
  refine ⟨shown_set h.shown he, ?_⟩
  intro i
  have hin : ((s.push k e).channel i.castSucc).received = (s.channel i.castSucc).received := by
    rcases hreceived with rfl | hreceived
    · exact congrArg Channel.received (channel_set_of_ne _ (Fin.castSucc_lt_last i).ne)
    · exact received_push hreceived _
  have hout : ((s.push k e).channel i.succ).sent = (s.channel i.succ).sent := by
    rcases hsent with rfl | hsent
    · exact congrArg Channel.sent (channel_set_of_ne _ (Fin.succ_ne_zero i))
    · exact sent_push hsent _
  show Linked (ends i) (s.phase i) _ _
  rw [hin, hout]
  exact h.linked i

theorem received_relayed {i : Fin n} {phase : Phase β} {input output : Channel β}
    (houtput : output.received = (s.channel i.succ).received) (k : Fin n) :
    ((s.relayed i phase input output).channel k.castSucc).received =
      if k = i then input.received else (s.channel k.castSucc).received := by
  have hkeep : ((s.relayed i phase input output).channel k.castSucc).received =
      ((s.set i.castSucc input).channel k.castSucc).received := by
    refine map_channel_set (s := s.set i.castSucc input) Channel.received ?_ k.castSucc
    rw [channel_set_of_ne input (Fin.castSucc_lt_succ (i := i)).ne']
    exact houtput
  rw [hkeep]
  split_ifs with hk
  · rw [hk, channel_set_self]
  · rw [channel_set_of_ne input (fun heq => hk (Fin.castSucc_injective n heq))]

theorem sent_relayed {i : Fin n} {phase : Phase β} {input output : Channel β}
    (hinput : input.sent = (s.channel i.castSucc).sent) (k : Fin n) :
    ((s.relayed i phase input output).channel k.succ).sent =
      if k = i then output.sent else (s.channel k.succ).sent := by
  split_ifs with hk
  · rw [hk]
    exact congrArg Channel.sent (channel_set_self (s := s.set i.castSucc input) i.succ output)
  · have hne : k.succ ≠ i.succ := fun heq => hk (Fin.succ_injective n heq)
    show (((s.set i.castSucc input).set i.succ output).channel k.succ).sent = _
    rw [channel_set_of_ne output hne]
    exact map_channel_set Channel.sent hinput k.succ

/-- A relay's step keeps every link between what it has received and what it has sent. -/
theorem Sound.relay {i : Fin n} {phase : Phase β} {input output : Channel β}
    (h : Sound V ends s)
    (hrelay : relayStep (V i.castSucc) (V i.succ) (ends i) (s.phase i) (s.channel i.castSucc)
      (s.channel i.succ) = some (phase, input, output)) :
    Sound V ends (s.relayed i phase input output) := by
  have hshown := shown_relayStep hrelay (h.shown _) (h.shown _)
  have hframe := relayStep_frame hrelay
  refine ⟨shown_set (shown_set h.shown hshown.1) hshown.2, ?_⟩
  intro k
  rw [received_relayed hframe.2.2, sent_relayed hframe.1]
  show Linked (ends k) (Function.update s.phase i phase k) _ _
  by_cases hk : k = i
  · subst hk
    rw [if_pos rfl, if_pos rfl, Function.update_self]
    exact linked_relayStep hrelay (h.linked k)
  · rw [if_neg hk, if_neg hk, Function.update_of_ne hk]
    exact h.linked k

theorem Sound.step (h : Sound V ends s) (hstep : step V ends s action = some s') :
    Sound V ends s' := by
  rcases step_cases hstep with ⟨x, -, -, htakes, rfl⟩ | ⟨-, rfl⟩ |
    ⟨i, phase, input, output, -, hrelay, rfl⟩ | ⟨x, -, hgives, rfl⟩ | ⟨-, rfl⟩ |
    ⟨i, kept, -, rfl⟩
  · exact h.push ⟨htakes, h.shown 0⟩ (Or.inr (by simp)) (Or.inl rfl)
  · exact h.push (h.shown 0) (Or.inr (by simp)) (Or.inr (by simp))
  · exact h.relay hrelay
  · exact h.push ⟨hgives, h.shown _⟩ (Or.inl rfl) (Or.inr (by simp))
  · exact h.push (h.shown _) (Or.inr (by simp)) (Or.inr (by simp))
  · exact h.push (h.shown i) (Or.inr (by simp)) (Or.inr (by simp))

theorem Sound.trySend (h : Sound V ends s) (x : β) : Sound V ends (s.trySend V ends x) := by
  rcases trySend_cases V ends s x with hstep | ⟨-, hsame⟩
  · exact h.step hstep
  · rw [hsame]
    exact h

theorem Sound.closeUnless (h : Sound V ends s) (senders : Bool) :
    Sound V ends (s.closeUnless senders) := by
  rcases closeUnless_cases V ends s senders with ⟨hsame, -⟩ | ⟨hstep, -⟩
  · rw [hsame]
    exact h
  · exact h.step hstep

/-- A way to look at messages that does not see what the relays say themselves. -/
structure View (ends : Fin n → Ends β) (view : List β → List γ) : Prop where
  mono : ∀ l l', l <+: l' → view l <+: view l'
  last : ∀ i m, (ends i).Last m → ∀ l, view (l ++ [m]) = view l

theorem View.linked {view : List β → List γ} (h : View ends view) {i : Fin n} {phase : Phase β}
    {received sent : List β} (hlinked : Linked (ends i) phase received sent) :
    view sent <+: view received := by
  rcases hlinked.sent_cases with hprefix | ⟨m, hlast, rfl⟩
  · exact h.mono _ _ hprefix
  · rw [h.last i m hlast]

theorem Sound.received_channel (h : Sound V ends s) (hV : ∀ i, (V i).Documented)
    (i : Fin (n + 1)) : (s.channel i).received <+: (s.channel i).sent :=
  (hV i).received_isPrefix (h.shown i)

/-- Every channel's messages are a prefix of those at the start. -/
theorem Sound.sent_isPrefix {view : List β → List γ} (h : Sound V ends s)
    (hV : ∀ i, (V i).Documented) (hview : View ends view) (i : Fin (n + 1)) :
    view (s.channel i).sent <+: view s.first.sent := by
  induction i using Fin.induction with
  | zero => exact List.prefix_rfl
  | succ i ih =>
      calc
        view (s.channel i.succ).sent <+: view (s.channel i.castSucc).received :=
          hview.linked (h.linked i)
        _ <+: view (s.channel i.castSucc).sent := hview.mono _ _ (h.received_channel hV _)
        _ <+: view s.first.sent := ih

/-- What comes out is a prefix of what went in, whatever happens to the connections. -/
theorem Sound.received_isPrefix {view : List β → List γ} (h : Sound V ends s)
    (hV : ∀ i, (V i).Documented) (hview : View ends view) :
    view s.last.received <+: view s.first.sent :=
  (hview.mono _ _ (h.received_channel hV _)).trans (h.sent_isPrefix hV hview _)

/-! ### Where no connection is lost and the consumer stays -/

/-- The invariant of a chain whose connections have all held, and whose consumer has stayed. -/
structure Whole (V : Fin (n + 1) → Transport β) (ends : Fin n → Ends β) (s : Chain n β) : Prop where
  sound : Sound V ends s
  holds : s.last.severed = false
  flows : ∀ i, Flows (ends i) (s.phase i) (s.channel i.castSucc) (s.channel i.succ)

theorem whole_empty : Whole V ends (empty n β) :=
  ⟨sound_empty, rfl, fun _ => ⟨rfl, rfl⟩⟩

/-- An open channel's receiver is there. -/
theorem Whole.of_open (h : Whole V ends s) {k : Fin (n + 1)}
    (hopen : (s.channel k).closed = false) : (s.channel k).severed = false := by
  induction k using Fin.lastCases with
  | last => exact h.holds
  | cast i =>
      have hflows := h.flows i
      cases hphase : s.phase i with
      | recv | send x =>
          rw [hphase] at hflows
          exact hflows.1
      | last m =>
          rw [hphase] at hflows
          exact hflows.1.1
      | ended =>
          rw [hphase] at hflows
          exact absurd (hopen.symm.trans hflows.2.1.1) (by decide)

/-- A message sent into an open first channel is taken. -/
theorem Whole.send_ne_none (h : Whole V ends s) (hV : ∀ i, (V i).Documented)
    (hopen : s.first.closed = false) (x : β) : step V ends s (.send x) ≠ none := by
  intro hnone
  have hsevered := (hV 0).takes s.first x (h.sound.shown 0) hopen (send_eq_none hnone hopen)
  have hholds : s.first.severed = false := h.of_open (k := 0) hopen
  exact absurd (hsevered.symm.trans hholds) (by decide)

/-- Something happens to a channel that holds as well afterwards. -/
theorem Whole.push {k : Fin (n + 1)} {e : Event β} (h : Whole V ends s)
    (hsound : Sound V ends (s.push k e))
    (hholds : ((s.channel k).push e).severed = (s.channel k).severed)
    (hin : k = Fin.last n ∨ ∀ i : Fin n, k = i.castSucc →
      Flows (ends i) (s.phase i) (s.channel k) (s.channel i.succ) →
      Flows (ends i) (s.phase i) ((s.channel k).push e) (s.channel i.succ))
    (hout : k = 0 ∨ e ≠ .closed ∧ ∀ x, e ≠ .sent x) : Whole V ends (s.push k e) := by
  refine ⟨hsound, (map_channel_set Channel.severed hholds _).trans h.holds, ?_⟩
  intro i
  have hnext : Flows (ends i) (s.phase i) ((s.push k e).channel i.castSucc)
      (s.channel i.succ) := by
    by_cases hi : i.castSucc = k
    · subst hi
      rw [Chain.push, channel_set_self]
      rcases hin with hlast | hin
      · exact absurd hlast (Fin.castSucc_lt_last i).ne
      · exact hin i rfl (h.flows i)
    · rw [Chain.push, channel_set_of_ne _ hi]
      exact h.flows i
  refine hnext.output_congr ?_ ?_
  · rcases hout with rfl | ⟨hclosed, -⟩
    · rw [Chain.push, channel_set_of_ne _ (Fin.succ_ne_zero i)]
    · exact closed_push hclosed _
  · rcases hout with rfl | ⟨-, hsent⟩
    · rw [Chain.push, channel_set_of_ne _ (Fin.succ_ne_zero i)]
    · exact sent_push hsent _

/-- A channel is closed by the relay before it only. -/
theorem Whole.ended_of_closed (h : Whole V ends s) {i : Fin n}
    (hclosed : (s.channel i.succ).closed = true) : s.phase i = .ended := by
  have hflows := h.flows i
  cases hphase : s.phase i with
  | recv | send x =>
      rw [hphase] at hflows
      exact absurd (hclosed.symm.trans hflows.2) (by decide)
  | last m =>
      rw [hphase] at hflows
      exact absurd (hclosed.symm.trans hflows.1.2) (by decide)
  | ended => rfl

/-- Where nothing is lost, a relay's step keeps the chain whole. -/
theorem Whole.relay {i : Fin n} {phase : Phase β} {input output : Channel β} (h : Whole V ends s)
    (hV : ∀ i, (V i).Documented)
    (hrelay : relayStep (V i.castSucc) (V i.succ) (ends i) (s.phase i) (s.channel i.castSucc)
      (s.channel i.succ) = some (phase, input, output)) :
    Whole V ends (s.relayed i phase input output) := by
  have hopen := (h.flows i).open_of_relayStep hrelay
  have hholds := h.of_open hopen
  obtain ⟨hflows, hstill, hclosed⟩ := flows_relayStep hrelay (h.flows i) (h.sound.linked i) (hV _)
    (hV _) (h.sound.shown _) (h.sound.shown _) hholds
  have hframe := relayStep_frame hrelay
  have hne : i.succ ≠ i.castSucc := Fin.castSucc_lt_succ.ne'
  refine ⟨h.sound.relay hrelay, ?_, ?_⟩
  · show ((s.relayed i phase input output).channel (Fin.last n)).severed = false
    -- the last channel is the output of the last relay, and of no other
    by_cases hi : Fin.last n = i.succ
    · have hchannel : (s.relayed i phase input output).channel (Fin.last n) = output := by
        rw [hi]
        exact channel_set_self (s := s.set i.castSucc input) i.succ output
      rw [hchannel]
      exact hstill
    · have hchannel : (s.relayed i phase input output).channel (Fin.last n) = s.last :=
        (channel_set_of_ne (s := s.set i.castSucc input) output hi).trans
          (channel_set_of_ne input (Fin.castSucc_lt_last i).ne')
      rw [hchannel]
      exact h.holds
  · intro k
    show Flows (ends k) (Function.update s.phase i phase k)
      (((s.set i.castSucc input).set i.succ output).channel k.castSucc)
      (((s.set i.castSucc input).set i.succ output).channel k.succ)
    -- the relay itself; the one behind it, whose input this output is; or another
    by_cases hk : k = i
    · subst hk
      rw [Function.update_self, channel_set_self, channel_set_of_ne output hne.symm,
        channel_set_self]
      exact hflows
    · have hcast : k.castSucc ≠ i.castSucc := fun heq => hk (Fin.castSucc_injective n heq)
      have hsucc : k.succ ≠ i.succ := fun heq => hk (Fin.succ_injective n heq)
      rw [Function.update_of_ne hk, channel_set_of_ne output hsucc]
      refine Flows.output_congr ?_ (map_channel_set Channel.closed hclosed _)
        (map_channel_set Channel.sent hframe.1 _)
      by_cases hnext : k.castSucc = i.succ
      · have hflow := h.flows k
        rw [hnext] at hflow ⊢
        rw [channel_set_self]
        exact hflow.input_congr hopen (hstill.trans hholds.symm)
      · rw [channel_set_of_ne output hnext, channel_set_of_ne input hcast]
        exact h.flows k

/-- No connection is lost, and the consumer stays. -/
def Stays (_ : Chain n β) (action : Action n β) : Prop := action.Holds ∧ action ≠ .leave

theorem stays_send (s : Chain n β) (x : β) : s.Stays (.send x) := ⟨trivial, by simp⟩

theorem stays_close (s : Chain n β) : s.Stays .close := ⟨trivial, by simp⟩

theorem stays_relay (s : Chain n β) (i : Fin n) : s.Stays (.relay i) := ⟨trivial, by simp⟩

theorem stays_receive (s : Chain n β) : s.Stays .receive := ⟨trivial, by simp⟩

theorem Whole.step (h : Whole V ends s) (hV : ∀ i, (V i).Documented) (hstays : Stays s action)
    (hstep : step V ends s action = some s') : Whole V ends s' := by
  have hsound := h.sound.step hstep
  rcases step_cases hstep with ⟨x, -, hopen, -, rfl⟩ | ⟨-, rfl⟩ |
    ⟨i, phase, input, output, -, hrelay, rfl⟩ | ⟨x, -, -, rfl⟩ | ⟨rfl, rfl⟩ | ⟨i, kept, rfl, rfl⟩
  · exact h.push hsound rfl (Or.inr fun i _ hflows => hflows.input_congr hopen rfl) (Or.inl rfl)
  · exact h.push hsound rfl (Or.inr fun i _ hflows => hflows.input_close) (Or.inl rfl)
  · exact h.relay hV hrelay
  · exact h.push hsound rfl (Or.inl rfl) (Or.inr ⟨by simp, by simp⟩)
  · exact absurd rfl hstays.2
  · exact absurd hstays.1 id

theorem Whole.closeUnless (h : Whole V ends s) (hV : ∀ i, (V i).Documented) (senders : Bool) :
    Whole V ends (s.closeUnless senders) := by
  rcases closeUnless_cases V ends s senders with ⟨hsame, -⟩ | ⟨hstep, -⟩
  · rw [hsame]
    exact h
  · exact h.step hV s.stays_close hstep

/-- What the relays of a chain say where their inputs are closed. -/
def Words (ends : Fin n → Ends β) (words : List β) : Prop :=
  ∀ m ∈ words, ∃ i, (ends i).onClosed = some m

theorem Words.append {words : List β} (h : Words ends words) (i : Fin n) :
    Words ends (words ++ (ends i).onClosed.toList) := by
  intro m hm
  rcases List.mem_append.mp hm with hm | hm
  · exact h m hm
  · exact ⟨i, Option.mem_toList.mp hm⟩

/-- Relays that say nothing where their inputs are closed. -/
theorem Words.eq_nil {words : List β} (h : Words ends words)
    (hsilent : ∀ i, (ends i).onClosed = none) : words = [] := by
  refine List.eq_nil_iff_forall_not_mem.mpr fun m hm => ?_
  obtain ⟨i, hi⟩ := h m hm
  simp [hsilent i] at hi

theorem View.words {view : List β → List γ} (h : View ends view) {words : List β}
    (hwords : Words ends words) (l : List β) : view (l ++ words) = view l := by
  induction words using List.reverseRecOn with
  | nil => rw [List.append_nil]
  | append_singleton words m ih =>
      obtain ⟨i, hlast⟩ := hwords m (List.mem_append_right _ (List.mem_singleton_self m))
      rw [← List.append_assoc, h.last i m (Or.inl hlast)]
      exact ih fun m' hm' => hwords m' (List.mem_append_left _ hm')

/-- No relay has anything to do. -/
def Quiet (V : Fin (n + 1) → Transport β) (ends : Fin n → Ends β) (s : Chain n β) : Prop :=
  ∀ i, step V ends s (.relay i) = none

theorem Quiet.phase (h : Quiet V ends s) (i : Fin n) :
    s.phase i = .ended ∨
      s.phase i = .recv ∧ (V i.castSucc).gives (s.channel i.castSucc) = none := by
  have hnone := Option.map_eq_none_iff.mp (h i)
  cases hphase : s.phase i with
  | recv =>
      refine Or.inr ⟨rfl, ?_⟩
      simp only [relayStep, hphase] at hnone
      split at hnone
      · assumption
      all_goals simp at hnone
  | send x =>
      simp only [relayStep, hphase] at hnone
      split at hnone <;> simp at hnone
  | last m => simp [relayStep, hphase] at hnone
  | ended => exact Or.inl rfl

/-- What has been sent into a channel: all that comes from the start, once it is closed or the relays
have come to rest, and otherwise some of it; what the relays say themselves comes last. -/
theorem Whole.sent (h : Whole V ends s) (hV : ∀ i, (V i).Documented) (k : Fin (n + 1)) :
    ∃ words, Words ends words ∧ (words ≠ [] → s.first.closed = true) ∧
      (s.channel k).sent <+: s.first.sent ++ words ∧
      ((s.channel k).closed = true →
        s.first.closed = true ∧ (s.channel k).sent = s.first.sent ++ words) ∧
      (Quiet V ends s → (s.channel k).sent = s.first.sent ++ words) := by
  induction k using Fin.induction with
  | zero =>
      have hnil : (s.channel 0).sent = s.first.sent ++ [] := (List.append_nil _).symm
      refine ⟨[], fun m hm => by simp at hm, fun hne => absurd rfl hne, ?_, ?_, fun _ => hnil⟩
      · exact hnil ▸ List.prefix_rfl
      · exact fun hclosed => ⟨hclosed, hnil⟩
  | succ i ih =>
      obtain ⟨words, hwords, hclosing, hprefix, hclosed, hquiet⟩ := ih
      have hflows := h.flows i
      have hlinked := h.sound.linked i
      have hreceived := (h.sound.received_channel hV i.castSucc).trans hprefix
      -- until the relay has ended, its output is open
      have hopen : (s.channel i.succ).closed = false →
          (s.channel i.succ).sent <+: (s.channel i.castSucc).received →
          (Quiet V ends s → (s.channel i.succ).sent = s.first.sent ++ words) →
          ∃ words, Words ends words ∧ (words ≠ [] → s.first.closed = true) ∧
            (s.channel i.succ).sent <+: s.first.sent ++ words ∧
            ((s.channel i.succ).closed = true →
              s.first.closed = true ∧ (s.channel i.succ).sent = s.first.sent ++ words) ∧
            (Quiet V ends s → (s.channel i.succ).sent = s.first.sent ++ words) := by
        intro hstill hbefore hall
        exact ⟨words, hwords, hclosing, hbefore.trans hreceived,
          fun hclosed => absurd (hstill.symm.trans hclosed) (by decide), hall⟩
      cases hphase : s.phase i with
      | recv =>
          rw [hphase] at hflows hlinked
          have hsame : (s.channel i.succ).sent = (s.channel i.castSucc).received := hlinked
          refine hopen hflows.2 (hsame ▸ List.prefix_rfl) fun hrest => ?_
          rcases hrest.phase i with hended | ⟨-, hgives⟩
          · rw [hphase] at hended
            simp at hended
          · rw [hsame, ← hquiet hrest]
            exact (hV _).complete _ (h.sound.shown _) hflows.1 (Or.inl hgives)
      | send x =>
          rw [hphase] at hflows hlinked
          have hone : (s.channel i.succ).sent ++ [x] = (s.channel i.castSucc).received := hlinked
          refine hopen hflows.2 (hone ▸ List.prefix_append _ _) fun hrest => ?_
          rcases hrest.phase i with hended | ⟨hrecv, -⟩
          · rw [hphase] at hended
            simp at hended
          · rw [hphase] at hrecv
            simp at hrecv
      | last m =>
          rw [hphase] at hflows hlinked
          have hsame : (s.channel i.succ).sent = (s.channel i.castSucc).received := hlinked.1
          refine hopen hflows.1.2 (hsame ▸ List.prefix_rfl) fun hrest => ?_
          rcases hrest.phase i with hended | ⟨hrecv, -⟩
          · rw [hphase] at hended
            simp at hended
          · rw [hphase] at hrecv
            simp at hrecv
      | ended =>
          rw [hphase] at hflows
          obtain ⟨-, ⟨hinputClosed, hinputSent⟩, hsent⟩ := hflows
          obtain ⟨hfirst, hinput⟩ := hclosed hinputClosed
          have hall : (s.channel i.castSucc).received = s.first.sent ++ words :=
            hinputSent.trans hinput
          have hend : (s.channel i.succ).sent =
              s.first.sent ++ (words ++ (ends i).onClosed.toList) := by
            rw [hsent, hall, List.append_assoc]
          exact ⟨_, hwords.append i, fun _ => hfirst, hend ▸ List.prefix_rfl,
            fun _ => ⟨hfirst, hend⟩, fun _ => hend⟩

/-- The consumer hears that no more will come: all that was said has come out. -/
theorem Whole.finished_last (h : Whole V ends s) (hV : ∀ i, (V i).Documented)
    (hgives : (V (Fin.last n)).gives s.last = some .closed) :
    s.first.closed = true ∧ s.last.closed = true ∧
      ∃ words, Words ends words ∧ s.last.received = s.first.sent ++ words := by
  obtain ⟨hclosed, hall⟩ := (hV _).finished (h.sound.shown _) h.holds hgives
  obtain ⟨words, hwords, -, -, hend, -⟩ := h.sent hV (Fin.last n)
  obtain ⟨hfirst, hlast⟩ := hend hclosed
  exact ⟨hfirst, hclosed, words, hwords, hall.trans hlast⟩

/-- The consumer is never told of a failure. -/
theorem Whole.not_failed (h : Whole V ends s) (hV : ∀ i, (V i).Documented) :
    (V (Fin.last n)).gives s.last ≠ some .failed := fun hgives =>
  absurd (h.holds.symm.trans ((hV _).fails _ (h.sound.shown _) hgives)) (by decide)

/-- Once the relays have come to rest and the consumer has to wait, everything that went in has come
out. -/
theorem Whole.received_quiet (h : Whole V ends s) (hV : ∀ i, (V i).Documented)
    (hquiet : Quiet V ends s) (hgives : (V (Fin.last n)).gives s.last = none) :
    ∃ words, Words ends words ∧ s.last.received = s.first.sent ++ words := by
  obtain ⟨words, hwords, -, -, -, hall⟩ := h.sent hV (Fin.last n)
  have hreceived : s.last.received = s.last.sent :=
    (hV _).complete _ (h.sound.shown _) h.holds (Or.inl hgives)
  exact ⟨words, hwords, hreceived.trans (hall hquiet)⟩

end Chain

end Stax.Lib.Relay
