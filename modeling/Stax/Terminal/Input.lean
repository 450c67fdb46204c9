/-
# Stax.Terminal.Input — from the keyboard to the launched program.

The client reads its standard input in one thread and watches its window's size in a task; a task
takes what both say to the server.  The server takes it on to the shade, and a task of the shade hands
it to a thread that writes it to the pseudoterminal.  The server and the shade say `Close` where their
own input ends, and the writing thread stops at the first `Close`.

The first and the last of the four channels are inside a process and hold as long as their receivers
do; the two between the processes may be lost at any time.  How the channels behave is a parameter, and
what is assumed of them is `Transport.Documented`.
-/
import Stax.Lib.Relay

namespace Stax.Terminal

open Stax.Lib Stax.Lib.Machine Stax.Lib.Relay

/-! ## Messages -/

/-- The size of a window, in characters. -/
structure TerminalSize where
  rows : UInt16
  cols : UInt16
  deriving DecidableEq, Repr

/-- The messages from the client's terminal to the target's. -/
inductive TerminalInput
  | bytes (data : List UInt8)
  | resize (size : TerminalSize)
  | close
  deriving DecidableEq, Repr

/-- What is done to a pseudoterminal. -/
inductive PtyEvent
  | byte (b : UInt8)
  | setSize (size : TerminalSize)
  deriving DecidableEq, Repr

namespace TerminalInput

/-- What a message comes to at the pseudoterminal. -/
def shown : TerminalInput → List PtyEvent
  | bytes data => data.map PtyEvent.byte
  | resize size => [.setSize size]
  | close => []

/-- The bytes that a message carries. -/
def data : TerminalInput → List UInt8
  | bytes data => data
  | resize _ | close => []

end TerminalInput

/-- The byte that was written, where it was one. -/
def PtyEvent.byte? : PtyEvent → Option UInt8
  | .byte b => some b
  | .setSize _ => none

/-- The messages before the first `Close`. -/
def untilClose (messages : List TerminalInput) : List TerminalInput :=
  messages.takeWhile fun m => m ≠ .close

theorem untilClose_of_not_mem {l : List TerminalInput} (h : .close ∉ l) : untilClose l = l := by
  rw [untilClose, List.takeWhile_eq_self_iff]
  intro m hm
  exact decide_eq_true fun heq => h (heq ▸ hm)

/-- After a `Close` nothing counts. -/
theorem untilClose_append_of_mem {l : List TerminalInput} (h : .close ∈ l)
    (later : List TerminalInput) : untilClose (l ++ later) = untilClose l := by
  induction l with
  | nil => simp at h
  | cons m l ih =>
      by_cases hm : m = .close
      · simp [untilClose, hm]
      · have hrest : .close ∈ l := (List.mem_cons.mp h).resolve_left fun heq => hm heq.symm
        have hstep : ∀ l, untilClose (m :: l) = m :: untilClose l := fun l =>
          List.takeWhile_cons_of_pos (decide_eq_true hm)
        rw [List.cons_append, hstep, hstep, ih hrest]

theorem untilClose_append_of_not_mem {l : List TerminalInput} (h : .close ∉ l)
    (later : List TerminalInput) : untilClose (l ++ later) = l ++ untilClose later :=
  List.takeWhile_append_of_pos fun _ hm => decide_eq_true fun heq => h (heq ▸ hm)

theorem untilClose_mono {l l' : List TerminalInput} (h : l <+: l') :
    untilClose l <+: untilClose l' := by
  obtain ⟨later, rfl⟩ := h
  by_cases hclose : .close ∈ l
  · rw [untilClose_append_of_mem hclose]
  · rw [untilClose_append_of_not_mem hclose, untilClose_of_not_mem hclose]
    exact List.prefix_append _ _

theorem untilClose_append_close (l : List TerminalInput) :
    untilClose (l ++ [.close]) = untilClose l := by
  by_cases hclose : .close ∈ l
  · exact untilClose_append_of_mem hclose _
  · rw [untilClose_append_of_not_mem hclose, untilClose_of_not_mem hclose]
    exact List.append_nil l

/-! ## The path -/

/-- What the relays of the client, the server and the shade send last. -/
def inputEnds : Fin 3 → Ends TerminalInput
  | 0 => {}
  | 1 => { onClosed := some .close, onFailed := some .close }
  | 2 => { onClosed := some .close, onFailed := some .close }

/-- The shade's writing thread: at the top of its loop, or with data still to write. -/
inductive Writer
  | next
  | writing (remaining : List UInt8)
  | left
  deriving DecidableEq, Repr

/-- What reading the standard input gives. -/
inductive StdinRead
  | data (data : List UInt8)
  | eof
  | interrupted
  | failed
  deriving DecidableEq, Repr

/-- What writing to the pseudoterminal gives. -/
inductive PtyWrite
  | wrote (n : ℕ)
  | interrupted
  | failed
  deriving DecidableEq, Repr

/-- The channels between the client and the server, and between the server and the shade. -/
inductive Link
  | toServer
  | toShade
  deriving DecidableEq, Repr

/-- Which of the chain's channels a connection carries. -/
def Link.index : Link → Fin 4
  | .toServer => (Fin.last 1).castSucc.castSucc
  | .toShade => (Fin.last 2).castSucc

/-- The way of a key stroke: from the client's standard input, through the server and the shade, to
the pseudoterminal. -/
structure InputPath where
  chain : Chain 3 TerminalInput := Chain.empty 3 TerminalInput
  /-- The client's two senders: the thread that reads, and the task that watches the window. -/
  stdinOpen : Bool := true
  resizes : Bool := true
  writer : Writer := .next
  /-- What was read from the standard input, and what was done to the pseudoterminal. -/
  stdin : List UInt8 := []
  pty : List PtyEvent := []

/-- What can happen on the way, each step of a thread or a task for itself. -/
inductive InputAction
  | stdin (read : StdinRead)
  | windowChanged (size : Option TerminalSize)
  | windowChangesEnd
  | relay (i : Fin 3)
  | next
  | write (write : PtyWrite)
  | lose (link : Link) (kept : ℕ)
  deriving DecidableEq, Repr

/-- Nothing goes wrong outside the path: no connection is lost and no write fails. -/
def InputAction.Undisturbed : InputAction → Prop
  | .lose _ _ | .write .failed => False
  | _ => True

instance instDecidableUndisturbed : DecidablePred InputAction.Undisturbed
  | .lose _ _ | .write .failed => isFalse id
  | .stdin _ | .windowChanged _ | .windowChangesEnd | .relay _ | .next | .write (.wrote _)
  | .write .interrupted => isTrue trivial

namespace InputPath

variable (V : Fin 4 → Transport TerminalInput)

/-- `let _ = input_events_tx.send(..)`. -/
def send (s : InputPath) (x : TerminalInput) : InputPath :=
  { s with chain := s.chain.trySend V inputEnds x }

/-- A sender of the client goes away; the channel closes with the last of them. -/
def dropSender (s : InputPath) : InputPath :=
  { s with chain := s.chain.closeUnless (s.stdinOpen || s.resizes) }

/-- `TerminalRelay::start`, where the initial size is known. -/
def start (size : TerminalSize) : InputPath := ({} : InputPath).send V (.resize size)

/-- The thread that reads the standard input. -/
def readStdin (s : InputPath) : StdinRead → InputPath
  | .data data =>
    match s.chain.step V inputEnds (.send (.bytes data)) with
    | some chain => { s with chain := chain, stdin := s.stdin ++ data }
    | none => { s with stdinOpen := false, stdin := s.stdin ++ data }.dropSender
  | .eof | .failed => { s.send V .close with stdinOpen := false }.dropSender
  | .interrupted => s

/-- What the writing thread does with a message. -/
def handle (s : InputPath) : TerminalInput → InputPath
  | .bytes data => { s with writer := .writing data }
  | .resize size => { s with pty := s.pty ++ [.setSize size] }
  | .close => { s with writer := .left, chain := s.chain.dropLast }

/-- What an action does, where it can happen at all. -/
def step (s : InputPath) : InputAction → Option InputPath
  | .stdin read => if s.stdinOpen then some (s.readStdin V read) else none
  | .windowChanged size =>
    if s.resizes then
      match size with
      | some size => some (s.send V (.resize size))
      | none => some s
    else none
  | .windowChangesEnd =>
    if s.resizes then some { s with resizes := false }.dropSender else none
  | .relay i => (s.chain.step V inputEnds (.relay i)).map fun chain => { s with chain := chain }
  | .next =>
    match s.writer with
    | .next =>
      match (V (Fin.last 3)).gives s.chain.last with
      | some (.item x) =>
        (s.chain.step V inputEnds .receive).map fun chain => { s with chain := chain }.handle x
      | some _ => some { s with writer := .left, chain := s.chain.dropLast }
      | none => none
    | _ => none
  | .write write =>
    match s.writer with
    | .writing [] => some { s with writer := .next }
    | .writing (b :: rest) =>
      match write with
      | .wrote n =>
        if 1 ≤ n ∧ n ≤ (b :: rest).length then
          some { s with
            writer := .writing ((b :: rest).drop n)
            pty := s.pty ++ ((b :: rest).take n).map .byte }
        else none
      | .interrupted => some s
      | .failed => some { s with writer := .next }
    | _ => none
  | .lose link kept =>
    (s.chain.step V inputEnds (.lose link.index kept)).map fun chain => { s with chain := chain }

/-! ## What a step can do -/

/-- A message of the given sender that does not end anything. -/
def Sends (s : InputPath) (x : TerminalInput) : Prop :=
  (∃ data, x = .bytes data ∧ s.stdinOpen = true) ∨ ∃ size, x = .resize size ∧ s.resizes = true

/-- What a step comes to, by the end of the path that it concerns. -/
inductive Takes (s : InputPath) : InputAction → InputPath → Prop
  /-- A relay passes a message on, or a connection is lost. -/
  | carries {action : InputAction} {chainAction : Relay.Action 3 TerminalInput}
      {chain : Chain 3 TerminalInput} (hproducer : ∀ x, chainAction ≠ .send x)
      (hclose : chainAction ≠ .close) (hconsumer : chainAction ≠ .receive ∧ chainAction ≠ .leave)
      (hstep : s.chain.step V inputEnds chainAction = some chain)
      (hholds : action.Undisturbed → chainAction.Holds) :
      Takes s action { s with chain := chain }
  | sends {action : InputAction} {x : TerminalInput} {chain : Chain 3 TerminalInput}
      (hsends : s.Sends x) (hstep : s.chain.step V inputEnds (.send x) = some chain) :
      Takes s action { s with chain := chain, stdin := s.stdin ++ x.data }
  | stays {action : InputAction} : Takes s action s
  /-- The client stops reading, with or without saying so. -/
  | readsEnd {action : InputAction} {chain : Chain 3 TerminalInput} {lost : List UInt8}
      (hopen : s.stdinOpen = true)
      (hchain : lost = [] ∧ s.chain.step V inputEnds (.send .close) = some chain ∨
        (∃ x, s.chain.step V inputEnds (.send x) = none) ∧ chain = s.chain) :
      Takes s action
        { s with chain := chain, stdinOpen := false, stdin := s.stdin ++ lost }.dropSender
  | watchEnds {action : InputAction} (hresizes : s.resizes = true) :
      Takes s action { s with resizes := false }.dropSender
  /-- The writing thread takes a message, or finds that no more will come. -/
  | next {action : InputAction} {x : TerminalInput} {chain : Chain 3 TerminalInput}
      (hwriter : s.writer = .next)
      (hgives : (V (Fin.last 3)).gives s.chain.last = some (.item x))
      (hstep : s.chain.step V inputEnds .receive = some chain) :
      Takes s action ({ s with chain := chain }.handle x)
  | leaves {action : InputAction} (hwriter : s.writer = .next)
      (hgives : (V (Fin.last 3)).gives s.chain.last = some .closed ∨
        (V (Fin.last 3)).gives s.chain.last = some .failed) :
      Takes s action { s with writer := .left, chain := s.chain.dropLast }
  | writes {action : InputAction} {remaining : List UInt8} {n : ℕ}
      (hwriter : s.writer = .writing remaining) :
      Takes s action { s with
        writer := .writing (remaining.drop n)
        pty := s.pty ++ (remaining.take n).map .byte }
  | written {action : InputAction} (hwriter : s.writer = .writing []) :
      Takes s action { s with writer := .next }
  | givesUp {remaining : List UInt8} (hwriter : s.writer = .writing remaining) :
      Takes s (.write .failed) { s with writer := .next }

variable {V : Fin 4 → Transport TerminalInput} {s s' : InputPath} {action : InputAction}
  {actions : List InputAction}

/-- Every step is one of those that `Takes` lists, with what it needs. -/
theorem takes_of_step (h : s.step V action = some s') : Takes V s action s' := by
  -- one case for each action; an action that cannot happen here leaves nothing to show
  cases action with
  | stdin read =>
      simp only [step] at h
      split at h
      · rename_i hopen
        obtain rfl := Option.some_inj.mp h
        have hends : Takes V s (.stdin read)
            ({ s.send V .close with stdinOpen := false }.dropSender) := by
          have hnothing : s.stdin = s.stdin ++ [] := (List.append_nil _).symm
          show Takes V s _ ({ s with
            chain := s.chain.trySend V inputEnds .close
            stdinOpen := false
            stdin := s.stdin }.dropSender)
          rw [hnothing]
          rcases Chain.trySend_cases V inputEnds s.chain .close with hsend | hsame
          · exact .readsEnd hopen (Or.inl ⟨rfl, hsend⟩)
          · exact .readsEnd hopen (Or.inr ⟨⟨_, hsame.1⟩, hsame.2⟩)
        cases read with
        | data data =>
            simp only [readStdin]
            cases hsend : s.chain.step V inputEnds (.send (.bytes data)) with
            | some chain => exact .sends (Or.inl ⟨data, rfl, hopen⟩) hsend
            | none => exact .readsEnd hopen (Or.inr ⟨⟨_, hsend⟩, rfl⟩)
        | eof => exact hends
        | failed => exact hends
        | interrupted => exact .stays
      · simp at h
  | windowChanged size =>
      simp only [step] at h
      split at h
      · rename_i hresizes
        cases size with
        | some size =>
            obtain rfl := Option.some_inj.mp h
            rcases Chain.trySend_cases V inputEnds s.chain (.resize size) with hsend | hsame
            · have hnothing : s.stdin ++ (TerminalInput.resize size).data = s.stdin :=
                List.append_nil _
              show Takes V s _ { s with
                chain := s.chain.trySend V inputEnds (.resize size)
                stdin := s.stdin }
              rw [← hnothing]
              exact .sends (Or.inr ⟨size, rfl, hresizes⟩) hsend
            · have hstill : s.send V (.resize size) = s := by
                rw [send, hsame.2]
              rw [hstill]
              exact .stays
        | none =>
            obtain rfl := Option.some_inj.mp h
            exact .stays
      · simp at h
  | windowChangesEnd =>
      simp only [step] at h
      split at h
      · rename_i hresizes
        obtain rfl := Option.some_inj.mp h
        exact .watchEnds hresizes
      · simp at h
  | relay i =>
      obtain ⟨chain, hstep, rfl⟩ := Option.map_eq_some_iff.mp h
      exact .carries (by simp) (by simp) (by simp) hstep fun _ => trivial
  | next =>
      rw [step] at h
      split at h
      · rename_i hwriter
        cases hgives : (V (Fin.last 3)).gives s.chain.last with
        | none =>
            rw [hgives] at h
            simp at h
        | some got =>
            cases got with
            | item x =>
                rw [hgives] at h
                obtain ⟨chain, hstep, rfl⟩ := Option.map_eq_some_iff.mp h
                exact .next hwriter hgives hstep
            | closed =>
                rw [hgives] at h
                obtain rfl := Option.some_inj.mp h
                exact .leaves hwriter (Or.inl hgives)
            | failed =>
                rw [hgives] at h
                obtain rfl := Option.some_inj.mp h
                exact .leaves hwriter (Or.inr hgives)
      · simp at h
  | write write =>
      simp only [step] at h
      split at h
      · rename_i hwriter
        obtain rfl := Option.some_inj.mp h
        exact .written hwriter
      · rename_i b rest hwriter
        cases write with
        | wrote n =>
            simp only at h
            split at h
            · obtain rfl := Option.some_inj.mp h
              exact .writes hwriter
            · simp at h
        | interrupted =>
            obtain rfl := Option.some_inj.mp h
            exact .stays
        | failed =>
            obtain rfl := Option.some_inj.mp h
            exact .givesUp hwriter
      · simp at h
  | lose link kept =>
      rw [step] at h
      obtain ⟨chain, hstep, rfl⟩ := Option.map_eq_some_iff.mp h
      exact .carries (by simp) (by simp) (by simp) hstep fun hfalse => hfalse.elim

/-! ## What the client sends -/

@[simp] theorem received_last_dropSender (s : InputPath) :
    s.dropSender.chain.last.received = s.chain.last.received :=
  Chain.received_last_closeUnless s.chain _

/-- What the client's senders have sent, against what was read. -/
structure Fed (V : Fin 4 → Transport TerminalInput) (s : InputPath) : Prop where
  sound : Chain.Sound V inputEnds s.chain
  closed : s.chain.first.closed = (!s.stdinOpen && !s.resizes)
  read : s.chain.first.sent.flatMap TerminalInput.data <+: s.stdin
  reading : s.stdinOpen = true →
    s.chain.first.sent.flatMap TerminalInput.data = s.stdin ∧ .close ∉ s.chain.first.sent

theorem Fed.dropSender (hsound : Chain.Sound V inputEnds s.chain)
    (hclosed : s.chain.first.closed = false)
    (hread : s.chain.first.sent.flatMap TerminalInput.data <+: s.stdin)
    (hreading : s.stdinOpen = true →
      s.chain.first.sent.flatMap TerminalInput.data = s.stdin ∧ .close ∉ s.chain.first.sent) :
    Fed V s.dropSender := by
  have hsent : s.dropSender.chain.first.sent = s.chain.first.sent :=
    Chain.sent_first_closeUnless s.chain _
  refine ⟨hsound.closeUnless _, ?_, ?_, ?_⟩
  · exact (Chain.closed_first_closeUnless hclosed _).trans (Bool.not_or _ _)
  · rw [hsent]
    exact hread
  · rw [hsent]
    exact hreading

theorem Fed.handle {x : TerminalInput} (h : Fed V s) : Fed V (s.handle x) := by
  cases x with
  | bytes data => exact ⟨h.sound, h.closed, h.read, h.reading⟩
  | resize size => exact ⟨h.sound, h.closed, h.read, h.reading⟩
  | close =>
      have hstep : s.chain.step V inputEnds .leave = some s.chain.dropLast := rfl
      refine ⟨h.sound.step hstep, (Chain.closed_first_dropLast s.chain).trans h.closed, ?_, ?_⟩
      · show s.chain.dropLast.first.sent.flatMap TerminalInput.data <+: s.stdin
        rw [Chain.sent_first_dropLast]
        exact h.read
      · show s.stdinOpen = true → s.chain.dropLast.first.sent.flatMap TerminalInput.data = s.stdin ∧
          .close ∉ s.chain.dropLast.first.sent
        rw [Chain.sent_first_dropLast]
        exact h.reading

theorem Fed.open_of_stdinOpen (h : Fed V s) (hopen : s.stdinOpen = true) :
    s.chain.first.closed = false := by
  rw [h.closed, hopen]
  rfl

/-- What was sent into the path is what was read, up to a refused message, and a `Close` comes last.
-/
theorem Fed.step (h : Fed V s) (hstep : s.step V action = some s') : Fed V s' := by
  cases takes_of_step hstep with
  | carries hproducer hclose hconsumer hchain hholds =>
      have hsent := Chain.sent_first_step hchain hproducer
      refine ⟨h.sound.step hchain, (Chain.closed_first_step hchain hclose).trans h.closed, ?_, ?_⟩
      · rw [hsent]
        exact h.read
      · rw [hsent]
        exact h.reading
  | @sends action x chain hsends hchain =>
      obtain ⟨hsent, hclosed, -⟩ := Chain.send_step hchain
      have hdata : ∀ l : List TerminalInput, (l ++ [x]).flatMap TerminalInput.data =
          l.flatMap TerminalInput.data ++ x.data := fun l => by
        rw [List.flatMap_append, List.flatMap_singleton]
      refine ⟨h.sound.step hchain, hclosed.trans h.closed, ?_, ?_⟩
      · rw [hsent, hdata]
        -- a new size carries no bytes; a key stroke is sent before it counts as read
        rcases hsends with ⟨data, rfl, hopen⟩ | ⟨size, rfl, -⟩
        · rw [(h.reading hopen).1]
        · exact (List.append_nil _).symm ▸ (List.append_nil s.stdin).symm ▸ h.read
      · intro hopen
        rw [hsent, hdata, (h.reading hopen).1]
        refine ⟨rfl, ?_⟩
        intro hmem
        rcases List.mem_append.mp hmem with hmem | hmem
        · exact (h.reading hopen).2 hmem
        · rcases hsends with ⟨data, rfl, -⟩ | ⟨size, rfl, -⟩ <;> simp at hmem
  | stays => exact h
  | @readsEnd action chain lost hopen hchain =>
      -- the reader stops with a `Close`, or because its message was refused
      rcases hchain with ⟨rfl, hchain⟩ | ⟨-, rfl⟩
      · obtain ⟨hsent, hclosed, -⟩ := Chain.send_step hchain
        refine Fed.dropSender (h.sound.step hchain) (hclosed.trans (h.open_of_stdinOpen hopen)) ?_
          (fun hfalse => by simp at hfalse)
        show chain.first.sent.flatMap TerminalInput.data <+: s.stdin ++ []
        rw [hsent, List.flatMap_append, List.flatMap_singleton, List.append_nil]
        exact (List.append_nil _).symm ▸ h.read
      · exact Fed.dropSender h.sound (h.open_of_stdinOpen hopen)
          (h.read.trans (List.prefix_append _ _)) (fun hfalse => by simp at hfalse)
  | watchEnds hresizes =>
      have hopen : s.chain.first.closed = false := by
        rw [h.closed, hresizes, Bool.not_true, Bool.and_false]
      exact Fed.dropSender h.sound hopen h.read h.reading
  | @next action x chain hwriter hgives hchain =>
      have hsent := Chain.sent_first_step hchain (by simp)
      refine Fed.handle ⟨h.sound.step hchain,
        (Chain.closed_first_step hchain (by simp)).trans h.closed, ?_, ?_⟩
      · show chain.first.sent.flatMap TerminalInput.data <+: s.stdin
        rw [hsent]
        exact h.read
      · show s.stdinOpen = true → chain.first.sent.flatMap TerminalInput.data = s.stdin ∧
          .close ∉ chain.first.sent
        rw [hsent]
        exact h.reading
  | leaves hwriter hgives =>
      -- leaving without a message is as leaving on a `Close`
      have hleft := h.handle (x := .close)
      exact ⟨hleft.sound, hleft.closed, hleft.read, hleft.reading⟩
  | writes hwriter => exact ⟨h.sound, h.closed, h.read, h.reading⟩
  | written hwriter => exact ⟨h.sound, h.closed, h.read, h.reading⟩
  | givesUp hwriter => exact ⟨h.sound, h.closed, h.read, h.reading⟩

/-- The path begins with the size of the window, and nothing read. -/
theorem fed_start (V : Fin 4 → Transport TerminalInput) (size : TerminalSize) :
    Fed V (start V size) := by
  have hempty : Fed V {} :=
    ⟨Chain.sound_empty, rfl, List.prefix_rfl, fun _ => ⟨rfl, by simp [Chain.first, Chain.empty,
      Channel.sent, Channel.sentIn]⟩⟩
  rcases Chain.trySend_cases V inputEnds (Chain.empty 3 TerminalInput)
      (.resize size) with hstep | ⟨-, hsame⟩
  · obtain ⟨hsent, hclosed, -⟩ := Chain.send_step hstep
    have hone : (start V size).chain.first.sent = [.resize size] := hsent
    refine ⟨hempty.sound.step hstep, hclosed, ?_, fun _ => ⟨?_, ?_⟩⟩
    · rw [hone]
      exact List.prefix_rfl
    · rw [hone]
      rfl
    · rw [hone]
      simp
  · have hstill : start V size = {} := by
      rw [start, send, hsame]
    rw [hstill]
    exact hempty

/-! ## What the writing thread does -/

/-- The pseudoterminal got a part of each message received before the first `Close`. -/
def Typed (part : List PtyEvent → TerminalInput → Prop) :
    Writer → List TerminalInput → List PtyEvent → Prop
  | .next, received, pty =>
    .close ∉ received ∧ ∃ parts, List.Forall₂ part parts received ∧ pty = parts.flatten
  | .writing remaining, received, pty =>
    .close ∉ received ∧ ∃ before done parts, received = before ++ [.bytes (done ++ remaining)] ∧
      List.Forall₂ part parts before ∧ pty = parts.flatten ++ done.map PtyEvent.byte
  | .left, received, pty =>
    ∃ parts, List.Forall₂ part parts (untilClose received) ∧ pty = parts.flatten

variable {part : List PtyEvent → TerminalInput → Prop}

/-- One more message, and what the pseudoterminal got of it. -/
theorem forall₂_snoc {parts : List (List PtyEvent)} {messages : List TerminalInput}
    {p : List PtyEvent} {m : TerminalInput} (h : List.Forall₂ part parts messages) (hp : part p m) :
    List.Forall₂ part (parts ++ [p]) (messages ++ [m]) :=
  List.rel_append h (List.Forall₂.cons hp List.Forall₂.nil)

/-- The writer takes a message, and what it has done is still a part of what was received. -/
theorem typed_handle {x : TerminalInput} (hwhole : ∀ m, part m.shown m)
    {received : List TerminalInput} (h : Typed part .next received s.pty)
    (hwriter : s.writer = .next) :
    Typed part (s.handle x).writer (received ++ [x]) (s.handle x).pty := by
  obtain ⟨hclose, parts, hparts, hpty⟩ := h
  cases x with
  | bytes data =>
      refine ⟨?_, received, [], parts, rfl, hparts, ?_⟩
      · simpa using hclose
      · show s.pty = parts.flatten ++ []
        rw [hpty, List.append_nil]
  | resize size =>
      show Typed part s.writer _ (s.pty ++ [.setSize size])
      rw [hwriter]
      have hone : part [.setSize size] (.resize size) := hwhole (.resize size)
      refine ⟨by simpa using hclose, parts ++ [[.setSize size]], forall₂_snoc hparts hone, ?_⟩
      rw [hpty, List.flatten_append, List.flatten_singleton]
  | close =>
      refine ⟨parts, ?_, hpty⟩
      rw [untilClose_append_close, untilClose_of_not_mem hclose]
      exact hparts

theorem received_handle (x : TerminalInput) :
    (s.handle x).chain.last.received = s.chain.last.received := by
  cases x with
  | bytes data => rfl
  | resize size => rfl
  | close => exact Chain.received_last_dropLast s.chain

/-- What was done to the pseudoterminal is, message by message, a part of what was received. -/
theorem Typed.step (hwhole : ∀ m, part m.shown m)
    (hcut : action.Undisturbed ∨ ∀ p m, p <+: m.shown → part p m)
    (h : Typed part s.writer s.chain.last.received s.pty) (hstep : s.step V action = some s') :
    Typed part s'.writer s'.chain.last.received s'.pty := by
  cases takes_of_step hstep with
  | carries hproducer hclose hconsumer hchain hholds =>
      rw [Chain.received_last_step hchain hconsumer.1]
      exact h
  | sends hsends hchain =>
      rw [(Chain.send_step hchain).2.2]
      exact h
  | stays => exact h
  | @readsEnd action chain lost hopen hchain =>
      rw [received_last_dropSender]
      rcases hchain with ⟨-, hchain⟩ | ⟨-, rfl⟩
      · show Typed part s.writer chain.last.received s.pty
        rw [(Chain.send_step hchain).2.2]
        exact h
      · exact h
  | watchEnds hresizes =>
      rw [received_last_dropSender]
      exact h
  | @next action x chain hwriter hgives hchain =>
      obtain ⟨y, hgives', hreceived⟩ := Chain.receive_last_step hchain
      obtain rfl := Received.item.inj (Option.some_inj.mp (hgives.symm.trans hgives'))
      rw [received_handle, hreceived]
      -- a writer between two messages has written all parts it ever will of the earlier ones
      rw [hwriter] at h
      exact typed_handle (s := { s with chain := chain }) hwhole h hwriter
  | leaves hwriter hgives =>
      rw [hwriter] at h
      obtain ⟨hclose, parts, hparts, hpty⟩ := h
      refine ⟨parts, ?_, hpty⟩
      show List.Forall₂ part parts (untilClose s.chain.dropLast.last.received)
      rw [Chain.received_last_dropLast, untilClose_of_not_mem hclose]
      exact hparts
  | @writes action remaining n hwriter =>
      rw [hwriter] at h
      obtain ⟨hclose, before, done, parts, hreceived, hparts, hpty⟩ := h
      -- what is written goes from the rest to what is done of the message in hand
      refine ⟨hclose, before, done ++ remaining.take n, parts, ?_, hparts, ?_⟩
      · rw [List.append_assoc, List.take_append_drop]
        exact hreceived
      · rw [hpty, List.map_append, List.append_assoc]
  | written hwriter =>
      rw [hwriter] at h
      obtain ⟨hclose, before, done, parts, hreceived, hparts, hpty⟩ := h
      -- nothing remains, so the message is done and counts as a whole part
      rw [List.append_nil] at hreceived
      refine ⟨hclose, parts ++ [done.map .byte], ?_, ?_⟩
      · show List.Forall₂ part _ s.chain.last.received
        rw [hreceived]
        exact forall₂_snoc hparts (hwhole (.bytes done))
      · show s.pty = _
        rw [hpty, List.flatten_append, List.flatten_singleton]
  | @givesUp remaining hwriter =>
      rw [hwriter] at h
      obtain ⟨hclose, before, done, parts, hreceived, hparts, hpty⟩ := h
      rcases hcut with hfalse | hcut
      · exact hfalse.elim
      refine ⟨hclose, parts ++ [done.map .byte], ?_, ?_⟩
      · show List.Forall₂ part _ s.chain.last.received
        rw [hreceived]
        -- the rest of the message is dropped, so only a beginning of it has been written
        refine forall₂_snoc hparts (hcut _ _ ?_)
        rw [TerminalInput.shown, List.map_append]
        exact List.prefix_append _ _
      · show s.pty = _
        rw [hpty, List.flatten_append, List.flatten_singleton]

theorem typed_start (V : Fin 4 → Transport TerminalInput) (size : TerminalSize) :
    Typed part (start V size).writer (start V size).chain.last.received (start V size).pty := by
  have hnone : (start V size).chain.last.received = [] := by
    rcases Chain.trySend_cases V inputEnds (Chain.empty 3 TerminalInput)
        (.resize size) with hstep | ⟨-, hsame⟩
    · exact (Chain.send_step hstep).2.2
    · exact congrArg (fun chain => Channel.received (Chain.last chain)) hsame
  rw [hnone]
  exact ⟨by simp, [], List.Forall₂.nil, rfl⟩

/-- Whatever the thread is at, the pseudoterminal got parts of the first messages. -/
theorem Typed.parts {writer : Writer} {received : List TerminalInput} {pty : List PtyEvent}
    (hcut : ∀ p m, p <+: m.shown → part p m) (h : Typed part writer received pty) :
    ∃ messages parts, messages <+: untilClose received ∧ List.Forall₂ part parts messages ∧
      pty = parts.flatten := by
  cases writer with
  | next =>
      obtain ⟨hclose, parts, hparts, hpty⟩ := h
      exact ⟨received, parts, (untilClose_of_not_mem hclose).symm ▸ List.prefix_rfl, hparts, hpty⟩
  | writing remaining =>
      obtain ⟨hclose, before, done, parts, hreceived, hparts, hpty⟩ := h
      refine ⟨received, parts ++ [done.map .byte], ?_, ?_, ?_⟩
      · exact (untilClose_of_not_mem hclose).symm ▸ List.prefix_rfl
      · rw [hreceived]
        refine forall₂_snoc hparts (hcut _ _ ?_)
        rw [TerminalInput.shown, List.map_append]
        exact List.prefix_append _ _
      · rw [hpty, List.flatten_append, List.flatten_singleton]
  | left =>
      obtain ⟨parts, hparts, hpty⟩ := h
      exact ⟨_, parts, List.prefix_rfl, hparts, hpty⟩

theorem flatten_of_forall₂_shown {parts : List (List PtyEvent)} {messages : List TerminalInput}
    (h : List.Forall₂ (fun p m => p = m.shown) parts messages) :
    parts.flatten = messages.flatMap TerminalInput.shown := by
  have hmap : List.Forall₂ (· = ·) parts (messages.map TerminalInput.shown) :=
    List.forall₂_map_right_iff.mpr h
  rw [List.forall₂_eq_eq_eq] at hmap
  rw [hmap, List.flatMap_def]

/-- Where no write fails, the pseudoterminal got the messages as they are. -/
theorem Typed.whole {writer : Writer} {received : List TerminalInput} {pty : List PtyEvent}
    (h : Typed (fun p m => p = m.shown) writer received pty) :
    pty <+: (untilClose received).flatMap TerminalInput.shown ∧
      ((∀ remaining, writer ≠ .writing remaining) →
        pty = (untilClose received).flatMap TerminalInput.shown) := by
  cases writer with
  | next =>
      obtain ⟨hclose, parts, hparts, hpty⟩ := h
      rw [untilClose_of_not_mem hclose, hpty, flatten_of_forall₂_shown hparts]
      exact ⟨List.prefix_rfl, fun _ => rfl⟩
  | writing remaining =>
      obtain ⟨hclose, before, done, parts, hreceived, hparts, hpty⟩ := h
      refine ⟨?_, fun hwriter => absurd rfl (hwriter remaining)⟩
      rw [untilClose_of_not_mem hclose, hreceived, hpty, flatten_of_forall₂_shown hparts,
        List.flatMap_append, List.flatMap_singleton, List.prefix_append_right_inj,
        TerminalInput.shown, List.map_append]
      exact List.prefix_append _ _
  | left =>
      obtain ⟨parts, hparts, hpty⟩ := h
      rw [hpty, flatten_of_forall₂_shown hparts]
      exact ⟨List.prefix_rfl, fun _ => rfl⟩

/-! ## Where nothing goes wrong -/

theorem last_eq_close {i : Fin 3} {m : TerminalInput} (h : (inputEnds i).Last m) : m = .close := by
  fin_cases i
  · rcases h with h | h <;> simp [inputEnds] at h
  · rcases h with h | h <;> exact (Option.some_inj.mp h).symm
  · rcases h with h | h <;> exact (Option.some_inj.mp h).symm

theorem view_untilClose : Chain.View inputEnds untilClose where
  mono := fun _ _ => untilClose_mono
  last := fun _ _ hlast l => last_eq_close hlast ▸ untilClose_append_close l

/-- While the writing thread is there nothing is lost, and when it leaves it has all there is. -/
structure Unlost (V : Fin 4 → Transport TerminalInput) (s : InputPath) : Prop where
  whole : s.writer ≠ .left → Chain.Whole V inputEnds s.chain
  left : s.writer = .left → s.stdinOpen = false ∧
    (.close ∈ s.chain.first.sent ∨ s.chain.first.closed = true) ∧
    untilClose s.chain.last.received = untilClose s.chain.first.sent
  stdin : (untilClose s.chain.first.sent).flatMap TerminalInput.data = s.stdin

/-- A sender that goes away loses nothing. -/
theorem Unlost.dropSender (hV : ∀ i, (V i).Documented) (h : Unlost V s) :
    Unlost V s.dropSender := by
  have hsent : s.dropSender.chain.first.sent = s.chain.first.sent :=
    Chain.sent_first_closeUnless s.chain _
  have hclosed : s.chain.first.closed = true → s.dropSender.chain.first.closed = true := by
    intro hclosed
    rcases Chain.closeUnless_cases V inputEnds s.chain (s.stdinOpen || s.resizes) with
      ⟨hsame, -⟩ | ⟨-, hnobody⟩
    · exact (congrArg (fun chain => Channel.closed (Chain.first chain)) hsame).trans hclosed
    · show (s.chain.closeUnless (s.stdinOpen || s.resizes)).first.closed = true
      rw [hnobody]
      exact congrArg Channel.closed (Chain.channel_set_self 0 _)
  refine ⟨fun hwriter => (h.whole hwriter).closeUnless hV _, fun hwriter => ?_, ?_⟩
  · obtain ⟨hopen, hend, hall⟩ := h.left hwriter
    rw [received_last_dropSender, hsent]
    exact ⟨hopen, hend.imp id hclosed, hall⟩
  · rw [hsent]
    exact h.stdin

/-- The thread takes out a `Close`: all that was sent before the first one has come out. -/
theorem received_close {chain : Chain 3 TerminalInput} (h : Chain.Whole V inputEnds chain)
    (hV : ∀ i, (V i).Documented)
    (hgives : (V (Fin.last 3)).gives chain.last = some (.item .close)) :
    (.close ∈ chain.first.sent ∨ chain.first.closed = true) ∧
      untilClose (chain.last.received ++ [.close]) = untilClose chain.first.sent := by
  obtain ⟨words, hwords, hclosing, hprefix, -, -⟩ := h.sent hV (Fin.last 3)
  have hbefore : chain.last.received ++ [.close] <+: chain.first.sent ++ words :=
    ((hV _).order _ _ (h.sound.shown _) hgives).trans hprefix
  have hmem : .close ∈ chain.last.received ++ [TerminalInput.close] :=
    List.mem_append_right _ (List.mem_singleton_self _)
  constructor
  · rcases List.mem_append.mp (hbefore.subset hmem) with hsent | hword
    · exact Or.inl hsent
    · exact Or.inr (hclosing (List.ne_nil_of_mem hword))
  · obtain ⟨later, hlater⟩ := hbefore
    rw [← view_untilClose.words hwords chain.first.sent, ← hlater]
    exact (untilClose_append_of_mem hmem later).symm

theorem Fed.not_open (h : Fed V s)
    (hend : .close ∈ s.chain.first.sent ∨ s.chain.first.closed = true) : s.stdinOpen = false := by
  by_contra hopen
  have hreads := Bool.eq_true_of_not_eq_false hopen
  rcases hend with hmem | hclosed
  · exact (h.reading hreads).2 hmem
  · exact absurd (hclosed.symm.trans (h.open_of_stdinOpen hreads)) (by decide)

/-- What is sent after a `Close`, or without one and without data, does not matter. -/
theorem data_untilClose_resize (l : List TerminalInput) (size : TerminalSize) :
    (untilClose (l ++ [.resize size])).flatMap TerminalInput.data =
      (untilClose l).flatMap TerminalInput.data := by
  by_cases hclose : .close ∈ l
  · rw [untilClose_append_of_mem hclose]
  · rw [untilClose_append_of_not_mem hclose, untilClose_of_not_mem hclose, List.flatMap_append]
    show _ ++ (untilClose [.resize size]).flatMap TerminalInput.data = _
    exact List.append_nil _

/-- In an undisturbed run nothing is lost between the standard input and the pseudoterminal. -/
theorem Unlost.step (hV : ∀ i, (V i).Documented) (hfed : Fed V s) (h : Unlost V s)
    (hundisturbed : action.Undisturbed) (hstep : s.step V action = some s') : Unlost V s' := by
  cases takes_of_step hstep with
  | carries hproducer hclose hconsumer hchain hholds =>
      have hsent := Chain.sent_first_step hchain hproducer
      refine ⟨?_, ?_, ?_⟩
      · exact fun hwriter =>
          (h.whole hwriter).step hV ⟨hholds hundisturbed, hconsumer.2⟩ hchain
      · rw [hsent, Chain.closed_first_step hchain hclose,
          Chain.received_last_step hchain hconsumer.1]
        exact h.left
      · rw [hsent]
        exact h.stdin
  | @sends action x chain hsends hchain =>
      obtain ⟨hsent, hclosed, hreceived⟩ := Chain.send_step hchain
      refine ⟨fun hwriter => (h.whole hwriter).step hV (s.chain.stays_send x) hchain, ?_, ?_⟩
      · intro hwriter
        -- the writer has left, so what is sent now comes after a `Close` and does not count
        obtain ⟨hopen, hend, hall⟩ := h.left hwriter
        rcases hend with hmem | hfirst
        · rw [hsent, hreceived]
          exact ⟨hopen, Or.inl (List.mem_append_left _ hmem),
            hall.trans (untilClose_append_of_mem hmem _).symm⟩
        · exact absurd (hfirst.symm.trans (Chain.open_of_send hchain)) (by decide)
      · show (untilClose chain.first.sent).flatMap TerminalInput.data = s.stdin ++ x.data
        rw [hsent]
        rcases hsends with ⟨data, rfl, hopen⟩ | ⟨size, rfl, -⟩
        -- a reader that goes on has not sent a `Close`
        · have hnot := (hfed.reading hopen).2
          rw [untilClose_append_of_not_mem hnot, List.flatMap_append,
            ← untilClose_of_not_mem hnot, h.stdin]
          show s.stdin ++ (data ++ []) = s.stdin ++ data
          rw [List.append_nil]
        · rw [data_untilClose_resize, h.stdin]
          exact (List.append_nil _).symm
  | stays => exact h
  | @readsEnd action chain lost hopen hchain =>
      -- the writer leaves only after the reader has stopped
      have hwriter : s.writer ≠ .left := fun hleft =>
        absurd (hopen.symm.trans (h.left hleft).1) (by decide)
      have hwhole := h.whole hwriter
      rcases hchain with ⟨rfl, hchain⟩ | ⟨⟨x, hnone⟩, rfl⟩
      · refine Unlost.dropSender hV ⟨fun _ => hwhole.step hV (s.chain.stays_send .close) hchain,
          fun hleft => absurd hleft hwriter, ?_⟩
        show (untilClose chain.first.sent).flatMap TerminalInput.data = s.stdin ++ []
        rw [(Chain.send_step hchain).1, untilClose_append_close, List.append_nil]
        exact h.stdin
      · exact absurd hnone (hwhole.send_ne_none hV (hfed.open_of_stdinOpen hopen) x)
  | watchEnds hresizes => exact Unlost.dropSender hV ⟨h.whole, h.left, h.stdin⟩
  | @next action x chain hwriter hgives hchain =>
      have hwhole := h.whole (by simp [hwriter])
      have hsent := Chain.sent_first_step hchain (by simp)
      have hstill : Chain.Whole V inputEnds chain :=
        hwhole.step hV s.chain.stays_receive hchain
      have hstdin : (untilClose chain.first.sent).flatMap TerminalInput.data = s.stdin := by
        rw [hsent]
        exact h.stdin
      cases x with
      | bytes data => exact ⟨fun _ => hstill, fun hleft => by simp [handle] at hleft, hstdin⟩
      | resize size =>
          refine ⟨fun _ => hstill, fun hleft => ?_, hstdin⟩
          exact absurd (hwriter.symm.trans hleft) (by decide)
      | close =>
          obtain ⟨y, hgives', hreceived⟩ := Chain.receive_last_step hchain
          obtain rfl := Received.item.inj (Option.some_inj.mp (hgives.symm.trans hgives'))
          -- a `Close` comes from the reader, or from a relay at the end of its input
          obtain ⟨hend, hall⟩ := received_close hwhole hV hgives
          refine ⟨fun hleft => absurd rfl hleft, fun _ => ⟨hfed.not_open hend, ?_, ?_⟩, ?_⟩
          · show .close ∈ chain.dropLast.first.sent ∨ chain.dropLast.first.closed = true
            rw [Chain.sent_first_dropLast, Chain.closed_first_dropLast, hsent,
              Chain.closed_first_step hchain (by simp)]
            exact hend
          · show untilClose chain.dropLast.last.received = untilClose chain.dropLast.first.sent
            rw [Chain.received_last_dropLast, Chain.sent_first_dropLast, hreceived, hsent]
            exact hall
          · show (untilClose chain.dropLast.first.sent).flatMap TerminalInput.data = s.stdin
            rw [Chain.sent_first_dropLast]
            exact hstdin
  | leaves hwriter hgives =>
      have hwhole := h.whole (by simp [hwriter])
      rcases hgives with hgives | hfailed
      -- the channels have run empty: all that was sent before a `Close` is here
      · obtain ⟨hfirst, -, words, hwords, hreceived⟩ := hwhole.finished_last hV hgives
        refine ⟨fun hleft => absurd rfl hleft, fun _ => ⟨hfed.not_open (Or.inr hfirst), ?_, ?_⟩,
          ?_⟩
        · exact Or.inr ((Chain.closed_first_dropLast s.chain).trans hfirst)
        · show untilClose s.chain.dropLast.last.received = untilClose s.chain.dropLast.first.sent
          rw [Chain.received_last_dropLast, Chain.sent_first_dropLast, hreceived,
            view_untilClose.words hwords]
        · show (untilClose s.chain.dropLast.first.sent).flatMap TerminalInput.data = s.stdin
          rw [Chain.sent_first_dropLast]
          exact h.stdin
      · exact absurd hfailed (hwhole.not_failed hV)
  | writes hwriter =>
      exact ⟨fun _ => h.whole (by simp [hwriter]), fun hleft => by simp at hleft, h.stdin⟩
  | written hwriter =>
      exact ⟨fun _ => h.whole (by simp [hwriter]), fun hleft => by simp at hleft, h.stdin⟩
  | givesUp hwriter => exact hundisturbed.elim

theorem unlost_start (hV : ∀ i, (V i).Documented) (size : TerminalSize) :
    Unlost V (start V size) := by
  rcases Chain.trySend_cases V inputEnds (Chain.empty 3 TerminalInput)
      (.resize size) with hstep | ⟨hnone, -⟩
  · refine ⟨fun _ => Chain.whole_empty.step hV (Chain.stays_send _ _) hstep, ?_, ?_⟩
    · intro hleft
      exact absurd (show (Writer.next) = .left from hleft) (by decide)
    · have hsent : (start V size).chain.first.sent = [.resize size] := (Chain.send_step hstep).1
      rw [hsent]
      rfl
  · exact absurd hnone (Chain.whole_empty.send_ne_none hV rfl _)

/-! ## What is typed arrives -/

/-- The relays and the writing thread have nothing to do. -/
def AtRest (V : Fin 4 → Transport TerminalInput) (s : InputPath) : Prop :=
  (∀ i, s.step V (.relay i) = none) ∧ s.step V .next = none ∧ ∀ write, s.step V (.write write) = none

/-- At rest the writer has left, or the channels have nothing to give it. -/
theorem AtRest.cases (h : s.AtRest V) :
    s.writer = .left ∨
      s.writer = .next ∧ (V (Fin.last 3)).gives s.chain.last = none ∧
        Chain.Quiet V inputEnds s.chain := by
  obtain ⟨hrelays, hnext, hwrite⟩ := h
  cases hwriter : s.writer with
  | next =>
      refine Or.inr ⟨rfl, ?_, fun i => Option.map_eq_none_iff.mp (hrelays i)⟩
      rw [step, hwriter] at hnext
      cases hgives : (V (Fin.last 3)).gives s.chain.last with
      | none => rfl
      | some got =>
          rw [hgives] at hnext
          cases got with
          | item x =>
              have hstep := Option.map_eq_none_iff.mp hnext
              rw [Chain.step, hgives] at hstep
              simp at hstep
          | closed => simp at hnext
          | failed => simp at hnext
  | writing remaining =>
      have hinterrupted := hwrite .interrupted
      cases remaining <;> simp [step, hwriter] at hinterrupted
  | left => exact Or.inl rfl

theorem fed_of_runs {size : TerminalSize} (h : Runs (step V) Any (start V size) actions s) :
    Fed V s :=
  h.invariant (fun _ _ _ hfed _ hstep => hfed.step hstep) (fed_start V size)

theorem unlost_of_runs {size : TerminalSize} (hV : ∀ i, (V i).Documented)
    (h : Runs (step V) (fun _ a => a.Undisturbed) (start V size) actions s) : Unlost V s := by
  have hboth : Fed V s ∧ Unlost V s := h.invariant (p := fun s => Fed V s ∧ Unlost V s)
    (fun _ _ _ hknown hcond hstep =>
      ⟨hknown.1.step hstep, hknown.2.step hV hknown.1 hcond hstep⟩)
    ⟨fed_start V size, unlost_start hV size⟩
  exact hboth.2

theorem typed_of_runs {size : TerminalSize} (h : Runs (step V) Any (start V size) actions s) :
    Typed (fun p m => p <+: m.shown) s.writer s.chain.last.received s.pty :=
  h.invariant (p := fun s => Typed _ s.writer s.chain.last.received s.pty)
    (fun _ _ _ htyped _ hstep =>
      htyped.step (fun _ => List.prefix_rfl) (Or.inr fun _ _ hprefix => hprefix) hstep)
    (typed_start V size)

theorem typed_of_undisturbed {size : TerminalSize}
    (h : Runs (step V) (fun _ a => a.Undisturbed) (start V size) actions s) :
    Typed (fun p m => p = m.shown) s.writer s.chain.last.received s.pty :=
  h.invariant (p := fun s => Typed _ s.writer s.chain.last.received s.pty)
    (fun _ _ _ htyped hcond hstep => htyped.step (fun _ => rfl) (Or.inl hcond) hstep)
    (typed_start V size)

theorem filterMap_byte?_shown (messages : List TerminalInput) :
    (messages.flatMap TerminalInput.shown).filterMap PtyEvent.byte? =
      messages.flatMap TerminalInput.data := by
  have hone : ∀ m : TerminalInput, m.shown.filterMap PtyEvent.byte? = m.data := by
    intro m
    cases m with
    | bytes data => simp [TerminalInput.shown, TerminalInput.data, PtyEvent.byte?, Function.comp_def]
    | resize size => rfl
    | close => rfl
  rw [List.filterMap_flatMap]
  exact List.flatMap_congr fun m _ => hone m

/-- Whatever happens to the connections and in whatever order the steps are taken, the pseudoterminal
gets parts of the client's first messages, in their order, and nothing after the first `Close`.  Where
nothing goes wrong it gets each message whole; once the path has come to rest it has got every byte
that was read from the standard input. -/
theorem keystrokes_arrive {size : TerminalSize} (hV : ∀ i, (V i).Documented)
    (hrun : Runs (step V) Any (start V size) actions s) :
    (∃ messages parts, messages <+: untilClose s.chain.first.sent ∧
        List.Forall₂ (fun part m => part <+: m.shown) parts messages ∧ s.pty = parts.flatten) ∧
      (untilClose s.chain.first.sent).flatMap TerminalInput.data <+: s.stdin ∧
      (Runs (step V) (fun _ a => a.Undisturbed) (start V size) actions s →
        s.pty <+: (untilClose s.chain.first.sent).flatMap TerminalInput.shown ∧
          (s.AtRest V → s.pty = (untilClose s.chain.first.sent).flatMap TerminalInput.shown ∧
            s.pty.filterMap PtyEvent.byte? = s.stdin)) := by
  have hfed := fed_of_runs hrun
  have hview : untilClose s.chain.last.received <+: untilClose s.chain.first.sent :=
    hfed.sound.received_isPrefix hV view_untilClose
  refine ⟨?_, ?_, fun hundisturbed => ⟨?_, fun hrest => ?_⟩⟩
  · obtain ⟨messages, parts, hprefix, hparts, hpty⟩ :=
      (typed_of_runs hrun).parts fun _ _ hprefix => hprefix
    exact ⟨messages, parts, hprefix.trans hview, hparts, hpty⟩
  · exact ((List.takeWhile_prefix _).flatMap _).trans hfed.read
  · exact (typed_of_undisturbed hundisturbed).whole.1.trans (hview.flatMap _)
  · have hunlost := unlost_of_runs hV hundisturbed
    have hall : untilClose s.chain.last.received = untilClose s.chain.first.sent ∧
        ∀ remaining, s.writer ≠ .writing remaining := by
      rcases hrest.cases with hleft | ⟨hnext, hgives, hquiet⟩
      · exact ⟨(hunlost.left hleft).2.2, by simp [hleft]⟩
      · have hwhole := hunlost.whole (by simp [hnext])
        obtain ⟨words, hwords, hreceived⟩ := hwhole.received_quiet hV hquiet hgives
        rw [hreceived, view_untilClose.words hwords]
        exact ⟨rfl, by simp [hnext]⟩
    have hpty := (typed_of_undisturbed hundisturbed).whole.2 hall.2
    rw [hall.1] at hpty
    exact ⟨hpty, by rw [hpty, filterMap_byte?_shown, hunlost.stdin]⟩

/-- A message's way through the three relays. -/
def carried : List InputAction :=
  [.relay 0, .relay 0, .relay 1, .relay 1, .relay 2, .relay 2, .next]

/-- Two bytes are typed, written one at a time, and the input ends. -/
def twoBytes : List InputAction :=
  .stdin (.data [104, 105]) :: carried ++ carried ++
    [.write (.wrote 1), .write .interrupted, .write (.wrote 1), .write .interrupted, .stdin .eof] ++
    carried

/-- Every channel is a queue. -/
def queues (_ : Fin 4) : Transport TerminalInput := Transport.queue TerminalInput

theorem keystrokes_arrive_twoBytes :
    ∃ s, Runs (step queues) Any (start queues ⟨24, 80⟩) twoBytes s ∧
      Runs (step queues) (fun _ a => a.Undisturbed) (start queues ⟨24, 80⟩) twoBytes s ∧
      s.AtRest queues ∧ s.pty = [.setSize ⟨24, 80⟩, .byte 104, .byte 105] ∧
      s.pty.filterMap PtyEvent.byte? = s.stdin := by
  have hexists : ∃ s, Runs (step queues) (fun _ a => a.Undisturbed) (start queues ⟨24, 80⟩)
      twoBytes s ∧ s.writer = .left ∧ (∀ i, (s.step queues (.relay i)).isNone = true) ∧
      s.pty = [.setSize ⟨24, 80⟩, .byte 104, .byte 105] :=
    exists_runs_of_runIf (by decide)
  obtain ⟨s, hrun, hwriter, hrelays, hpty⟩ := hexists
  have hrest : s.AtRest queues := by
    refine ⟨fun i => Option.isNone_iff_eq_none.mp (hrelays i), ?_, fun write => ?_⟩
    · simp only [step, hwriter]
    · simp only [step, hwriter]
  have hany : Runs (step queues) Any (start queues ⟨24, 80⟩) twoBytes s :=
    hrun.imp fun _ _ _ => trivial
  have hqueues : ∀ i, (queues i).Documented := fun _ => Transport.documented_queue _
  exact ⟨s, hany, hrun, hrest, hpty, (((keystrokes_arrive hqueues hany).2.2 hrun).2 hrest).2⟩

end InputPath

end Stax.Terminal
