/-
# Stax.Terminal.Output — from the launched program to the screen.

A thread of the shade reads the pseudoterminal, and the recording reports how the program ended; a task
takes what both say to the server, which takes it on to the client.  The client writes the bytes to its
standard output.  The recording's last call waits until the shade's task is done.

The exit status may come before the last bytes, and the client has no use for it.  An error of the
server's own comes last.  How the channels behave is a parameter, and what is assumed of them is
`Transport.Documented`.
-/
import Stax.Lib.Relay

namespace Stax.Terminal

open Stax.Lib Stax.Lib.Machine Stax.Lib.Relay

/-! ## Messages -/

/-- The messages from the target's terminal to the client's. -/
inductive TerminalOutput
  | bytes (data : List UInt8)
  | exitStatus (code : Option Int) (signal : Option Int)
  | error (message : String)
  deriving DecidableEq, Repr

/-- How the target has ended, as far as it is known. -/
structure ChildExit where
  code : Option Int
  signal : Option Int
  deriving DecidableEq, Repr

namespace TerminalOutput

/-- The bytes that a message carries. -/
def data : TerminalOutput → List UInt8
  | bytes data => data
  | exitStatus _ _ | error _ => []

/-- What the client writes to its standard error. -/
def complaint? : TerminalOutput → Option String
  | error message => some ("stax terminal: " ++ message)
  | bytes _ | exitStatus _ _ => none

/-- The exit that a message reports, where it reports one. -/
def exit? : TerminalOutput → Option ChildExit
  | exitStatus code signal => some { code := code, signal := signal }
  | bytes _ | error _ => none

end TerminalOutput

/-! ## The path -/

/-- What the server says where its channel from the shade fails. -/
def serverError (failure : String) : TerminalOutput :=
  .error ("terminal output channel failed: " ++ failure)

/-- The server's relay says how its channel failed; the shade's task just stops. -/
def outputEnds (failure : String) : Fin 2 → Ends TerminalOutput
  | 0 => {}
  | 1 => { onFailed := some (serverError failure) }

/-- The recording's handle on the path. -/
inductive TerminalPump
  | running
  | reported
  | finishing
  | finished
  | dropped
  deriving DecidableEq, Repr

/-- The handle still holds a sender. -/
def TerminalPump.sends : TerminalPump → Bool
  | .running | .reported => true
  | .finishing | .finished | .dropped => false

/-- What reading the pseudoterminal gives; where the other side closes it, that is an error too. -/
inductive PtyRead
  | data (data : List UInt8)
  | eof
  | interrupted
  | hangup
  | failed (err : String)
  deriving DecidableEq, Repr

/-- The channels between the shade and the server, and between the server and the client. -/
inductive OutputLink
  | toServer
  | toFrontend
  deriving DecidableEq, Repr

/-- Which of the chain's channels a connection carries. -/
def OutputLink.index : OutputLink → Fin 3
  | .toServer => (Fin.last 1).castSucc
  | .toFrontend => Fin.last 2

/-- The way of what the target prints: from the pseudoterminal, through the shade and the server, to
the client's standard output. -/
structure OutputPath where
  chain : Chain 2 TerminalOutput := Chain.empty 2 TerminalOutput
  readerOpen : Bool := true
  pump : TerminalPump := .running
  /-- The client's task is there. -/
  shows : Bool := true
  /-- What was read from the pseudoterminal and what was reported, and what was written to the
  standard output and to the standard error. -/
  read : List UInt8 := []
  exit : Option ChildExit := none
  stdout : List UInt8 := []
  stderr : List String := []

/-- What can happen on the way, each step of a thread or a task for itself. -/
inductive OutputAction
  | read (read : PtyRead)
  | reportExit (exit : ChildExit)
  | finish
  | joined
  | dropPump
  | relay (i : Fin 2)
  /-- The client takes a message; `write_all` may get through a part of it only. -/
  | receive (written : Option ℕ)
  | quit
  | lose (link : OutputLink) (kept : ℕ)
  deriving DecidableEq, Repr

/-- No connection is lost, the client stays, and what it writes gets through. -/
def OutputAction.Undisturbed : OutputAction → Prop
  | .lose _ _ | .quit | .receive (some _) => False
  | _ => True

instance instDecidableOutputUndisturbed : DecidablePred OutputAction.Undisturbed
  | .lose _ _ | .quit | .receive (some _) => isFalse id
  | .read _ | .reportExit _ | .finish | .joined | .dropPump | .relay _ | .receive none =>
    isTrue trivial

namespace OutputPath

variable (V : Fin 3 → Transport TerminalOutput) (failure : String)

/-- `let _ = output_events_tx.send(..)`, where the channel takes the message or not. -/
def send (s : OutputPath) (x : TerminalOutput) : OutputPath :=
  { s with chain := s.chain.trySend V (outputEnds failure) x }

/-- A sender of the shade goes away; the channel closes with the last of them. -/
def dropSender (s : OutputPath) : OutputPath :=
  { s with chain := s.chain.closeUnless (s.readerOpen || s.pump.sends) }

/-- The thread that reads the pseudoterminal. -/
def readPty (s : OutputPath) : PtyRead → OutputPath
  | .data data =>
    match s.chain.step V (outputEnds failure) (.send (.bytes data)) with
    | some chain => { s with chain := chain, read := s.read ++ data }
    | none => { s with readerOpen := false, read := s.read ++ data }.dropSender
  | .eof | .hangup => { s with readerOpen := false }.dropSender
  | .interrupted => s
  | .failed err =>
    { s.send V failure (.error ("pty read failed: " ++ err)) with readerOpen := false }.dropSender

/-- What the client's task does with a message. -/
def handle (s : OutputPath) (written : Option ℕ) : TerminalOutput → OutputPath
  | .bytes data =>
    { s with stdout := s.stdout ++ written.elim data fun n => data.take n }
  | .exitStatus _ _ => s
  | .error message => { s with stderr := s.stderr ++ ["stax terminal: " ++ message] }

/-- What an action does, where it can happen at all. -/
def step (s : OutputPath) : OutputAction → Option OutputPath
  | .read read => if s.readerOpen then some (s.readPty V failure read) else none
  | .reportExit exit =>
    if s.pump = .running then
      some { s.send V failure (.exitStatus exit.code exit.signal) with
        pump := .reported
        exit := some exit }
    else none
  | .finish => if s.pump.sends then some { s with pump := .finishing }.dropSender else none
  | .joined =>
    if s.pump = .finishing ∧ s.chain.phase 0 = .ended then some { s with pump := .finished }
    else none
  | .dropPump => if s.pump.sends then some { s with pump := .dropped }.dropSender else none
  | .relay i =>
    (s.chain.step V (outputEnds failure) (.relay i)).map fun chain => { s with chain := chain }
  | .receive written =>
    if s.shows then
      match (V (Fin.last 2)).gives s.chain.last with
      | some (.item x) =>
        (s.chain.step V (outputEnds failure) .receive).map fun chain =>
          { s with chain := chain }.handle written x
      | some .failed =>
        some { s with
          shows := false
          stderr := s.stderr ++ ["stax terminal recv failed: " ++ failure]
          chain := s.chain.dropLast }
      | some .closed => some { s with shows := false, chain := s.chain.dropLast }
      | none => none
    else none
  | .quit => some { s with shows := false, chain := s.chain.dropLast }
  | .lose link kept =>
    (s.chain.step V (outputEnds failure) (.lose link.index kept)).map
      fun chain => { s with chain := chain }

/-! ## What a step can do -/

/-- What a step comes to, by the end of the path that it concerns. -/
inductive Takes (s : OutputPath) : OutputAction → OutputPath → Prop
  | relays {i : Fin 2} {chain : Chain 2 TerminalOutput}
      (hstep : s.chain.step V (outputEnds failure) (.relay i) = some chain) :
      Takes s (.relay i) { s with chain := chain }
  | loses {action : OutputAction} {chainAction : Relay.Action 2 TerminalOutput}
      {chain : Chain 2 TerminalOutput} (hproducer : ∀ x, chainAction ≠ .send x)
      (hclose : chainAction ≠ .close) (hconsumer : chainAction ≠ .receive)
      (hstep : s.chain.step V (outputEnds failure) chainAction = some chain)
      (hdisturbs : ¬action.Undisturbed) : Takes s action { s with chain := chain }
  | stays {action : OutputAction} : Takes s action s
  | sends {action : OutputAction} {data : List UInt8} {chain : Chain 2 TerminalOutput}
      (hopen : s.readerOpen = true)
      (hstep : s.chain.step V (outputEnds failure) (.send (.bytes data)) = some chain) :
      Takes s action { s with chain := chain, read := s.read ++ data }
  /-- The thread stops reading, after an error maybe. -/
  | readsEnd {action : OutputAction} {chain : Chain 2 TerminalOutput} {lost : List UInt8}
      (hopen : s.readerOpen = true)
      (hchain : lost = [] ∧ (chain = s.chain ∨ ∃ message,
          s.chain.step V (outputEnds failure) (.send (.error message)) = some chain) ∨
        (∃ x, s.chain.step V (outputEnds failure) (.send x) = none) ∧ chain = s.chain) :
      Takes s action { s with chain := chain, readerOpen := false, read := s.read ++ lost }.dropSender
  | reports {action : OutputAction} {exit : ChildExit} {chain : Chain 2 TerminalOutput}
      (hpump : s.pump = .running)
      (hchain : s.chain.step V (outputEnds failure) (.send (.exitStatus exit.code exit.signal)) =
          some chain ∨
        s.chain.step V (outputEnds failure) (.send (.exitStatus exit.code exit.signal)) = none ∧
          chain = s.chain) :
      Takes s action { s with chain := chain, pump := .reported, exit := some exit }
  | pumpEnds {action : OutputAction} {pump : TerminalPump} (hsends : s.pump.sends = true)
      (hpump : pump = .finishing ∨ pump = .dropped) : Takes s action { s with pump := pump }.dropSender
  | joins {action : OutputAction} (hpump : s.pump = .finishing)
      (hended : s.chain.phase 0 = .ended) : Takes s action { s with pump := .finished }
  | receives {written : Option ℕ} {x : TerminalOutput} {chain : Chain 2 TerminalOutput}
      (hshows : s.shows = true) (hgives : (V (Fin.last 2)).gives s.chain.last = some (.item x))
      (hstep : s.chain.step V (outputEnds failure) .receive = some chain) :
      Takes s (.receive written) ({ s with chain := chain }.handle written x)
  /-- The client finds that no more will come, or goes away by itself. -/
  | leaves {action : OutputAction} {complaints : List String} (hshows : s.shows = true)
      (hgives : (V (Fin.last 2)).gives s.chain.last = some .failed ∧
          complaints = ["stax terminal recv failed: " ++ failure] ∨
        (V (Fin.last 2)).gives s.chain.last = some .closed ∧ complaints = []) :
      Takes s action { s with
        shows := false
        stderr := s.stderr ++ complaints
        chain := s.chain.dropLast }
  | quits : Takes s .quit { s with shows := false, chain := s.chain.dropLast }

variable {V : Fin 3 → Transport TerminalOutput} {failure : String} {s s' : OutputPath}
  {action : OutputAction} {actions : List OutputAction}

/-- Every step is one of those that `Takes` lists, with what it needs. -/
theorem takes_of_step (h : s.step V failure action = some s') : Takes V failure s action s' := by
  -- one case for each action; an action that cannot happen here leaves nothing to show
  cases action with
  | read read =>
      simp only [step] at h
      split at h
      · rename_i hopen
        obtain rfl := Option.some_inj.mp h
        have hnothing : s.read = s.read ++ [] := (List.append_nil _).symm
        have hclean : Takes V failure s (.read read) { s with readerOpen := false }.dropSender := by
          show Takes V failure s _ ({ s with
            chain := s.chain, readerOpen := false, read := s.read }.dropSender)
          rw [hnothing]
          exact .readsEnd hopen (Or.inl ⟨rfl, Or.inl rfl⟩)
        cases read with
        | data data =>
            simp only [readPty]
            cases hsend : s.chain.step V (outputEnds failure) (.send (.bytes data)) with
            | some chain => exact .sends hopen hsend
            | none => exact .readsEnd hopen (Or.inr ⟨⟨_, hsend⟩, rfl⟩)
        | eof => exact hclean
        | hangup => exact hclean
        | interrupted => exact .stays
        | failed err =>
            show Takes V failure s _ ({ s with
              chain := s.chain.trySend V (outputEnds failure)
                (.error ("pty read failed: " ++ err))
              readerOpen := false
              read := s.read }.dropSender)
            rw [hnothing]
            rcases Chain.trySend_cases V (outputEnds failure) s.chain
                (.error ("pty read failed: " ++ err)) with hsend | hsame
            · exact .readsEnd hopen (Or.inl ⟨rfl, Or.inr ⟨_, hsend⟩⟩)
            · exact .readsEnd hopen (Or.inl ⟨rfl, Or.inl hsame.2⟩)
      · simp at h
  | reportExit exit =>
      simp only [step] at h
      split at h
      · rename_i hpump
        obtain rfl := Option.some_inj.mp h
        show Takes V failure s _ { s with
          chain := s.chain.trySend V (outputEnds failure) (.exitStatus exit.code exit.signal)
          pump := .reported
          exit := some exit }
        exact .reports hpump (Chain.trySend_cases V (outputEnds failure) s.chain _)
      · simp at h
  | finish =>
      simp only [step] at h
      split at h
      · rename_i hsends
        obtain rfl := Option.some_inj.mp h
        exact .pumpEnds hsends (Or.inl rfl)
      · simp at h
  | joined =>
      simp only [step] at h
      split at h
      · rename_i hjoined
        obtain rfl := Option.some_inj.mp h
        exact .joins hjoined.1 hjoined.2
      · simp at h
  | dropPump =>
      simp only [step] at h
      split at h
      · rename_i hsends
        obtain rfl := Option.some_inj.mp h
        exact .pumpEnds hsends (Or.inr rfl)
      · simp at h
  | relay i =>
      obtain ⟨chain, hstep, rfl⟩ := Option.map_eq_some_iff.mp h
      exact .relays hstep
  | receive written =>
      rw [step] at h
      split at h
      · rename_i hshows
        cases hgives : (V (Fin.last 2)).gives s.chain.last with
        | none =>
            rw [hgives] at h
            simp at h
        | some got =>
            cases got with
            | item x =>
                rw [hgives] at h
                obtain ⟨chain, hstep, rfl⟩ := Option.map_eq_some_iff.mp h
                exact .receives hshows hgives hstep
            | closed =>
                rw [hgives] at h
                obtain rfl := Option.some_inj.mp h
                have hnothing : s.stderr ++ [] = s.stderr := List.append_nil _
                show Takes V failure s _ { s with
                  shows := false
                  stderr := s.stderr
                  chain := s.chain.dropLast }
                rw [← hnothing]
                exact .leaves hshows (Or.inr ⟨hgives, rfl⟩)
            | failed =>
                rw [hgives] at h
                obtain rfl := Option.some_inj.mp h
                exact .leaves hshows (Or.inl ⟨hgives, rfl⟩)
      · simp at h
  | quit =>
      obtain rfl := Option.some_inj.mp h
      exact .quits
  | lose link kept =>
      rw [step] at h
      obtain ⟨chain, hstep, rfl⟩ := Option.map_eq_some_iff.mp h
      exact .loses (by simp) (by simp) (by simp) hstep id

/-! ## What the shade sends -/

@[simp] theorem sent_first_dropSender (s : OutputPath) :
    s.dropSender.chain.first.sent = s.chain.first.sent :=
  Chain.sent_first_closeUnless s.chain _

@[simp] theorem received_last_dropSender (s : OutputPath) :
    s.dropSender.chain.last.received = s.chain.last.received :=
  Chain.received_last_closeUnless s.chain _

/-- What the shade has sent, against what was read and reported. -/
structure Fed (V : Fin 3 → Transport TerminalOutput) (failure : String) (s : OutputPath) :
    Prop where
  sound : Chain.Sound V (outputEnds failure) s.chain
  closed : s.chain.first.closed = (!s.readerOpen && !s.pump.sends)
  read : s.chain.first.sent.flatMap TerminalOutput.data <+: s.read
  reading : s.readerOpen = true → s.chain.first.sent.flatMap TerminalOutput.data = s.read
  exit : s.chain.first.sent.filterMap TerminalOutput.exit? <+: s.exit.toList
  unreported : s.pump = .running → s.exit = none

theorem Fed.dropSender (hsound : Chain.Sound V (outputEnds failure) s.chain)
    (hclosed : s.chain.first.closed = false)
    (hread : s.chain.first.sent.flatMap TerminalOutput.data <+: s.read)
    (hreading : s.readerOpen = true → s.chain.first.sent.flatMap TerminalOutput.data = s.read)
    (hexit : s.chain.first.sent.filterMap TerminalOutput.exit? <+: s.exit.toList)
    (hunreported : s.pump = .running → s.exit = none) : Fed V failure s.dropSender := by
  refine ⟨hsound.closeUnless _, ?_, ?_, ?_, ?_, hunreported⟩
  · exact (Chain.closed_first_closeUnless hclosed _).trans (Bool.not_or _ _)
  · rw [sent_first_dropSender]
    exact hread
  · rw [sent_first_dropSender]
    exact hreading
  · rw [sent_first_dropSender]
    exact hexit

theorem Fed.open_of_readerOpen (h : Fed V failure s) (hopen : s.readerOpen = true) :
    s.chain.first.closed = false := by
  rw [h.closed, hopen]
  rfl

theorem Fed.open_of_sends (h : Fed V failure s) (hsends : s.pump.sends = true) :
    s.chain.first.closed = false := by
  rw [h.closed, hsends, Bool.not_true, Bool.and_false]

/-- The first channel says the same of a path whose first channel sent the same. -/
theorem Fed.congr {chain : Chain 2 TerminalOutput} (h : Fed V failure s)
    (hsound : Chain.Sound V (outputEnds failure) chain)
    (hclosed : chain.first.closed = s.chain.first.closed)
    (hsent : chain.first.sent = s.chain.first.sent) {shows : Bool} {stdout : List UInt8}
    {stderr : List String} :
    Fed V failure { s with chain := chain, shows := shows, stdout := stdout, stderr := stderr } := by
  refine ⟨hsound, hclosed.trans h.closed, ?_, ?_, ?_, h.unreported⟩
  · show chain.first.sent.flatMap TerminalOutput.data <+: s.read
    rw [hsent]
    exact h.read
  · show s.readerOpen = true → chain.first.sent.flatMap TerminalOutput.data = s.read
    rw [hsent]
    exact h.reading
  · show chain.first.sent.filterMap TerminalOutput.exit? <+: s.exit.toList
    rw [hsent]
    exact h.exit

theorem Fed.handle {written : Option ℕ} {x : TerminalOutput} (h : Fed V failure s) :
    Fed V failure (s.handle written x) := by
  cases x with
  | bytes data => exact h.congr h.sound rfl rfl
  | exitStatus code signal => exact h
  | error message => exact h.congr h.sound rfl rfl

/-- What was sent into the path is what was read, up to a refused message, and one exit at most. -/
theorem Fed.step (h : Fed V failure s) (hstep : s.step V failure action = some s') :
    Fed V failure s' := by
  cases takes_of_step hstep with
  | relays hchain =>
      exact h.congr (h.sound.step hchain) (Chain.closed_first_step hchain (by simp))
        (Chain.sent_first_step hchain (by simp))
  | loses hproducer hclose hconsumer hchain hdisturbs =>
      exact h.congr (h.sound.step hchain) (Chain.closed_first_step hchain hclose)
        (Chain.sent_first_step hchain hproducer)
  | stays => exact h
  | @sends action data chain hopen hchain =>
      obtain ⟨hsent, hclosed, -⟩ := Chain.send_step hchain
      -- while the reader goes on, the bytes sent are exactly those read
      have hdata : chain.first.sent.flatMap TerminalOutput.data = s.read ++ data := by
        rw [hsent, List.flatMap_append, List.flatMap_singleton, h.reading hopen]
        rfl
      refine ⟨h.sound.step hchain, hclosed.trans h.closed, ?_, fun _ => hdata, ?_, h.unreported⟩
      · show chain.first.sent.flatMap TerminalOutput.data <+: s.read ++ data
        rw [hdata]
      · show chain.first.sent.filterMap TerminalOutput.exit? <+: s.exit.toList
        rw [hsent, List.filterMap_append]
        show _ ++ [] <+: _
        rw [List.append_nil]
        exact h.exit
  | @readsEnd action chain lost hopen hchain =>
      have hfirst := h.open_of_readerOpen hopen
      have hread : s.chain.first.sent.flatMap TerminalOutput.data <+: s.read ++ lost :=
        h.read.trans (List.prefix_append _ _)
      -- at the end of the terminal; after an error that is sent; or with bytes that were refused
      rcases hchain with ⟨-, rfl | ⟨message, hchain⟩⟩ | ⟨-, rfl⟩
      · exact Fed.dropSender h.sound hfirst hread (fun hfalse => by simp at hfalse) h.exit
          h.unreported
      · obtain ⟨hsent, hclosed, -⟩ := Chain.send_step hchain
        refine Fed.dropSender (h.sound.step hchain) (hclosed.trans hfirst) ?_
          (fun hfalse => by simp at hfalse) ?_ h.unreported
        · show chain.first.sent.flatMap TerminalOutput.data <+: s.read ++ lost
          rw [hsent, List.flatMap_append, List.flatMap_singleton]
          show _ ++ [] <+: _
          rw [List.append_nil]
          exact hread
        · show chain.first.sent.filterMap TerminalOutput.exit? <+: s.exit.toList
          rw [hsent, List.filterMap_append]
          show _ ++ [] <+: _
          rw [List.append_nil]
          exact h.exit
      · exact Fed.dropSender h.sound hfirst hread (fun hfalse => by simp at hfalse) h.exit
          h.unreported
  | @reports action exit chain hpump hchain =>
      have hnone := h.exit
      rw [h.unreported hpump, Option.toList_none, List.prefix_nil] at hnone
      -- before and after the report the pump has its sender
      have hpumpClosed : s.chain.first.closed = (!s.readerOpen && !TerminalPump.reported.sends) := by
        rw [h.closed, hpump]
        rfl
      rcases hchain with hchain | ⟨-, rfl⟩
      · obtain ⟨hsent, hclosed, -⟩ := Chain.send_step hchain
        have hdata : chain.first.sent.flatMap TerminalOutput.data =
            s.chain.first.sent.flatMap TerminalOutput.data := by
          rw [hsent, List.flatMap_append, List.flatMap_singleton]
          exact List.append_nil _
        refine ⟨h.sound.step hchain, hclosed.trans hpumpClosed, ?_, ?_, ?_,
          fun hrunning => by simp at hrunning⟩
        · show chain.first.sent.flatMap TerminalOutput.data <+: s.read
          rw [hdata]
          exact h.read
        · show s.readerOpen = true → chain.first.sent.flatMap TerminalOutput.data = s.read
          rw [hdata]
          exact h.reading
        · show chain.first.sent.filterMap TerminalOutput.exit? <+: [exit]
          rw [hsent, List.filterMap_append, hnone]
          exact List.prefix_rfl
      · refine ⟨h.sound, hpumpClosed, h.read, h.reading, ?_, fun hrunning => by simp at hrunning⟩
        show s.chain.first.sent.filterMap TerminalOutput.exit? <+: [exit]
        rw [hnone]
        exact List.nil_prefix
  | pumpEnds hsends hpump =>
      refine Fed.dropSender h.sound (h.open_of_sends hsends) h.read h.reading h.exit ?_
      intro hrunning
      rcases hpump with rfl | rfl <;> simp at hrunning
  | joins hpump hended =>
      refine ⟨h.sound, ?_, h.read, h.reading, h.exit, fun hrunning => by simp at hrunning⟩
      show s.chain.first.closed = (!s.readerOpen && !TerminalPump.finished.sends)
      rw [h.closed, hpump]
      rfl
  | receives hshows hgives hchain =>
      exact Fed.handle (h.congr (h.sound.step hchain) (Chain.closed_first_step hchain (by simp))
        (Chain.sent_first_step hchain (by simp)))
  | leaves hshows hgives =>
      -- a client that leaves does not concern the end that is fed
      have hchain : s.chain.step V (outputEnds failure) .leave = some s.chain.dropLast := rfl
      exact h.congr (h.sound.step hchain) (Chain.closed_first_dropLast s.chain)
        (Chain.sent_first_dropLast s.chain)
  | quits =>
      have hchain : s.chain.step V (outputEnds failure) .leave = some s.chain.dropLast := rfl
      exact h.congr (h.sound.step hchain) (Chain.closed_first_dropLast s.chain)
        (Chain.sent_first_dropLast s.chain)

theorem fed_start (V : Fin 3 → Transport TerminalOutput) (failure : String) : Fed V failure {} :=
  ⟨Chain.sound_empty, rfl, List.prefix_rfl, fun _ => rfl, List.prefix_rfl, fun _ => rfl⟩

/-! ## What the client shows -/

/-- The standard output got a part of the data of each message received, the standard error each error
received, and after them what the client said of a failure. -/
structure Shown (part : List UInt8 → TerminalOutput → Prop) (failure : String)
    (s : OutputPath) : Prop where
  stdout : ∃ parts, List.Forall₂ part parts s.chain.last.received ∧ s.stdout = parts.flatten
  stderr : ∃ last, s.stderr = s.chain.last.received.filterMap TerminalOutput.complaint? ++ last ∧
    (last = [] ∨ s.shows = false ∧ last = ["stax terminal recv failed: " ++ failure])

variable {part : List UInt8 → TerminalOutput → Prop}

/-- The client has received and shown nothing new. -/
theorem Shown.congr {s s' : OutputPath} (h : Shown part failure s)
    (hreceived : s'.chain.last.received = s.chain.last.received) (hstdout : s'.stdout = s.stdout)
    (hstderr : s'.stderr = s.stderr) (hshows : s.shows = false → s'.shows = false) :
    Shown part failure s' := by
  obtain ⟨last, hlast, hwhen⟩ := h.stderr
  refine ⟨?_, last, ?_, hwhen.imp id fun hleft => ⟨hshows hleft.1, hleft.2⟩⟩
  · rw [hreceived, hstdout]
    exact h.stdout
  · rw [hreceived, hstderr]
    exact hlast

theorem chain_handle (written : Option ℕ) (x : TerminalOutput) :
    (s.handle written x).chain = s.chain := by
  cases x <;> rfl

theorem shows_handle (written : Option ℕ) (x : TerminalOutput) :
    (s.handle written x).shows = s.shows := by
  cases x <;> rfl

theorem pump_handle (written : Option ℕ) (x : TerminalOutput) :
    (s.handle written x).pump = s.pump := by
  cases x <;> rfl

theorem stdout_handle (written : Option ℕ) (x : TerminalOutput) :
    (s.handle written x).stdout = s.stdout ++ written.elim x.data fun n => x.data.take n := by
  cases x with
  | bytes data => rfl
  | exitStatus code signal => cases written <;> simp [handle, TerminalOutput.data]
  | error message => cases written <;> simp [handle, TerminalOutput.data]

theorem stderr_handle (written : Option ℕ) (x : TerminalOutput) :
    (s.handle written x).stderr = s.stderr ++ x.complaint?.toList := by
  cases x with
  | bytes data => exact (List.append_nil _).symm
  | exitStatus code signal => exact (List.append_nil _).symm
  | error message => rfl

/-- What the client wrote is, message by message, a part of what it received. -/
theorem Shown.step
    (hpart : ∀ written, action = .receive written → ∀ m : TerminalOutput,
      part (written.elim m.data fun n => m.data.take n) m)
    (h : Shown part failure s) (hstep : s.step V failure action = some s') :
    Shown part failure s' := by
  cases takes_of_step hstep with
  | relays hchain => exact h.congr (Chain.received_last_step hchain (by simp)) rfl rfl id
  | loses hproducer hclose hconsumer hchain hdisturbs =>
      exact h.congr (Chain.received_last_step hchain hconsumer) rfl rfl id
  | stays => exact h
  | sends hopen hchain => exact h.congr (Chain.send_step hchain).2.2 rfl rfl id
  | readsEnd hopen hchain =>
      refine h.congr ((received_last_dropSender _).trans ?_) rfl rfl id
      rcases hchain with ⟨-, rfl | ⟨message, hchain⟩⟩ | ⟨-, rfl⟩
      · rfl
      · exact (Chain.send_step hchain).2.2
      · rfl
  | reports hpump hchain =>
      refine h.congr ?_ rfl rfl id
      rcases hchain with hchain | ⟨-, rfl⟩
      · exact (Chain.send_step hchain).2.2
      · rfl
  | pumpEnds hsends hpump => exact h.congr (received_last_dropSender _) rfl rfl id
  | joins hpump hended => exact h.congr rfl rfl rfl id
  | @receives written x chain hshows hgives hchain =>
      obtain ⟨y, hgives', hreceived⟩ := Chain.receive_last_step hchain
      -- the message that is shown is the one that was received
      obtain rfl := Received.item.inj (Option.some_inj.mp (hgives.symm.trans hgives'))
      have hmore : (({ s with chain := chain } : OutputPath).handle written x).chain.last.received =
          s.chain.last.received ++ [x] := by
        rw [chain_handle]
        exact hreceived
      obtain ⟨parts, hparts, hstdout⟩ := h.stdout
      obtain ⟨last, hlast, hwhen⟩ := h.stderr
      -- a client that still receives has not complained of itself yet
      have hnone : last = [] := hwhen.resolve_right fun hleft =>
        absurd (hshows.symm.trans hleft.1) (by decide)
      refine ⟨⟨parts ++ [written.elim x.data fun n => x.data.take n], ?_, ?_⟩, [], ?_, Or.inl rfl⟩
      · rw [hmore]
        exact List.rel_append hparts (List.Forall₂.cons (hpart written rfl x) List.Forall₂.nil)
      · rw [stdout_handle, List.flatten_append, List.flatten_singleton, ← hstdout]
      · rw [stderr_handle, hmore, List.filterMap_append, List.append_nil]
        show s.stderr ++ _ = _
        rw [hlast, hnone, List.append_nil]
        cases hcomplaint : x.complaint? <;> simp [hcomplaint]
  | @leaves action complaints hshows hgives =>
      obtain ⟨last, hlast, hwhen⟩ := h.stderr
      -- its own complaint is the last thing it writes
      have hnone : last = [] := hwhen.resolve_right fun hleft =>
        absurd (hshows.symm.trans hleft.1) (by decide)
      refine ⟨?_, complaints, ?_, ?_⟩
      · show ∃ parts, List.Forall₂ part parts s.chain.dropLast.last.received ∧ _
        rw [Chain.received_last_dropLast]
        exact h.stdout
      · show s.stderr ++ complaints = s.chain.dropLast.last.received.filterMap _ ++ complaints
        rw [Chain.received_last_dropLast, hlast, hnone, List.append_nil]
      · rcases hgives with ⟨-, hsaid⟩ | ⟨-, hsaid⟩
        · exact Or.inr ⟨rfl, hsaid⟩
        · exact Or.inl hsaid
  | quits => exact h.congr (Chain.received_last_dropLast s.chain) rfl rfl fun _ => rfl

/-! ## What the client receives -/

/-- The client has received the shade's first messages, and then the server's own error at most. -/
theorem received_cases (hV : ∀ i, (V i).Documented) {chain : Chain 2 TerminalOutput}
    (h : Chain.Sound V (outputEnds failure) chain) :
    ∃ said, said <+: chain.first.sent ∧
      (chain.last.received = said ∨ chain.last.received = said ++ [serverError failure]) := by
  have hfirst : (chain.channel 1).received <+: chain.first.sent := by
    have hlinked : (chain.channel 1).sent <+: chain.first.received := by
      rcases (h.linked 0).sent_cases with hprefix | ⟨m, hlast, -⟩
      · exact hprefix
      · rcases hlast with hlast | hlast <;> simp [outputEnds] at hlast
    exact ((h.received_channel hV 1).trans hlinked).trans (h.received_channel hV 0)
  have hlast := h.received_channel hV (Fin.last 2)
  have hbefore : chain.last.sent <+: (chain.channel 1).received ∨
      chain.last.sent = (chain.channel 1).received ++ [serverError failure] := by
    rcases (h.linked 1).sent_cases with hprefix | ⟨m, hsays, hsent⟩
    · exact Or.inl hprefix
    · rcases hsays with hsays | hsays
      · simp [outputEnds] at hsays
      · obtain rfl := Option.some_inj.mp hsays
        exact Or.inr hsent
  rcases hbefore with hprefix | hsent
  · exact ⟨_, (hlast.trans hprefix).trans hfirst, Or.inl rfl⟩
  · have hreceived : chain.last.received <+: (chain.channel 1).received ++ [serverError failure] :=
      hsent ▸ hlast
    rcases List.prefix_concat_iff.mp hreceived with hall | hprefix
    · exact ⟨_, hfirst, Or.inr hall⟩
    · exact ⟨_, hprefix.trans hfirst, Or.inl rfl⟩

/-! ## Where nothing goes wrong -/

/-- No relay says anything where its input is closed. -/
theorem onClosed_outputEnds (i : Fin 2) : (outputEnds failure i).onClosed = none := by
  fin_cases i <;> rfl

/-- While the client is there nothing is lost, and when it leaves it has all there is. -/
structure Unlost (V : Fin 3 → Transport TerminalOutput) (failure : String) (s : OutputPath) :
    Prop where
  whole : s.shows = true → Chain.Whole V (outputEnds failure) s.chain
  left : s.shows = false → s.chain.first.closed = true ∧ (∀ i, s.chain.phase i = .ended) ∧
    (s.chain.channel 1).sent = s.chain.first.sent ∧ s.chain.last.received = s.chain.first.sent
  read : s.chain.first.sent.flatMap TerminalOutput.data = s.read
  exit : s.chain.first.sent.filterMap TerminalOutput.exit? = s.exit.toList
  stderr : s.stderr = s.chain.last.received.filterMap TerminalOutput.complaint?

/-- The shade's task is done when it has passed everything on. -/
theorem handed_of_ended {chain : Chain 2 TerminalOutput}
    (h : Chain.Whole V (outputEnds failure) chain) (hended : chain.phase 0 = .ended) :
    chain.first.closed = true ∧ (chain.channel 1).sent = chain.first.sent := by
  have hflows := h.flows 0
  rw [hended] at hflows
  obtain ⟨-, ⟨hclosed, hreceived⟩, hsent⟩ := hflows
  rw [onClosed_outputEnds, Option.toList_none, List.append_nil] at hsent
  exact ⟨hclosed, hsent.trans hreceived⟩

theorem Unlost.shows_of_open (h : Unlost V failure s) (hopen : s.chain.first.closed = false) :
    s.shows = true := by
  by_contra hshows
  have hclosed := (h.left (Bool.eq_false_of_not_eq_true hshows)).1
  exact absurd (hopen.symm.trans hclosed) (by decide)

theorem Unlost.dropSender (hV : ∀ i, (V i).Documented) (hshows : s.shows = true)
    (hwhole : Chain.Whole V (outputEnds failure) s.chain)
    (hread : s.chain.first.sent.flatMap TerminalOutput.data = s.read)
    (hexit : s.chain.first.sent.filterMap TerminalOutput.exit? = s.exit.toList)
    (hstderr : s.stderr = s.chain.last.received.filterMap TerminalOutput.complaint?) :
    Unlost V failure s.dropSender := by
  refine ⟨fun _ => hwhole.closeUnless hV _, ?_, ?_, ?_, ?_⟩
  · exact fun hleft => absurd (hshows.symm.trans hleft) (by decide)
  · rw [sent_first_dropSender]
    exact hread
  · rw [sent_first_dropSender]
    exact hexit
  · rw [received_last_dropSender]
    exact hstderr

/-- In an undisturbed run nothing is lost between the pseudoterminal and the standard output. -/
theorem Unlost.step (hV : ∀ i, (V i).Documented) (hfed : Fed V failure s)
    (h : Unlost V failure s) (hundisturbed : action.Undisturbed)
    (hstep : s.step V failure action = some s') : Unlost V failure s' := by
  cases takes_of_step hstep with
  | @relays i chain hchain =>
      by_cases hshows : s.shows = true
      · have hsent := Chain.sent_first_step hchain (by simp)
        refine ⟨fun _ => (h.whole hshows).step hV (s.chain.stays_relay i) hchain,
          fun hleft => absurd (hshows.symm.trans hleft) (by decide), ?_, ?_, ?_⟩
        · show chain.first.sent.flatMap TerminalOutput.data = s.read
          rw [hsent]
          exact h.read
        · show chain.first.sent.filterMap TerminalOutput.exit? = s.exit.toList
          rw [hsent]
          exact h.exit
        · show s.stderr = chain.last.received.filterMap TerminalOutput.complaint?
          rw [Chain.received_last_step hchain (by simp)]
          exact h.stderr
      -- a client that has left finds both relays done already, so this step cannot be
      · have hended := (h.left (Bool.eq_false_of_not_eq_true hshows)).2.1 i
        rw [Chain.relay_of_ended hended] at hchain
        simp at hchain
  | loses hproducer hclose hconsumer hchain hdisturbs => exact absurd hundisturbed hdisturbs
  | stays => exact h
  | @sends action data chain hopen hchain =>
      obtain ⟨hsent, -, hreceived⟩ := Chain.send_step hchain
      -- the client only leaves once the first channel has closed, and the reader holds it open
      have hshows := h.shows_of_open (hfed.open_of_readerOpen hopen)
      refine ⟨fun _ => (h.whole hshows).step hV (s.chain.stays_send _) hchain,
        fun hleft => absurd (hshows.symm.trans hleft) (by decide), ?_, ?_, ?_⟩
      · show chain.first.sent.flatMap TerminalOutput.data = s.read ++ data
        rw [hsent, List.flatMap_append, List.flatMap_singleton, h.read]
        rfl
      · show chain.first.sent.filterMap TerminalOutput.exit? = s.exit.toList
        rw [hsent, List.filterMap_append, h.exit]
        exact List.append_nil _
      · show s.stderr = chain.last.received.filterMap TerminalOutput.complaint?
        rw [hreceived]
        exact h.stderr
  | @readsEnd action chain lost hopen hchain =>
      have hfirst := hfed.open_of_readerOpen hopen
      have hshows := h.shows_of_open hfirst
      have hwhole := h.whole hshows
      rcases hchain with ⟨rfl, rfl | ⟨message, hchain⟩⟩ | ⟨⟨x, hnone⟩, -⟩
      · refine Unlost.dropSender hV hshows hwhole ?_ h.exit h.stderr
        show s.chain.first.sent.flatMap TerminalOutput.data = s.read ++ []
        rw [List.append_nil]
        exact h.read
      · obtain ⟨hsent, -, hreceived⟩ := Chain.send_step hchain
        refine Unlost.dropSender hV hshows (hwhole.step hV (s.chain.stays_send _) hchain) ?_ ?_ ?_
        · show chain.first.sent.flatMap TerminalOutput.data = s.read ++ []
          rw [hsent, List.flatMap_append, List.flatMap_singleton, h.read]
          rfl
        · show chain.first.sent.filterMap TerminalOutput.exit? = s.exit.toList
          rw [hsent, List.filterMap_append, h.exit]
          exact List.append_nil _
        · show s.stderr = chain.last.received.filterMap TerminalOutput.complaint?
          rw [hreceived]
          exact h.stderr
      -- a refused send means a lost connection, which an undisturbed run does not have
      · exact absurd hnone (hwhole.send_ne_none hV hfirst x)
  | @reports action exit chain hpump hchain =>
      have hfirst := hfed.open_of_sends (by rw [hpump]; rfl)
      have hshows := h.shows_of_open hfirst
      have hwhole := h.whole hshows
      -- nothing was reported before, so this exit is the only one
      have hnone := h.exit
      rw [hfed.unreported hpump, Option.toList_none] at hnone
      rcases hchain with hchain | ⟨hrefused, -⟩
      · obtain ⟨hsent, -, hreceived⟩ := Chain.send_step hchain
        refine ⟨fun _ => hwhole.step hV (s.chain.stays_send _) hchain,
          fun hleft => absurd (hshows.symm.trans hleft) (by decide), ?_, ?_, ?_⟩
        · show chain.first.sent.flatMap TerminalOutput.data = s.read
          rw [hsent, List.flatMap_append, List.flatMap_singleton, h.read]
          exact List.append_nil _
        · show chain.first.sent.filterMap TerminalOutput.exit? = [exit]
          rw [hsent, List.filterMap_append, hnone]
          rfl
        · show s.stderr = chain.last.received.filterMap TerminalOutput.complaint?
          rw [hreceived]
          exact h.stderr
      · exact absurd hrefused (hwhole.send_ne_none hV hfirst _)
  | pumpEnds hsends hpump =>
      have hshows := h.shows_of_open (hfed.open_of_sends hsends)
      exact Unlost.dropSender hV hshows (h.whole hshows) h.read h.exit h.stderr
  | joins hpump hended => exact ⟨h.whole, h.left, h.read, h.exit, h.stderr⟩
  | @receives written x chain hshows hgives hchain =>
      have hsent := Chain.sent_first_step hchain (by simp)
      have hstill := (h.whole hshows).step hV s.chain.stays_receive hchain
      obtain ⟨y, hgives', hreceived⟩ := Chain.receive_last_step hchain
      -- the message that the client takes is the one its transport gives
      obtain rfl := Received.item.inj (Option.some_inj.mp (hgives.symm.trans hgives'))
      refine ⟨?_, ?_, ?_, ?_, ?_⟩
      · rw [chain_handle]
        exact fun _ => hstill
      · rw [shows_handle]
        exact fun hleft => absurd (hshows.symm.trans hleft) (by decide)
      · have hread : ({ s with chain := chain }.handle written x).read = s.read := by
          cases x <;> rfl
        rw [chain_handle, hread]
        show chain.first.sent.flatMap TerminalOutput.data = s.read
        rw [hsent]
        exact h.read
      · have hexit : ({ s with chain := chain }.handle written x).exit = s.exit := by
          cases x <;> rfl
        rw [chain_handle, hexit]
        show chain.first.sent.filterMap TerminalOutput.exit? = s.exit.toList
        rw [hsent]
        exact h.exit
      · rw [stderr_handle, chain_handle]
        show s.stderr ++ _ = chain.last.received.filterMap TerminalOutput.complaint?
        rw [hreceived, List.filterMap_append, ← h.stderr]
        cases hcomplaint : x.complaint? <;> simp [hcomplaint]
  | @leaves action complaints hshows hgives =>
      have hwhole := h.whole hshows
      rcases hgives with ⟨hfailed, -⟩ | ⟨hgives, rfl⟩
      · exact absurd hfailed (hwhole.not_failed hV)
      -- the last channel is empty and closed, so everything that went in has come out
      obtain ⟨hfirst, hclosed, words, hwords, hreceived⟩ := hwhole.finished_last hV hgives
      rw [hwords.eq_nil onClosed_outputEnds, List.append_nil] at hreceived
      -- the relays end from the back: who closed the last channel had seen the one before it close
      have hone : s.chain.phase 1 = .ended := hwhole.ended_of_closed hclosed
      have hzero : s.chain.phase 0 = .ended := by
        have hflows := hwhole.flows 1
        rw [hone] at hflows
        exact hwhole.ended_of_closed (i := 0) hflows.2.1.1
      refine ⟨fun hstays => by simp at hstays, fun _ => ⟨?_, ?_, ?_, ?_⟩, ?_, ?_, ?_⟩
      · exact (Chain.closed_first_dropLast s.chain).trans hfirst
      · intro i
        show s.chain.phase i = .ended
        fin_cases i
        · exact hzero
        · exact hone
      · show (s.chain.dropLast.channel 1).sent = s.chain.dropLast.first.sent
        rw [Chain.sent_first_dropLast]
        exact (handed_of_ended hwhole hzero).2
      · show s.chain.dropLast.last.received = s.chain.dropLast.first.sent
        rw [Chain.received_last_dropLast, Chain.sent_first_dropLast]
        exact hreceived
      · show s.chain.dropLast.first.sent.flatMap TerminalOutput.data = s.read
        rw [Chain.sent_first_dropLast]
        exact h.read
      · show s.chain.dropLast.first.sent.filterMap TerminalOutput.exit? = s.exit.toList
        rw [Chain.sent_first_dropLast]
        exact h.exit
      · show s.stderr ++ [] = s.chain.dropLast.last.received.filterMap TerminalOutput.complaint?
        rw [Chain.received_last_dropLast, List.append_nil]
        exact h.stderr
  | quits => exact hundisturbed.elim

theorem unlost_start (V : Fin 3 → Transport TerminalOutput) (failure : String) :
    Unlost V failure {} :=
  ⟨fun _ => Chain.whole_empty, fun hleft => by simp at hleft, rfl, rfl, rfl⟩

/-! ## What the program says arrives -/

/-- The relays and the client have nothing to do. -/
def AtRest (V : Fin 3 → Transport TerminalOutput) (failure : String) (s : OutputPath) : Prop :=
  (∀ i, s.step V failure (.relay i) = none) ∧ s.step V failure (.receive none) = none

/-- At rest the client has left, or the channels have nothing to give it. -/
theorem AtRest.cases (h : AtRest V failure s) :
    s.shows = false ∨
      (V (Fin.last 2)).gives s.chain.last = none ∧
        Chain.Quiet V (outputEnds failure) s.chain := by
  obtain ⟨hrelays, hreceive⟩ := h
  cases hshows : s.shows with
  | false => exact Or.inl rfl
  | true =>
      refine Or.inr ⟨?_, fun i => Option.map_eq_none_iff.mp (hrelays i)⟩
      rw [step, hshows, if_pos rfl] at hreceive
      cases hgives : (V (Fin.last 2)).gives s.chain.last with
      | none => rfl
      | some got =>
          rw [hgives] at hreceive
          cases got with
          | item x =>
              have hstep := Option.map_eq_none_iff.mp hreceive
              rw [Chain.step, hgives] at hstep
              simp at hstep
          | closed => simp at hreceive
          | failed => simp at hreceive

theorem fed_of_runs (h : Runs (step V failure) Any {} actions s) : Fed V failure s :=
  h.invariant (fun _ _ _ hfed _ hstep => hfed.step hstep) (fed_start V failure)

theorem unlost_of_runs (hV : ∀ i, (V i).Documented)
    (h : Runs (step V failure) (fun _ a => a.Undisturbed) {} actions s) : Unlost V failure s := by
  have hboth : Fed V failure s ∧ Unlost V failure s :=
    h.invariant (p := fun s => Fed V failure s ∧ Unlost V failure s)
      (fun _ _ _ hknown hcond hstep =>
        ⟨hknown.1.step hstep, hknown.2.step hV hknown.1 hcond hstep⟩)
      ⟨fed_start V failure, unlost_start V failure⟩
  exact hboth.2

/-- Whoever waited for the shade's task has seen its end. -/
theorem ended_of_finished (h : Runs (step V failure) Any {} actions s)
    (hpump : s.pump = .finished) : s.chain.phase 0 = .ended := by
  refine h.invariant (p := fun s => s.pump = .finished → s.chain.phase 0 = .ended) ?_
    (fun hfinished => by simp at hfinished) hpump
  intro s action s' hjoined _ hstep
  have hdrop : ∀ s : OutputPath, s.chain.phase 0 = .ended → s.dropSender.chain.phase 0 = .ended :=
    fun s hended => (congrFun (Chain.phase_closeUnless s.chain _) 0).trans hended
  cases takes_of_step hstep with
  | relays hchain => exact fun hfinished => Chain.ended_step hchain (hjoined hfinished)
  | loses hproducer hclose hconsumer hchain hdisturbs =>
      exact fun hfinished => Chain.ended_step hchain (hjoined hfinished)
  | stays => exact hjoined
  | sends hopen hchain => exact fun hfinished => Chain.ended_step hchain (hjoined hfinished)
  | readsEnd hopen hchain =>
      intro hfinished
      refine hdrop _ ?_
      rcases hchain with ⟨-, rfl | ⟨message, hchain⟩⟩ | ⟨-, rfl⟩
      · exact hjoined hfinished
      · exact Chain.ended_step hchain (hjoined hfinished)
      · exact hjoined hfinished
  | reports hpump hchain => exact fun hfinished => by simp at hfinished
  | pumpEnds hsends hpump =>
      intro hfinished
      rcases hpump with rfl | rfl <;> simp [dropSender] at hfinished
  | joins hpump hended => exact fun _ => hended
  | @receives written x chain hshows hgives hchain =>
      rw [chain_handle, pump_handle]
      exact fun hfinished => Chain.ended_step hchain (hjoined hfinished)
  | leaves hshows hgives => exact hjoined
  | quits => exact hjoined

theorem shown_of_runs (h : Runs (step V failure) Any {} actions s) :
    Shown (fun p m => p <+: m.data) failure s := by
  refine h.invariant (fun _ _ _ hshown _ hstep => hshown.step ?_ hstep)
    ⟨⟨[], List.Forall₂.nil, rfl⟩, [], rfl, Or.inl rfl⟩
  intro written _ m
  cases written with
  | none => exact List.prefix_rfl
  | some n => exact List.take_prefix n m.data

theorem stdout_of_undisturbed
    (h : Runs (step V failure) (fun _ a => a.Undisturbed) {} actions s) :
    s.stdout = s.chain.last.received.flatMap TerminalOutput.data := by
  have hshown : Shown (fun p m => p = m.data) failure s := by
    refine h.invariant (fun _ _ _ hshown hcond hstep => hshown.step ?_ hstep)
      ⟨⟨[], List.Forall₂.nil, rfl⟩, [], rfl, Or.inl rfl⟩
    rintro (_ | n) rfl m
    · rfl
    · exact hcond.elim
  obtain ⟨parts, hparts, hstdout⟩ := hshown.stdout
  have hmap : List.Forall₂ (· = ·) parts (s.chain.last.received.map TerminalOutput.data) :=
    List.forall₂_map_right_iff.mpr hparts
  rw [List.forall₂_eq_eq_eq] at hmap
  rw [hstdout, hmap, List.flatMap_def]

/-- Whatever happens to the connections and in whatever order the steps are taken, the client receives
the shade's first messages, in its order and without gaps, and after them the server's own error at
most; it shows parts of their bytes, which are the bytes read so far, and writes the errors among them,
and a failure of its own, to its standard error.  The shade sends one exit at most, the one reported.

Where nothing goes wrong, the recording's last call returns only after everything has been read and
handed over, and once the path has come to rest the client has received all that the shade sent: it has
shown all bytes that were read, and got the exit that was reported. -/
theorem output_arrives (hV : ∀ i, (V i).Documented)
    (hrun : Runs (step V failure) Any {} actions s) :
    (∃ said, said <+: s.chain.first.sent ∧ (s.chain.last.received = said ∨
        s.chain.last.received = said ++ [serverError failure])) ∧
      s.chain.first.sent.flatMap TerminalOutput.data <+: s.read ∧
      s.chain.first.sent.filterMap TerminalOutput.exit? <+: s.exit.toList ∧
      (∃ parts, List.Forall₂ (fun p m => p <+: TerminalOutput.data m) parts s.chain.last.received ∧
        s.stdout = parts.flatten) ∧
      (∃ last, s.stderr = s.chain.last.received.filterMap TerminalOutput.complaint? ++ last ∧
        (last = [] ∨ last = ["stax terminal recv failed: " ++ failure])) ∧
      (Runs (step V failure) (fun _ a => a.Undisturbed) {} actions s →
        s.stdout <+: s.read ∧
          (s.pump = .finished →
            s.readerOpen = false ∧ (s.chain.channel 1).sent = s.chain.first.sent) ∧
          (AtRest V failure s → s.chain.last.received = s.chain.first.sent ∧ s.stdout = s.read ∧
            s.chain.last.received.filterMap TerminalOutput.exit? = s.exit.toList ∧
            s.stderr = s.chain.first.sent.filterMap TerminalOutput.complaint?)) := by
  have hfed := fed_of_runs hrun
  have hshown := shown_of_runs hrun
  have hreceives := received_cases hV hfed.sound
  refine ⟨hreceives, hfed.read, hfed.exit, hshown.stdout, ?_, fun hundisturbed => ?_⟩
  · obtain ⟨last, hlast, hwhen⟩ := hshown.stderr
    exact ⟨last, hlast, hwhen.imp id And.right⟩
  have hunlost := unlost_of_runs hV hundisturbed
  have hstdout := stdout_of_undisturbed hundisturbed
  refine ⟨?_, ?_, fun hrest => ?_⟩
  · rw [hstdout, ← hunlost.read]
    -- the error that the server adds carries no bytes
    obtain ⟨said, hsaid, hreceived | hreceived⟩ := hreceives
    · rw [hreceived]
      exact hsaid.flatMap _
    · rw [hreceived, List.flatMap_append]
      show _ ++ [] <+: _
      rw [List.append_nil]
      exact hsaid.flatMap _
  · intro hpump
    -- `finish` has waited for the relay of the shade
    have hended := ended_of_finished hrun hpump
    have hhanded : s.chain.first.closed = true ∧
        (s.chain.channel 1).sent = s.chain.first.sent := by
      cases hshows : s.shows with
      | true => exact handed_of_ended (hunlost.whole hshows) hended
      | false => exact ⟨(hunlost.left hshows).1, (hunlost.left hshows).2.2.1⟩
    refine ⟨?_, hhanded.2⟩
    by_contra hopen
    have hfirst := hfed.open_of_readerOpen (Bool.eq_true_of_not_eq_false hopen)
    exact absurd (hfirst.symm.trans hhanded.1) (by decide)
  -- at rest nothing is on its way, whether the client has left or waits
  · have hall : s.chain.last.received = s.chain.first.sent := by
      cases hshows : s.shows with
      | false => exact (hunlost.left hshows).2.2.2
      | true =>
          rcases hrest.cases with hleft | ⟨hgives, hquiet⟩
          · exact absurd (hshows.symm.trans hleft) (by decide)
          · obtain ⟨words, hwords, hreceived⟩ :=
              (hunlost.whole hshows).received_quiet hV hquiet hgives
            rw [hreceived, hwords.eq_nil onClosed_outputEnds, List.append_nil]
    refine ⟨hall, ?_, ?_, ?_⟩
    · rw [hstdout, hall, hunlost.read]
    · rw [hall, hunlost.exit]
    · rw [hunlost.stderr, hall]

/-- The exit is reported before the last bytes are read. -/
def exitBeforeBytes : List OutputAction :=
  [.read (.data [111]), .reportExit ⟨some 0, none⟩, .finish, .read (.data [107]), .read .hangup,
    .relay 0, .relay 0, .relay 0, .relay 0, .relay 0, .relay 0, .relay 0, .joined,
    .relay 1, .relay 1, .relay 1, .relay 1, .relay 1, .relay 1, .relay 1,
    .receive none, .receive none, .receive none, .receive none]

/-- Every channel is a queue. -/
def queues (_ : Fin 3) : Transport TerminalOutput := Transport.queue TerminalOutput

theorem output_arrives_exitBeforeBytes :
    ∃ s, Runs (step queues "lost") Any {} exitBeforeBytes s ∧
      Runs (step queues "lost") (fun _ a => a.Undisturbed) {} exitBeforeBytes s ∧
      AtRest queues "lost" s ∧ s.pump = .finished ∧ s.stdout = [111, 107] ∧ s.stdout = s.read := by
  have hexists : ∃ s, Runs (step queues "lost") (fun _ a => a.Undisturbed) {} exitBeforeBytes s ∧
      (∀ i, (s.step queues "lost" (.relay i)).isNone = true) ∧ s.shows = false ∧
      s.pump = .finished ∧ s.stdout = [111, 107] :=
    exists_runs_of_runIf (by decide)
  obtain ⟨s, hrun, hrelays, hshows, hpump, hstdout⟩ := hexists
  have hrest : AtRest queues "lost" s := by
    refine ⟨fun i => Option.isNone_iff_eq_none.mp (hrelays i), ?_⟩
    simp [step, hshows]
  have hany : Runs (step queues "lost") Any {} exitBeforeBytes s := hrun.imp fun _ _ _ => trivial
  have hqueues : ∀ i, (queues i).Documented := fun _ => Transport.documented_queue _
  exact ⟨s, hany, hrun, hrest, hpump, hstdout,
    (((output_arrives hqueues hany).2.2.2.2.2 hrun).2.2 hrest).2.1⟩

end OutputPath

end Stax.Terminal
