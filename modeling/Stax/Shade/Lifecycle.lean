/-
# Stax.Shade.Lifecycle — what becomes of a target that the shade has launched.

The shade starts its target suspended, gets its task port, registers with the server, connects its
ingest sink and its terminal, and enters the receive loop.  The first batch of records resumes the
target; what ends the loop, be it a stop, the time limit, the daemon or the target's own death, leads
to the target's end, and its exit is reported to whoever holds the terminal.

The target may die at any time, whatever can fail may fail, and any wait may be interrupted.  The
shade itself lives until `run` returns: a signal that ends it is not modelled, nor is the command
line that `run` rejects before there is a target.  A task port resumes its task as long as that is
alive, and a signal that cannot be caught always gets through to a child.
-/
import Stax.Lib.Child
import Stax.Lib.Machine
import Stax.Terminal.Output

namespace Stax.Shade

open Stax.Lib.Child Stax.Lib.Machine Stax.Terminal

/-! ## The shade -/

/-- What a wait's status says of an exit; a status of neither kind says nothing. -/
def decodeWaitStatus (status : BitVec 32) : ChildExit :=
  if ifExited status then { code := some (exitStatus status).toInt, signal := none }
  else if ifSignaled status then { code := none, signal := some (termSig status).toInt }
  else { code := none, signal := none }

/-- What there is to tell of a death. -/
def exitOf : Death → ChildExit
  | .exited code => { code := some code.toNat, signal := none }
  | .signaled signal _ => { code := none, signal := some signal.number }

theorem decodeWaitStatus_status (death : Death) : decodeWaitStatus death.status = exitOf death := by
  cases death with
  | exited code =>
      obtain ⟨hexited, hcode⟩ := status_exited code
      simp only [decodeWaitStatus, hexited, if_true, hcode, exitOf]
  | signaled signal coreDumped =>
      obtain ⟨hexited, hsignaled, hsignal⟩ := status_signaled signal coreDumped
      simp only [decodeWaitStatus, hexited, hsignaled, if_true, hsignal, exitOf]
      rfl

/-- The options that matter, with `launched` for a target that was started suspended. -/
structure Cli where
  launched : Bool
  serverSocket : Bool
  runId : Bool
  timeLimit : Bool
  terminal : Bool
  deriving DecidableEq, Repr

/-- Where the shade's main task stands, between the launch of its target and its own return. -/
inductive Phase
  /-- `launch_suspended`, once the target is there. -/
  | taskForPid
  /-- The end of a target: of one that could not be attached to, or after the recording. -/
  | kill (attached : Bool)
  | reap (attached : Bool)
  | dispatch
  | park
  | register
  | connectIngest
  | startTerminal
  | connectDaemon
  /-- The receive loop asks whether it should stop, and then waits for a batch. -/
  | shouldStop
  | receive
  | joinDrive
  | resumeNow
  | terminate
  | reportExit
  | finishTerminal
  | awaitForwarder
  | returned (ok : Bool)
  deriving DecidableEq, Repr

/-- What the shade has asked of the kernel about its target. -/
inductive TargetCall
  | resume (resumed : Bool)
  /-- A signal or a wait, with what the target was at that time. -/
  | kill (target : Process)
  | wait (target : Process) (result : Waited)
  deriving DecidableEq, Repr

/-- The shade and its target, with what it has asked of the kernel and what it has reported. -/
structure Lifecycle where
  phase : Phase
  target : Process
  preResume : Bool := false
  serverStopRequested : Bool := false
  seenFirstBatch : Bool := false
  terminalPump : Bool := false
  childExit : Option ChildExit := none
  /-- Whether `drive_session_with_hooks` has returned `Ok`. -/
  result : Bool := false
  calls : List TargetCall := []
  reported : List ChildExit := []
  deriving DecidableEq, Repr

/-- What happens to the target, what the server and the daemon tell the shade, and what the shade
does next. -/
inductive Action
  | dies (death : Death)
  | serverStop
  /-- The shade goes on; what it does may fail, and a wait may be interrupted. -/
  | go (fine : Bool)
  | elapsed
  | batch (resumes : Bool)
  | closed
  deriving DecidableEq, Repr

namespace Lifecycle

/-- The shade with a target that it has launched, or that was running before. -/
def start (cli : Cli) : Lifecycle :=
  if cli.launched then { phase := .taskForPid, target := .suspended }
  else { phase := .dispatch, target := .running }

/-- `PreResume::resume`: a task that is dead cannot be resumed. -/
def resume (s : Lifecycle) (fine : Bool) : Lifecycle :=
  { s with
    preResume := false
    target := if fine then s.target.resume else s.target
    calls := s.calls ++ [.resume (fine && s.target.isAlive)] }

/-- `waitpid` with `WNOHANG`. -/
def waitNoHang (s : Lifecycle) (fine : Bool) : Lifecycle :=
  { s with
    target := (s.target.waitNoHang (!fine)).2
    calls := s.calls ++ [.wait s.target (s.target.waitNoHang (!fine)).1] }

/-- What is told of a blocking wait, whose result is not looked at. -/
def exitAfter : Waited → ChildExit
  | .died status => decodeWaitStatus status
  | .alive | .failed => decodeWaitStatus 0#32

/-- The shade's next step from where it stands, in the order of the source's calls; `fine` is
whether what it does succeeds. -/
def go (cli : Cli) (s : Lifecycle) (fine : Bool) : Option Lifecycle :=
  match s.phase with
  | .taskForPid =>
    if fine then some { s with phase := .dispatch, preResume := true }
    else some { s with phase := .kill false }
  | .kill attached =>
    some { s with
      phase := .reap attached
      target := s.target.kill
      calls := s.calls ++ [.kill s.target] }
  | .reap attached =>
    (s.target.wait (!fine)).map fun (waited, target) =>
      { s with
        phase := if attached then .reportExit else .returned false
        target := target
        childExit := if attached then some (exitAfter waited) else none
        calls := s.calls ++ [.wait s.target waited] }
  | .dispatch =>
    if cli.serverSocket then
      some { s with phase := if cli.runId then .register else .returned false }
    else if s.preResume then
      some { s.resume fine with
        phase := if fine && s.target.isAlive then .park else .returned false }
    else some { s with phase := .park }
  | .park => some { s with phase := .returned true }
  | .register => some { s with phase := if fine then .connectIngest else .returned false }
  | .connectIngest => some { s with phase := if fine then .startTerminal else .returned false }
  | .startTerminal =>
    if cli.terminal then
      some { s with
        phase := if fine then .connectDaemon else .returned false
        terminalPump := fine }
    else some { s with phase := .connectDaemon }
  | .connectDaemon => some { s with phase := if fine then .shouldStop else .resumeNow }
  | .shouldStop =>
    if s.serverStopRequested then some { s with phase := .joinDrive }
    else if cli.launched ∧ s.childExit = none then
      match (s.target.waitNoHang (!fine)).1 with
      | .died status =>
        some { s.waitNoHang fine with
          phase := .joinDrive
          childExit := some (decodeWaitStatus status) }
      | .alive | .failed => some { s.waitNoHang fine with phase := .receive }
    else some { s with phase := .receive }
  | .receive => some { s with phase := .shouldStop }
  | .joinDrive => some { s with phase := .resumeNow, result := fine }
  | .resumeNow =>
    if s.preResume then
      some { s.resume fine with
        phase := if fine && s.target.isAlive then .terminate else .returned false }
    else some { s with phase := .terminate }
  | .terminate =>
    if cli.launched ∧ s.childExit = none then
      match (s.target.waitNoHang (!fine)).1 with
      | .alive => some { s.waitNoHang fine with phase := .kill true }
      | .died status =>
        some { s.waitNoHang fine with
          phase := .reportExit
          childExit := some (decodeWaitStatus status) }
      | .failed => some { s.waitNoHang fine with phase := .reportExit }
    else some { s with phase := .reportExit }
  | .reportExit =>
    some { s with
      phase := .finishTerminal
      reported := if s.terminalPump then s.reported ++ s.childExit.toList else s.reported }
  | .finishTerminal => some { s with phase := .awaitForwarder }
  | .awaitForwarder => some { s with phase := .returned s.result }
  | .returned _ => none

/-- What an action does, where it can happen at all. -/
def step (cli : Cli) (s : Lifecycle) : Action → Option Lifecycle
  | .dies death => if s.target.isAlive then some { s with target := s.target.die death } else none
  | .serverStop =>
    match s.phase with
    | .returned _ => none
    | _ => some { s with serverStopRequested := true }
  | .go fine => s.go cli fine
  | .elapsed =>
    if s.phase = .receive ∧ cli.timeLimit then some { s with phase := .joinDrive } else none
  | .batch resumes =>
    if s.phase = .receive then
      if !s.seenFirstBatch && s.preResume then
        some { s.resume resumes with phase := .shouldStop, seenFirstBatch := true }
      else some { s with phase := .shouldStop, seenFirstBatch := true }
    else none
  | .closed => if s.phase = .receive then some { s with phase := .joinDrive } else none

end Lifecycle

/-! ## What is known in each phase -/

namespace TargetCall

/-- The call resumes the target. -/
def isResume : TargetCall → Bool
  | resume _ => true
  | _ => false

/-- The call kills the target. -/
def isKill : TargetCall → Bool
  | kill _ => true
  | _ => false

/-- The wait that took the status. -/
def isReap : TargetCall → Bool
  | wait _ (.died _) => true
  | _ => false

/-- What the call named by its number. -/
def named : TargetCall → Option Process
  | kill target | wait target _ => some target
  | resume _ => none

end TargetCall

namespace Phase

/-- How far the shade is; only the receive loop goes round. -/
def rank : Phase → ℕ
  | taskForPid => 0
  | dispatch => 1
  | register => 2
  | connectIngest => 3
  | startTerminal => 4
  | connectDaemon => 5
  | shouldStop | receive => 6
  | joinDrive => 7
  | resumeNow => 8
  | terminate => 9
  | kill _ => 10
  | reap _ => 11
  | reportExit => 12
  | finishTerminal => 13
  | awaitForwarder | park => 14
  | returned _ => 15

/-- The shade has done with its target. -/
def isOver (phase : Phase) : Bool := 12 ≤ phase.rank

/-- `drive_session_with_hooks` has returned. -/
def afterDrive (phase : Phase) : Bool := 8 ≤ phase.rank

/-- What a step may do to the phase that neither attaches to the target, kills it nor reaps it. -/
def Forth (phase next : Phase) : Prop :=
  phase.rank ≤ next.rank ∧ phase.rank < 15 ∧ next.rank ≠ 0 ∧ next.rank ≠ 11 ∧
    (next.rank = 10 → phase.rank = 0) ∧ next ≠ finishTerminal ∧
    (next = awaitForwarder → phase = finishTerminal)

end Phase

variable {cli : Cli} {s s' : Lifecycle} {action : Action} {actions : List Action}

/-- The step does not give up a target that has still to be waited for. -/
def Holds (cli : Cli) (s : Lifecycle) : Action → Prop
  | .go fine =>
    match s.phase with
    | .register | .connectIngest | .reap _ => fine = true
    | .startTerminal => cli.terminal = true → fine = true
    | .dispatch => cli.serverSocket = true ∧ cli.runId = true
    | .resumeNow =>
      s.preResume = true → (fine && s.target.isAlive) = true ∨ s.target.isOwn = false
    | .terminate => s.childExit = none → fine = true
    | _ => True
  | _ => True

instance decidableHolds : Decidable (Holds cli s action) := by
  cases action with
  | go fine =>
      rw [Holds]
      split <;> infer_instance
  | dies death => exact isTrue trivial
  | serverStop => exact isTrue trivial
  | elapsed => exact isTrue trivial
  | batch resumes => exact isTrue trivial
  | closed => exact isTrue trivial

/-! ## What a step can do -/

/-- The shade goes on, and leaves its target and what it knows of it alone. -/
structure Moves (s s' : Lifecycle) : Prop where
  target : s'.target = s.target
  preResume : s'.preResume = s.preResume
  childExit : s'.childExit = s.childExit
  calls : s'.calls = s.calls
  reported : s'.reported = s.reported
  seen : s.seenFirstBatch = true → s'.seenFirstBatch = true
  pump : s.phase ≠ .startTerminal → s'.terminalPump = s.terminalPump
  phase : s.phase.Forth s'.phase

/-- What a step comes to, by what it does to the target. -/
inductive Takes (cli : Cli) (s : Lifecycle) : Action → Lifecycle → Prop
  | dies {death : Death} : Takes cli s (.dies death) { s with target := s.target.die death }
  | stopRequested : Takes cli s .serverStop { s with serverStopRequested := true }
  | attaches (hphase : s.phase = .taskForPid) :
      Takes cli s (.go true) { s with phase := .dispatch, preResume := true }
  | moves {action : Action} {s' : Lifecycle} (hmoves : Moves s s')
      (hholds : Holds cli s action ↔ (s'.phase.isOver = true →
        s.phase.isOver = true ∨ s.childExit ≠ none ∧ 7 ≤ s.phase.rank)) : Takes cli s action s'
  /-- The target is resumed with the first batch, after the recording, or in place of one. -/
  | resumes {action : Action} {fine first : Bool} {phase : Phase} (hpre : s.preResume = true)
      (hphase : (action = .batch fine ∧ phase = .shouldStop ∧ s.phase = .receive ∧ first = true) ∨
        action = .go fine ∧ phase.afterDrive = true ∧ first = s.seenFirstBatch ∧
          (s.phase = .resumeNow ∧
              (phase = .terminate ∧ (fine && s.target.isAlive) = true ∨
                phase = .returned false ∧ (fine && s.target.isAlive) = false) ∨
            s.phase = .dispatch ∧ cli.serverSocket = false ∧
              (phase = .park ∨ phase = .returned false))) :
      Takes cli s action { s.resume fine with phase := phase, seenFirstBatch := first }
  /-- The status was there to take. -/
  | reaps {phase : Phase} {death : Death} (hnone : s.childExit = none)
      (htarget : s.target = .zombie death)
      (hphase : s.phase = .shouldStop ∧ phase = .joinDrive ∨
        s.phase = .terminate ∧ phase = .reportExit) :
      Takes cli s (.go true) { s with
        phase := phase
        target := .reaped death
        childExit := some (exitOf death)
        calls := s.calls ++ [.wait s.target (.died death.status)] }
  /-- The target is alive, or the wait failed. -/
  | waits {fine : Bool} {phase : Phase} {waited : Waited} (hnone : s.childExit = none)
      (hwaited : ∀ status, waited ≠ .died status)
      (hphase : s.phase = .shouldStop ∧ phase = .receive ∨
        s.phase = .terminate ∧ (phase = .kill true ∧ fine = true ∨
          phase = .reportExit ∧ (fine = false ∨ s.target.isOwn = false))) :
      Takes cli s (.go fine) { s with phase := phase, calls := s.calls ++ [.wait s.target waited] }
  | kills {fine attached : Bool} (hphase : s.phase = .kill attached) :
      Takes cli s (.go fine) { s with
        phase := .reap attached
        target := s.target.kill
        calls := s.calls ++ [.kill s.target] }
  | ends {fine attached : Bool} {waited : Waited} {target : Process}
      (hphase : s.phase = .reap attached)
      (hwait : s.target.wait (!fine) = some (waited, target)) :
      Takes cli s (.go fine) { s with
        phase := if attached then .reportExit else .returned false
        target := target
        childExit := if attached then some (Lifecycle.exitAfter waited) else none
        calls := s.calls ++ [.wait s.target waited] }
  | reports {fine : Bool} (hphase : s.phase = .reportExit) :
      Takes cli s (.go fine) { s with
        phase := .finishTerminal
        reported := if s.terminalPump then s.reported ++ s.childExit.toList else s.reported }

/-- A step that changes nothing but the phase and what the shade will return. -/
theorem Moves.onPhase {phase : Phase} {result : Bool} (hforth : s.phase.Forth phase) :
    Moves s { s with phase := phase, result := result } :=
  ⟨rfl, rfl, rfl, rfl, rfl, id, fun _ => rfl, hforth⟩

/-- The shade's own steps are those that `Takes` lists, by phase. -/
theorem takes_of_go (hlaunched : cli.launched = true) {fine : Bool}
    (hstep : s.go cli fine = some s') : Takes cli s (.go fine) s' := by
  cases hphase : s.phase <;> simp only [Lifecycle.go, hphase] at hstep
  case taskForPid =>
    cases fine <;> obtain rfl := Option.some_inj.mp hstep
    · exact .moves (.onPhase (by simp [hphase, Phase.Forth, Phase.rank]))
        (by simp [hphase, Phase.isOver, Phase.rank, Holds])
    · exact .attaches hphase
  case kill attached =>
    obtain rfl := Option.some_inj.mp hstep
    exact .kills hphase
  case reap attached =>
    obtain ⟨⟨waited, target⟩, hwait, rfl⟩ := Option.map_eq_some_iff.mp hstep
    exact .ends hphase hwait
  case dispatch =>
    by_cases hsocket : cli.serverSocket = true
    · rw [if_pos hsocket] at hstep
      obtain rfl := Option.some_inj.mp hstep
      refine .moves (.onPhase ?_) ?_ <;> by_cases hrun : cli.runId = true <;>
        simp [hphase, Phase.Forth, Phase.isOver, Phase.rank, Holds, hsocket, hrun]
    · rw [if_neg hsocket] at hstep
      by_cases hpre : s.preResume = true
      · rw [if_pos hpre] at hstep
        obtain rfl := Option.some_inj.mp hstep
        refine .resumes hpre (.inr ⟨rfl, ?_, rfl, .inr ⟨hphase, by simpa using hsocket, ?_⟩⟩)
        · split_ifs <;> rfl
        · split_ifs <;> simp
      · rw [if_neg hpre] at hstep
        obtain rfl := Option.some_inj.mp hstep
        exact .moves (.onPhase (by simp [hphase, Phase.Forth, Phase.rank]))
          (by simp [hphase, Phase.isOver, Phase.rank, Holds, hsocket])
  case shouldStop =>
    by_cases hstop : s.serverStopRequested = true
    · rw [if_pos hstop] at hstep
      obtain rfl := Option.some_inj.mp hstep
      exact .moves (.onPhase (by simp [hphase, Phase.Forth, Phase.rank]))
        (by simp [hphase, Phase.isOver, Phase.rank, Holds])
    · rw [if_neg hstop] at hstep
      by_cases hnone : cli.launched = true ∧ s.childExit = none
      · rw [if_pos hnone] at hstep
        rcases Process.waitNoHang_cases (!fine) s.target with ⟨death, hfine, htarget, hwait⟩ |
          ⟨-, -, hwait⟩ | ⟨-, hwait⟩ <;>
          simp only [hwait, Lifecycle.waitNoHang, Option.some_inj] at hstep <;> subst hstep
        · obtain rfl : fine = true := by simpa using hfine
          rw [decodeWaitStatus_status]
          exact .reaps hnone.2 htarget (.inl ⟨hphase, rfl⟩)
        · exact .waits hnone.2 (by simp) (.inl ⟨hphase, rfl⟩)
        · exact .waits hnone.2 (by simp) (.inl ⟨hphase, rfl⟩)
      · rw [if_neg hnone] at hstep
        obtain rfl := Option.some_inj.mp hstep
        exact .moves (.onPhase (by simp [hphase, Phase.Forth, Phase.rank]))
          (by simp [hphase, Phase.isOver, Phase.rank, Holds])
  case resumeNow =>
    by_cases hpre : s.preResume = true
    · rw [if_pos hpre] at hstep
      obtain rfl := Option.some_inj.mp hstep
      refine .resumes hpre (.inr ⟨rfl, ?_, rfl, .inl ⟨hphase, ?_⟩⟩)
      · split_ifs <;> rfl
      · by_cases halive : (fine && s.target.isAlive) = true
        · exact .inl ⟨if_pos halive, halive⟩
        · exact .inr ⟨if_neg halive, by simpa using halive⟩
    · rw [if_neg hpre] at hstep
      obtain rfl := Option.some_inj.mp hstep
      exact .moves (.onPhase (by simp [hphase, Phase.Forth, Phase.rank]))
        (by simp [hphase, Phase.isOver, Phase.rank, Holds, hpre])
  case terminate =>
    by_cases hnone : s.childExit = none
    · rw [if_pos ⟨hlaunched, hnone⟩] at hstep
      rcases Process.waitNoHang_cases (!fine) s.target with ⟨death, hfine, htarget, hwait⟩ |
        ⟨hfine, -, hwait⟩ | ⟨hwhy, hwait⟩ <;>
        simp only [hwait, Lifecycle.waitNoHang, Option.some_inj] at hstep <;> subst hstep
      · obtain rfl : fine = true := by simpa using hfine
        rw [decodeWaitStatus_status]
        exact .reaps hnone htarget (.inr ⟨hphase, rfl⟩)
      · exact .waits hnone (by simp) (.inr ⟨hphase, .inl ⟨rfl, by simpa using hfine⟩⟩)
      · exact .waits hnone (by simp) (.inr ⟨hphase, .inr ⟨rfl, by simpa using hwhy⟩⟩)
    · rw [if_neg fun h => hnone h.2] at hstep
      obtain rfl := Option.some_inj.mp hstep
      exact .moves (.onPhase (by simp [hphase, Phase.Forth, Phase.rank]))
        (by simp [hphase, Phase.isOver, Phase.rank, Holds, hnone])
  case reportExit =>
    obtain rfl := Option.some_inj.mp hstep
    exact .reports hphase
  case returned => exact absurd hstep (by simp)
  case startTerminal =>
    by_cases hterminal : cli.terminal = true
    · rw [if_pos hterminal] at hstep
      obtain rfl := Option.some_inj.mp hstep
      refine .moves ⟨rfl, rfl, rfl, rfl, rfl, id, fun h => absurd hphase h, ?_⟩ ?_ <;>
        cases fine <;> simp [hphase, Phase.Forth, Phase.isOver, Phase.rank, Holds, hterminal]
    · rw [if_neg hterminal] at hstep
      obtain rfl := Option.some_inj.mp hstep
      exact .moves (.onPhase (by simp [hphase, Phase.Forth, Phase.rank]))
        (by simp [hphase, Phase.isOver, Phase.rank, Holds, hterminal])
  all_goals
    obtain rfl := Option.some_inj.mp hstep
    refine .moves (.onPhase ?_) ?_ <;> cases fine <;>
      simp [hphase, Phase.Forth, Phase.isOver, Phase.rank, Holds]

/-- Every step is one of those that `Takes` lists, with what it needs. -/
theorem takes_of_step (hlaunched : cli.launched = true) (hstep : s.step cli action = some s') :
    Takes cli s action s' := by
  cases action with
  | dies death =>
      obtain ⟨-, hs'⟩ := Option.ite_none_right_eq_some.mp hstep
      obtain rfl := Option.some_inj.mp hs'
      exact .dies
  | serverStop =>
      simp only [Lifecycle.step] at hstep
      split at hstep
      · exact absurd hstep (by simp)
      · obtain rfl := Option.some_inj.mp hstep
        exact .stopRequested
  | go fine => exact takes_of_go hlaunched hstep
  | elapsed =>
      obtain ⟨⟨hphase, -⟩, hs'⟩ := Option.ite_none_right_eq_some.mp hstep
      obtain rfl := Option.some_inj.mp hs'
      exact .moves (.onPhase (by simp [hphase, Phase.Forth, Phase.rank]))
        (by simp [Holds, Phase.isOver, Phase.rank])
  | batch resumes =>
      obtain ⟨hphase, hs'⟩ := Option.ite_none_right_eq_some.mp hstep
      by_cases hfirst : (!s.seenFirstBatch && s.preResume) = true
      · rw [if_pos hfirst] at hs'
        obtain rfl := Option.some_inj.mp hs'
        exact .resumes (by simp_all) (.inl ⟨rfl, rfl, hphase, rfl⟩)
      · rw [if_neg hfirst] at hs'
        obtain rfl := Option.some_inj.mp hs'
        exact .moves ⟨rfl, rfl, rfl, rfl, rfl, fun _ => rfl, fun _ => rfl, by
          simp [hphase, Phase.Forth, Phase.rank]⟩ (by simp [Holds, Phase.isOver, Phase.rank])
  | closed =>
      obtain ⟨hphase, hs'⟩ := Option.ite_none_right_eq_some.mp hstep
      obtain rfl := Option.some_inj.mp hs'
      exact .moves (.onPhase (by simp [hphase, Phase.Forth, Phase.rank]))
        (by simp [Holds, Phase.isOver, Phase.rank])

/-- The last wait, for a target that had just been killed, was interrupted. -/
def KilledUnseen (s : Lifecycle) : Prop :=
  ∃ before target, s.calls = before ++ [.kill target, .wait target.kill .failed]

/-- What the shade knows of a launched target is true. -/
structure Known (s : Lifecycle) : Prop where
  exit : ∀ exit, s.childExit = some exit →
    (∃ death, s.target = .reaped death ∧ exit = exitOf death) ∨
      s.target.isOwn = true ∧ s.phase.isOver = true ∧
        exit = { code := some 0, signal := none } ∧ KilledUnseen s
  own : s.target.isOwn = false → s.childExit ≠ none ∨ s.phase = .returned false
  early : s.phase.rank < 7 → s.childExit = none
  ending : ∀ attached, s.phase = .kill attached ∨ s.phase = .reap attached → s.childExit = none
  killed : ∀ attached, s.phase = .reap attached →
    ∃ before target, s.calls = before ++ [.kill target] ∧ s.target = target.kill
  unreported : s.phase.rank < 13 → s.reported = []
  reported : s.reported = [] ∨ s.reported = s.childExit.toList
  told : s.phase = .finishTerminal ∨ s.phase = .awaitForwarder → s.terminalPump = true →
    s.reported = s.childExit.toList

namespace Known

theorem start (hlaunched : cli.launched = true) : Known (Lifecycle.start cli) := by
  constructor <;> simp [Lifecycle.start, hlaunched, Process.isOwn]

theorem isOwn_of_none (h : Known s) (hnone : s.childExit = none) (hphase : s.phase.rank < 15) :
    s.target.isOwn = true := by
  cases hown : s.target.isOwn with
  | true => rfl
  | false =>
      rcases h.own hown with hexit | hreturned
      · exact absurd hnone hexit
      · simp [hreturned, Phase.rank] at hphase

theorem moves (h : Known s) (hmoves : Moves s s') : Known s' := by
  obtain ⟨htarget, -, hexit, hcalls, hreported, -, hpump, hrank, hlast, -, hreap, hkill, hfinish,
    hawait⟩ := hmoves
  have hover : s.phase.isOver = true → s'.phase.isOver = true := by
    simp only [Phase.isOver, decide_eq_true_eq]
    omega
  constructor
  · intro exit hsome
    rw [htarget]
    refine (h.exit exit (hexit ▸ hsome)).imp id fun ⟨hown, hwas, hcode, hunseen⟩ => ?_
    exact ⟨hown, hover hwas, hcode, by rwa [KilledUnseen, hcalls]⟩
  · intro hown
    rcases h.own (htarget ▸ hown) with hsome | hphase
    · exact .inl (hexit ▸ hsome)
    · exact absurd hlast (by simp [hphase, Phase.rank])
  · exact fun hearly => hexit ▸ h.early (by omega)
  · rintro attached (hphase | hphase)
    · exact hexit ▸ h.early (by rw [hkill (by rw [hphase]; rfl)]; omega)
    · exact absurd (by rw [hphase]; rfl) hreap
  · exact fun attached hphase => absurd (by rw [hphase]; rfl) hreap
  · exact fun hlow => hreported ▸ h.unreported (by omega)
  · rw [hreported, hexit]
    exact h.reported
  · rintro (hphase | hphase) hpumps
    · exact absurd hphase hfinish
    · have hwas := hawait hphase
      rw [hreported, hexit]
      exact h.told (.inl hwas) (hpump (by simp [hwas]) ▸ hpumps)

theorem not_isAlive_of_reap (h : Known s) {attached : Bool} (hphase : s.phase = .reap attached) :
    s.target.isAlive = false := by
  obtain ⟨-, target, -, htarget⟩ := h.killed attached hphase
  rw [htarget]
  exact Process.isAlive_kill

/-- The blocking wait finds a zombie, and takes its status unless it is interrupted. -/
theorem ends (h : Known s) {fine attached : Bool} {waited : Waited} {target : Process}
    (hphase : s.phase = .reap attached) (hwait : s.target.wait (!fine) = some (waited, target)) :
    (∃ death, target = .reaped death ∧ waited = .died death.status ∧ fine = true) ∨
      target = s.target ∧ waited = .failed ∧ fine = false := by
  have hown := h.isOwn_of_none (h.ending attached (.inr hphase)) (by simp [hphase, Phase.rank])
  simp only [Process.wait, h.not_isAlive_of_reap hphase, Bool.false_and, Bool.false_eq_true, if_false,
    Option.some_inj] at hwait
  rcases Process.waitNoHang_cases (!fine) s.target with ⟨death, hfine, -, hdied⟩ |
    ⟨-, halive, -⟩ | ⟨hwhy, hfailed⟩
  · obtain ⟨rfl, rfl⟩ := Prod.mk.inj (hdied.symm.trans hwait)
    exact .inl ⟨death, rfl, rfl, by simpa using hfine⟩
  · exact absurd halive (by simp [h.not_isAlive_of_reap hphase])
  · obtain ⟨rfl, rfl⟩ := Prod.mk.inj (hfailed.symm.trans hwait)
    exact .inr ⟨rfl, rfl, by simpa [hown] using hwhy⟩

/-- No exit is known of yet, and none gets known with the step. -/
theorem of_none (hnone : s'.childExit = none) (hown : s'.target.isOwn = true)
    (hphase : ∀ attached, s'.phase ≠ .reap attached) (hreported : s.reported = [])
    (hsame : s'.reported = s.reported) : Known s' where
  exit := by simp [hnone]
  own := by simp [hown]
  early := fun _ => hnone
  ending := fun _ _ => hnone
  killed := fun attached hreap => absurd hreap (hphase attached)
  unreported := fun _ => hsame.trans hreported
  reported := .inl (hsame.trans hreported)
  told := fun _ _ => by rw [hsame, hreported, hnone]; rfl

theorem step (h : Known s) (hlaunched : cli.launched = true)
    (hstep : s.step cli action = some s') : Known s' := by
  cases takes_of_step hlaunched hstep with
  | @dies death =>
      refine ⟨fun exit hexit => ?_, fun hown => h.own (by simpa using hown), h.early, h.ending,
        fun attached hphase => ?_, h.unreported, h.reported, h.told⟩
      · rcases h.exit exit hexit with ⟨death', htarget, rfl⟩ | ⟨hown, hover⟩
        · exact .inl ⟨death', by rw [htarget]; rfl, rfl⟩
        · exact .inr ⟨by simpa using hown, hover⟩
      · rw [Process.die_of_not_isAlive (h.not_isAlive_of_reap hphase)]
        exact h.killed attached hphase
  | stopRequested =>
      exact ⟨h.exit, h.own, h.early, h.ending, h.killed, h.unreported, h.reported, h.told⟩
  | attaches hphase =>
      have hnone := h.early (by simp [hphase, Phase.rank])
      exact of_none hnone (h.isOwn_of_none hnone (by simp [hphase, Phase.rank])) (by simp)
        (h.unreported (by simp [hphase, Phase.rank])) rfl
  | moves hmoves _ => exact h.moves hmoves
  | @resumes _ fine first phase hpre hphase =>
      have hbefore : s.phase.rank < 9 ∧ (phase.rank < 7 → s.phase.rank < 7) ∧
          (∀ attached, phase ≠ .kill attached ∧ phase ≠ .reap attached) ∧
          ¬(phase = .finishTerminal ∨ phase = .awaitForwarder) := by
        rcases hphase with ⟨-, rfl, hp, -⟩ | ⟨-, hafter, -, ⟨hp, hnext⟩ | ⟨hp, -, hover⟩⟩
        · simp [hp, Phase.rank]
        · rcases hnext with ⟨rfl, -⟩ | ⟨rfl, -⟩ <;> simp [hp, Phase.rank]
        · rcases hover with rfl | rfl <;> simp [hp, Phase.rank]
      have hunreported := h.unreported (by omega)
      refine ⟨fun exit hexit => ?_, fun hown => ?_, fun hlow => h.early (hbefore.2.1 hlow), ?_, ?_,
        fun _ => hunreported, .inl hunreported, fun htold => absurd htold hbefore.2.2.2⟩
      · rcases h.exit exit hexit with ⟨death, htarget, rfl⟩ | ⟨-, hover, -⟩
        · exact .inl ⟨death, by cases fine <;> simp [Lifecycle.resume, htarget, Process.resume], rfl⟩
        · simp only [Phase.isOver, decide_eq_true_eq] at hover
          omega
      · rcases h.own (by cases fine <;> simpa [Lifecycle.resume] using hown) with hexit | hreturned
        · exact .inl hexit
        · simp [hreturned, Phase.rank] at hbefore
      · rintro attached (hkill | hreap)
        · exact absurd hkill (hbefore.2.2.1 attached).1
        · exact absurd hreap (hbefore.2.2.1 attached).2
      · exact fun attached hreap => absurd hreap (hbefore.2.2.1 attached).2
  | @reaps phase death hnone htarget hphase =>
      have hrank : 7 ≤ phase.rank ∧ phase.rank < 13 ∧ phase.rank ≠ 10 ∧ phase.rank ≠ 11 := by
        rcases hphase with ⟨-, rfl⟩ | ⟨-, rfl⟩ <;> decide
      have hunreported := h.unreported (by
        rcases hphase with ⟨hp, -⟩ | ⟨hp, -⟩ <;> simp [hp, Phase.rank])
      refine ⟨fun exit hexit => ?_, fun _ => .inl (by simp),
        fun hlow => absurd hlow (Nat.not_lt.mpr hrank.1), ?_, ?_, fun _ => hunreported,
        .inl hunreported, ?_⟩
      · exact .inl ⟨death, rfl, (Option.some_inj.mp hexit).symm⟩
      · rintro attached (rfl | rfl) <;> simp [Phase.rank] at hrank
      · rintro attached rfl
        simp [Phase.rank] at hrank
      · rintro (rfl | rfl) <;> simp [Phase.rank] at hrank
  | @waits fine phase waited hnone hwaited hphase =>
      have hrank : s.phase.rank < 13 ∧ ∀ attached, phase ≠ .reap attached := by
        rcases hphase with ⟨hp, rfl⟩ | ⟨hp, ⟨rfl, -⟩ | ⟨rfl, -⟩⟩ <;> simp [hp, Phase.rank]
      exact of_none hnone (h.isOwn_of_none hnone (by omega)) hrank.2 (h.unreported hrank.1) rfl
  | @kills fine attached hphase =>
      have hnone := h.ending attached (.inl hphase)
      have hown := h.isOwn_of_none hnone (by simp [hphase, Phase.rank])
      have hunreported := h.unreported (by simp [hphase, Phase.rank])
      exact ⟨by simp [hnone], by simp [hown], fun _ => hnone, fun _ _ => hnone,
        fun _ _ => ⟨s.calls, s.target, rfl, rfl⟩, fun _ => hunreported, .inl hunreported, by simp⟩
  | @ends fine attached waited target hphase hwait =>
      have hown := h.isOwn_of_none (h.ending attached (.inr hphase)) (by simp [hphase, Phase.rank])
      have hunreported := h.unreported (by simp [hphase, Phase.rank])
      have hends := h.ends hphase hwait
      cases attached with
      | true =>
          refine ⟨fun exit hexit => ?_, fun _ => .inl (by simp), by simp [Phase.rank], by simp,
            by simp, fun _ => hunreported, .inl hunreported, by simp⟩
          obtain rfl := Option.some_inj.mp hexit
          rcases hends with ⟨death, rfl, rfl, -⟩ | ⟨rfl, rfl, -⟩
          · exact .inl ⟨death, rfl, decodeWaitStatus_status death⟩
          · -- an interrupted wait leaves the status as it was initialised, and 0 is an exit
            obtain ⟨before, target, hcalls, htarget⟩ := h.killed true hphase
            exact .inr ⟨hown, rfl, by decide, before, target, by simp [hcalls, htarget]⟩
      | false => exact ⟨by simp, fun _ => .inr rfl, fun _ => rfl, fun _ _ => rfl, by simp,
          fun _ => hunreported, .inl hunreported, by simp⟩
  | reports hphase =>
      have hunreported := h.unreported (by simp [hphase, Phase.rank])
      refine ⟨fun exit hexit => (h.exit exit hexit).imp id fun ⟨hown, _, hcode⟩ => ⟨hown, rfl, hcode⟩,
        fun hown => ?_, by simp [Phase.rank], by simp, by simp, by simp [Phase.rank], ?_,
        fun _ hpump => ?_⟩
      · rcases h.own hown with hexit | hreturned
        · exact .inl hexit
        · simp [hphase] at hreturned
      · rw [hunreported]
        by_cases hpump : s.terminalPump = true
        · exact .inr (if_pos hpump)
        · exact .inl (if_neg hpump)
      · rw [if_pos hpump, hunreported]
        rfl

theorem of_runs {cond : Lifecycle → Action → Prop} (hlaunched : cli.launched = true)
    (hruns : Runs (Lifecycle.step cli) cond (Lifecycle.start cli) actions s) : Known s :=
  hruns.invariant (fun _ _ _ h _ hstep => h.step hlaunched hstep) (start hlaunched)

end Known

/-! ## What is asked about the target -/

/-- The calls so far: none of them hits a stranger, and the status is taken once. -/
structure Asked (s : Lifecycle) : Prop where
  own : ∀ call ∈ s.calls, ∀ target, call.named = some target → target.isOwn = true
  resumes : s.calls.countP TargetCall.isResume ≤ 1
  pending : s.preResume = true ∨ s.phase = .taskForPid → s.calls.countP TargetCall.isResume = 0
  kills : s.calls.countP TargetCall.isKill ≤ 1
  unkilled : s.phase.rank < 11 → s.calls.countP TargetCall.isKill = 0
  reaps : s.calls.countP TargetCall.isReap = if s.target.isOwn then 0 else 1
  suspended : s.target = .running → s.seenFirstBatch = true ∨ s.phase.afterDrive = true

namespace Asked

theorem start (hlaunched : cli.launched = true) : Asked (Lifecycle.start cli) := by
  constructor <;> simp [Lifecycle.start, hlaunched, Process.isOwn]

theorem named_snoc (h : Asked s) {last : TargetCall}
    (hlast : ∀ target, last.named = some target → target.isOwn = true) :
    ∀ call ∈ s.calls ++ [last], ∀ target, call.named = some target → target.isOwn = true := by
  intro call hcall
  rcases List.mem_append.mp hcall with hbefore | hnow
  · exact h.own call hbefore
  · obtain rfl := List.mem_singleton.mp hnow
    exact hlast

theorem moves (h : Asked s) (hmoves : Moves s s') : Asked s' := by
  obtain ⟨htarget, hpre, -, hcalls, -, hseen, -, hrank, -, hfirst, -⟩ := hmoves
  constructor
  · exact hcalls ▸ h.own
  · exact hcalls ▸ h.resumes
  · rintro (hpending | hphase)
    · exact hcalls ▸ h.pending (.inl (hpre ▸ hpending))
    · exact absurd (by rw [hphase]; rfl) hfirst
  · exact hcalls ▸ h.kills
  · exact fun hlow => hcalls ▸ h.unkilled (by omega)
  · rw [hcalls, htarget]
    exact h.reaps
  · intro hrunning
    refine (h.suspended (htarget ▸ hrunning)).imp hseen fun hafter => ?_
    simp only [Phase.afterDrive, decide_eq_true_eq] at hafter ⊢
    omega

theorem step (h : Asked s) (hknown : Known s) (hlaunched : cli.launched = true)
    (hstep : s.step cli action = some s') : Asked s' := by
  cases takes_of_step hlaunched hstep with
  | dies =>
      refine ⟨h.own, h.resumes, h.pending, h.kills, h.unkilled, by simpa using h.reaps, ?_⟩
      intro hrunning
      -- whoever dies is not running afterwards
      by_cases hwas : s.target = .running
      · exact h.suspended hwas
      · exact absurd hrunning (Process.die_ne_running hwas)
  | stopRequested =>
      exact ⟨h.own, h.resumes, h.pending, h.kills, h.unkilled, h.reaps, h.suspended⟩
  | attaches hphase =>
      exact ⟨h.own, h.resumes, fun _ => h.pending (.inr hphase), h.kills,
        fun _ => h.unkilled (by simp [hphase, Phase.rank]), h.reaps,
        fun hrunning => (h.suspended hrunning).imp id (by simp [hphase, Phase.afterDrive, Phase.rank])⟩
  | moves hmoves _ => exact h.moves hmoves
  | @resumes _ fine first phase hpre hphase =>
      -- a target that can still be resumed has not been resumed before
      have hnone := h.pending (.inl hpre)
      have hbefore : s.phase.rank < 11 ∧ phase ≠ .taskForPid := by
        rcases hphase with ⟨-, rfl, hp, -⟩ | ⟨-, hafter, -, ⟨hp, -⟩ | ⟨hp, -⟩⟩ <;>
          simp_all [Phase.rank, Phase.afterDrive] <;> rintro rfl <;> simp at hafter
      have hkills := h.unkilled hbefore.1
      refine ⟨h.named_snoc (by simp [TargetCall.named]), ?_, ?_, ?_, fun _ => ?_, ?_, fun _ => ?_⟩
      · simp [Lifecycle.resume, TargetCall.isResume, hnone]
      · simp [Lifecycle.resume, hbefore.2]
      · simp [Lifecycle.resume, TargetCall.isKill, hkills]
      · simp [Lifecycle.resume, TargetCall.isKill, hkills]
      · have hreaps := h.reaps
        cases fine <;> simpa [Lifecycle.resume, TargetCall.isReap] using hreaps
      · rcases hphase with ⟨-, -, -, rfl⟩ | ⟨-, hafter, -⟩
        · exact .inl rfl
        · exact .inr hafter
  | @reaps phase death hnone htarget hphase =>
      have hrank : s.phase.rank < 11 ∧ phase ≠ .taskForPid := by
        rcases hphase with ⟨hp, rfl⟩ | ⟨hp, rfl⟩ <;> simp [hp, Phase.rank]
      have hkills := h.unkilled hrank.1
      refine ⟨h.named_snoc ?_, ?_, ?_, ?_, fun _ => ?_, ?_, by simp⟩
      · simp [TargetCall.named, htarget, Process.isOwn]
      · simpa [TargetCall.isResume] using h.resumes
      · rintro (hpre | hfirst)
        · simpa [TargetCall.isResume] using h.pending (.inl hpre)
        · exact absurd hfirst hrank.2
      · simp [TargetCall.isKill, hkills]
      · simp [TargetCall.isKill, hkills]
      -- a target that is its own still has had no status taken
      · have hreaps : s.calls.countP TargetCall.isReap = 0 := by
          rw [h.reaps, htarget]
          rfl
        rw [List.countP_append, hreaps]
        rfl
  | @waits fine phase waited hnone hwaited hphase =>
      have hrank : s.phase.rank ≤ 9 ∧ phase ≠ .taskForPid ∧
          (s.phase.afterDrive = true → phase.afterDrive = true) := by
        rcases hphase with ⟨hp, rfl⟩ | ⟨hp, ⟨rfl, -⟩ | ⟨rfl, -⟩⟩ <;>
          simp [hp, Phase.rank, Phase.afterDrive]
      have hown := hknown.isOwn_of_none hnone (by omega)
      have hkills := h.unkilled (by omega)
      -- a wait that finds the target alive, or fails, takes no status
      have hreap : TargetCall.isReap (.wait s.target waited) = false := by
        cases waited with
        | died status => exact absurd rfl (hwaited status)
        | alive => rfl
        | failed => rfl
      refine ⟨h.named_snoc ?_, ?_, ?_, ?_, fun _ => ?_, ?_, fun hrunning => ?_⟩
      · simp [TargetCall.named, hown]
      · simpa [TargetCall.isResume] using h.resumes
      · rintro (hpre | hfirst)
        · simpa [TargetCall.isResume] using h.pending (.inl hpre)
        · exact absurd hfirst hrank.2.1
      · simp [TargetCall.isKill, hkills]
      · simp [TargetCall.isKill, hkills]
      · simpa [hreap] using h.reaps
      · exact (h.suspended hrunning).imp id hrank.2.2
  | @kills fine attached hphase =>
      -- no exit is known yet, so the number is still the target's
      have hown := hknown.isOwn_of_none (hknown.ending attached (.inl hphase))
        (by simp [hphase, Phase.rank])
      have hkills := h.unkilled (by simp [hphase, Phase.rank])
      refine ⟨h.named_snoc ?_, ?_, ?_, ?_, by simp [Phase.rank], ?_, fun hrunning => ?_⟩
      · simp [TargetCall.named, hown]
      · simpa [TargetCall.isResume] using h.resumes
      · rintro (hpre | hfirst)
        · simpa [TargetCall.isResume] using h.pending (.inl hpre)
        · simp at hfirst
      · simp [TargetCall.isKill, hkills]
      · simpa [TargetCall.isReap] using h.reaps
      · exact absurd hrunning Process.kill_ne_running
  | @ends fine attached waited target hphase hwait =>
      have hown := hknown.isOwn_of_none (hknown.ending attached (.inr hphase))
        (by simp [hphase, Phase.rank])
      have hreaps : s.calls.countP TargetCall.isReap = 0 := by
        rw [h.reaps, if_pos hown]
      refine ⟨h.named_snoc ?_, ?_, ?_, ?_, ?_, ?_, fun _ => .inr ?_⟩
      · simp [TargetCall.named, hown]
      · simpa [TargetCall.isResume] using h.resumes
      · rintro (hpre | hfirst)
        · simpa [TargetCall.isResume] using h.pending (.inl hpre)
        · cases attached <;> simp at hfirst
      · simpa [TargetCall.isKill] using h.kills
      · cases attached <;> simp [Phase.rank]
      -- the blocking wait takes the status, or is interrupted and takes nothing
      · rcases hknown.ends hphase hwait with ⟨death, rfl, rfl, -⟩ | ⟨rfl, rfl, -⟩ <;>
          rw [List.countP_append, hreaps]
        · rfl
        · exact (if_pos hown).symm
      · cases attached <;> rfl
  | reports hphase =>
      exact ⟨h.own, h.resumes, fun hpending => h.pending (hpending.imp id (by simp)), h.kills,
        by simp [Phase.rank], h.reaps,
        fun hrunning => (h.suspended hrunning).imp id fun _ => rfl⟩

theorem of_runs {cond : Lifecycle → Action → Prop} (hlaunched : cli.launched = true)
    (hruns : Runs (Lifecycle.step cli) cond (Lifecycle.start cli) actions s) : Asked s :=
  (hruns.invariant (p := fun s => Known s ∧ Asked s)
    (fun _ _ _ h _ hstep => ⟨h.1.step hlaunched hstep, h.2.step h.1 hlaunched hstep⟩)
    ⟨.start hlaunched, start hlaunched⟩).2

end Asked

/-! ## Targets that are given up -/

/-- The shade has done with a target that has still to be waited for. -/
def GivenUp (s : Lifecycle) : Prop := s.target.isOwn = true ∧ s.phase.isOver = true

theorem GivenUp.step (h : GivenUp s) (hlaunched : cli.launched = true)
    (hstep : s.step cli action = some s') : GivenUp s' := by
  obtain ⟨hown, hover⟩ := h
  simp only [Phase.isOver, decide_eq_true_eq] at hover
  cases takes_of_step hlaunched hstep with
  | dies => exact ⟨by simpa using hown, decide_eq_true hover⟩
  | stopRequested => exact ⟨hown, decide_eq_true hover⟩
  | attaches hphase => simp [hphase, Phase.rank] at hover
  | moves hmoves _ => exact ⟨hmoves.target ▸ hown, decide_eq_true (hover.trans hmoves.phase.1)⟩
  | resumes _ hphase =>
      rcases hphase with ⟨-, -, hp, -⟩ | ⟨-, -, -, ⟨hp, -⟩ | ⟨hp, -⟩⟩ <;> simp [hp, Phase.rank] at hover
  | reaps _ _ hphase => rcases hphase with ⟨hp, -⟩ | ⟨hp, -⟩ <;> simp [hp, Phase.rank] at hover
  | waits _ _ hphase => rcases hphase with ⟨hp, -⟩ | ⟨hp, -⟩ <;> simp [hp, Phase.rank] at hover
  | kills hphase => simp [hphase, Phase.rank] at hover
  | ends hphase _ => simp [hphase, Phase.rank] at hover
  | reports hphase => exact ⟨hown, rfl⟩

namespace Known

/-- An exit that is known of was taken from the target, where the target is not given up. -/
theorem not_isOwn_of_exit (h : Known s) (hkept : ¬GivenUp s) (hexit : s.childExit ≠ none) :
    s.target.isOwn = false := by
  obtain ⟨exit, hsome⟩ := Option.ne_none_iff_exists'.mp hexit
  rcases h.exit exit hsome with ⟨death, htarget, -⟩ | ⟨hown, hover, -⟩
  · rw [htarget]
    rfl
  · exact absurd ⟨hown, hover⟩ hkept

theorem kept_iff_of_moves (h : Known s) (hkept : ¬GivenUp s) (hmoves : Moves s s') :
    ¬GivenUp s' ↔ (s'.phase.isOver = true →
      s.phase.isOver = true ∨ s.childExit ≠ none ∧ 7 ≤ s.phase.rank) := by
  constructor
  · intro hkept' hover
    have hown : s.target.isOwn = false := by
      rw [← hmoves.target]
      exact eq_false_of_ne_true fun hown => hkept' ⟨hown, hover⟩
    rcases h.own hown with hexit | hreturned
    · exact .inr ⟨hexit, Nat.le_of_not_lt fun hearly => hexit (h.early hearly)⟩
    · exact .inl (by rw [hreturned]; rfl)
  · rintro hwhy ⟨hown, hover⟩
    rw [hmoves.target] at hown
    rcases hwhy hover with hwas | ⟨hexit, -⟩
    · exact hkept ⟨hown, hwas⟩
    · exact absurd (h.not_isOwn_of_exit hkept hexit) (by simp [hown])

/-- A step gives the target up just when the condition does not hold of it. -/
theorem kept_step_iff (h : Known s) (hkept : ¬GivenUp s) (hlaunched : cli.launched = true)
    (hstep : s.step cli action = some s') : ¬GivenUp s' ↔ Holds cli s action := by
  cases takes_of_step hlaunched hstep with
  | dies => exact iff_of_true (by simpa [GivenUp] using hkept) trivial
  | stopRequested => exact iff_of_true hkept trivial
  | attaches hphase =>
      exact iff_of_true (by simp [GivenUp, Phase.isOver, Phase.rank]) (by simp [Holds, hphase])
  | moves hmoves hholds => exact (h.kept_iff_of_moves hkept hmoves).trans hholds.symm
  | @resumes _ fine first phase hpre hphase =>
      -- at the first batch; after the recording; or where there is no recording
      rcases hphase with ⟨rfl, rfl, -⟩ | ⟨rfl, -, -, ⟨hp, hnext⟩ | ⟨hp, hsocket, hover⟩⟩
      · exact iff_of_true (by simp [GivenUp, Phase.isOver, Phase.rank]) trivial
      · have hown : (s.resume fine).target.isOwn = s.target.isOwn := by
          cases fine <;> simp [Lifecycle.resume]
        rcases hnext with ⟨rfl, hfine⟩ | ⟨rfl, hfine⟩ <;>
          simp [GivenUp, Holds, hp, hown, hfine, hpre, Phase.isOver, Phase.rank]
      · have hown : (s.resume fine).target.isOwn = true := by
          have hnone := h.early (by simp [hp, Phase.rank])
          have hown := h.isOwn_of_none hnone (by simp [hp, Phase.rank])
          cases fine <;> simpa [Lifecycle.resume] using hown
        refine iff_of_false (fun hkept' => hkept' ⟨hown, ?_⟩) (by simp [Holds, hp, hsocket])
        rcases hover with rfl | rfl <;> rfl
  | reaps _ htarget hphase =>
      refine iff_of_true (by simp [GivenUp, Process.isOwn]) ?_
      rcases hphase with ⟨hp, -⟩ | ⟨hp, -⟩ <;> simp [Holds, hp]
  | waits hnone _ hphase =>
      rcases hphase with ⟨hp, rfl⟩ | ⟨hp, ⟨rfl, rfl⟩ | ⟨rfl, hwhy⟩⟩
      · exact iff_of_true (by simp [GivenUp, Phase.isOver, Phase.rank]) (by simp [Holds, hp])
      · exact iff_of_true (by simp [GivenUp, Phase.isOver, Phase.rank]) (by simp [Holds, hp])
      · have hown := h.isOwn_of_none hnone (by simp [hp, Phase.rank])
        -- a wait that fails though the target is there was interrupted
        obtain rfl : _ = false := by simpa [hown] using hwhy
        exact iff_of_false (fun hkept' => hkept' ⟨hown, rfl⟩) (by simp [Holds, hp, hnone])
  | kills hphase =>
      exact iff_of_true (by simp [GivenUp, Phase.isOver, Phase.rank]) (by simp [Holds, hphase])
  | @ends fine attached waited target hphase hwait =>
      have hown := h.isOwn_of_none (h.ending attached (.inr hphase)) (by simp [hphase, Phase.rank])
      have hover : (if attached then Phase.reportExit else .returned false).isOver = true := by
        cases attached <;> rfl
      rcases h.ends hphase hwait with ⟨death, rfl, -, rfl⟩ | ⟨rfl, -, rfl⟩
      · exact iff_of_true (by simp [GivenUp, Process.isOwn]) (by simp [Holds, hphase])
      -- an interrupted wait leaves a zombie that nobody waits for any more
      · exact iff_of_false (fun hkept' => hkept' ⟨hown, hover⟩) (by simp [Holds, hphase])
  | reports hphase =>
      refine iff_of_true (fun hgivenUp => hkept ⟨hgivenUp.1, ?_⟩) (by simp [Holds, hphase])
      rw [hphase]
      rfl

end Known

/-! ## Whole runs -/

/-- However the run goes, no signal and no wait of the shade hits a stranger.  The target is
suspended until the first batch is there or the recording is over; it is resumed and killed at most
once, and its status is taken at most once.  What is told of its end is true, unless the wait for a
target that was killed was interrupted; and once the terminal is being finished, the end of a target
that was waited for has been told. -/
theorem launched_target_calls (hlaunched : cli.launched = true)
    (hruns : Runs (Lifecycle.step cli) Any (Lifecycle.start cli) actions s) :
    (∀ call ∈ s.calls, ∀ target, call.named = some target → target.isOwn = true) ∧
    (s.target = .running → s.seenFirstBatch = true ∨ s.phase.afterDrive = true) ∧
    s.calls.countP TargetCall.isResume ≤ 1 ∧ s.calls.countP TargetCall.isKill ≤ 1 ∧
    s.calls.countP TargetCall.isReap = (if s.target.isOwn then 0 else 1) ∧
    (s.reported = [] ∨ ∃ exit, s.reported = [exit] ∧
      ((∃ death, s.target = .reaped death ∧ exit = exitOf death) ∨
        exit = { code := some 0, signal := none } ∧ s.target.isOwn = true ∧ KilledUnseen s)) ∧
    (s.phase = .finishTerminal ∨ s.phase = .awaitForwarder → s.terminalPump = true →
      s.target.isOwn = false → ∃ death, s.target = .reaped death ∧ s.reported = [exitOf death]) := by
  have hknown := Known.of_runs hlaunched hruns
  have hasked := Asked.of_runs hlaunched hruns
  refine ⟨hasked.own, hasked.suspended, hasked.resumes, hasked.kills, hasked.reaps, ?_, ?_⟩
  · cases hexit : s.childExit with
    | none =>
        have hreported := hknown.reported
        rw [hexit, Option.toList_none, or_self] at hreported
        exact .inl hreported
    | some exit =>
        refine hknown.reported.imp id fun hreported => ⟨exit, by rw [hreported, hexit]; rfl, ?_⟩
        exact (hknown.exit exit hexit).imp id fun ⟨hown, _, hcode, hunseen⟩ => ⟨hcode, hown, hunseen⟩
  · intro hphase hpump hown
    rcases hknown.own hown with hexit | hreturned
    · obtain ⟨exit, hsome⟩ := Option.ne_none_iff_exists'.mp hexit
      rcases hknown.exit exit hsome with ⟨death, htarget, rfl⟩ | ⟨hown', -⟩
      · exact ⟨death, htarget, by rw [hknown.told hphase hpump, hsome]; rfl⟩
      · simp [hown] at hown'
    · simp [hreturned] at hphase

/-- A target with a terminal, recorded until the daemon closes, killed and told of. -/
theorem launched_target_calls_killed :
    ∃ s : Lifecycle, s.phase = .finishTerminal ∧
      s.calls.countP TargetCall.isResume = 1 ∧ s.calls.countP TargetCall.isKill = 1 ∧
      (∀ call ∈ s.calls, ∀ target, call.named = some target → target.isOwn = true) ∧
      s.calls.countP TargetCall.isReap = (if s.target.isOwn then 0 else 1) ∧
      ∃ death, s.target = .reaped death ∧ s.reported = [exitOf death] := by
  have hrun : ∃ s, Runs (Lifecycle.step ⟨true, true, true, false, true⟩) Any
      (Lifecycle.start ⟨true, true, true, false, true⟩)
      (List.replicate 7 (.go true) ++ [.batch true, .go true, .closed] ++
        List.replicate 6 (.go true)) s ∧
      s.phase = .finishTerminal ∧ s.terminalPump = true ∧ s.target.isOwn = false ∧
      s.calls.countP TargetCall.isResume = 1 ∧ s.calls.countP TargetCall.isKill = 1 :=
    exists_runs_of_runIf (by decide +kernel)
  obtain ⟨s, hruns, hphase, hpump, hown, hresumes, hkills⟩ := hrun
  obtain ⟨hstrangers, -, -, -, hreaps, -, htold⟩ := launched_target_calls rfl hruns
  exact ⟨s, hphase, hresumes, hkills, hstrangers, hreaps, htold (.inl hphase) hpump hown⟩

end Stax.Shade
