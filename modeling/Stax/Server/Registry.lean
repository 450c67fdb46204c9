/-
# Stax.Server.Registry — the run registry and what is done to it under its lock.

The registry holds the active run, the runs that are over, and what belongs to the active run: its
cancel handle, its shade and the channel to it, whether ingest is attached, and the shade's process.
Every operation of the server touches it in one or more sections under one lock; a section looks at
the active run and, if it is the run it is about, changes the registry.

Run ids are numbers without a bound.
-/
import Mathlib

namespace Stax.Server

/-- The number of a run, counted from one. -/
abbrev RunId := ℕ

/-- The number of a process. -/
abbrev Pid := UInt32

/-! ## Runs -/

/-- Lifecycle phase of a hosted run. -/
inductive RunState
  | recording
  | stopped
  deriving DecidableEq, Repr

/-- Why a run stopped. -/
inductive StopReason
  | targetExited
  | timeLimit
  | userStop
  | recorderError (message : String)
  deriving DecidableEq, Repr

/-- What is told of a run, active or over. -/
structure RunSummary where
  id : RunId
  state : RunState
  stopReason : Option StopReason
  startedAtUnixNs : ℕ
  stoppedAtUnixNs : Option ℕ
  targetPid : Option Pid
  label : String
  petSamples : ℕ
  offCpuIntervals : ℕ
  deriving DecidableEq, Repr

namespace RunSummary

/-- A run that begins. -/
def recording (id : RunId) (label : String) (now : ℕ) : RunSummary :=
  { id := id
    state := .recording
    stopReason := none
    startedAtUnixNs := now
    stoppedAtUnixNs := none
    targetPid := none
    label := label
    petSamples := 0
    offCpuIntervals := 0 }

/-- A run is over, for a reason and at a time. -/
def stop (summary : RunSummary) (reason : StopReason) (now : ℕ) : RunSummary :=
  { summary with
    state := .stopped
    stopReason := some reason
    stoppedAtUnixNs := some now }

/-- Stopped, with a reason and a time. -/
structure Ended (summary : RunSummary) : Prop where
  state : summary.state = .stopped
  reason : summary.stopReason.isSome
  stoppedAt : summary.stoppedAtUnixNs.isSome

theorem ended_stop (summary : RunSummary) (reason : StopReason) (now : ℕ) :
    (summary.stop reason now).Ended :=
  ⟨rfl, rfl, rfl⟩

@[simp] theorem stop_id (summary : RunSummary) (reason : StopReason) (now : ℕ) :
    (summary.stop reason now).id = summary.id := rfl

theorem stop_eq_self {summary : RunSummary} {reason : StopReason} {now : ℕ}
    (hstate : summary.state = .stopped) (hreason : summary.stopReason = some reason)
    (hat : summary.stoppedAtUnixNs = some now) : summary.stop reason now = summary := by
  cases summary
  subst hstate hreason hat
  rfl

end RunSummary

/-! ## What is ingested for a run's counters -/

/-- What an event counts as in its run's summary. -/
inductive Tally
  | sample
  | offCpuInterval
  | target (pid : Pid)
  | nothing
  deriving DecidableEq, Repr

/-- What an event changes in the summary of its run. -/
def RunSummary.count (summary : RunSummary) : Tally → RunSummary
  | .sample => { summary with petSamples := summary.petSamples + 1 }
  | .offCpuInterval => { summary with offCpuIntervals := summary.offCpuIntervals + 1 }
  | .target pid => { summary with targetPid := some pid }
  | .nothing => summary

@[simp] theorem RunSummary.count_id (summary : RunSummary) (tally : Tally) :
    (summary.count tally).id = summary.id := by
  cases tally <;> rfl

@[simp] theorem RunSummary.count_state (summary : RunSummary) (tally : Tally) :
    (summary.count tally).state = summary.state := by
  cases tally <;> rfl

theorem RunSummary.count_stopReason (summary : RunSummary) (tally : Tally) :
    (summary.count tally).stopReason = summary.stopReason := by
  cases tally <;> rfl

theorem RunSummary.Ended.count {summary : RunSummary} (h : summary.Ended) (tally : Tally) :
    (summary.count tally).Ended := by
  cases tally <;> exact ⟨h.state, h.reason, h.stoppedAt⟩

/-! ## The registry -/

/-- A shade, for the run it names. -/
structure ShadeInfo where
  runId : RunId
  targetPid : Pid
  shadePid : Pid
  deriving DecidableEq, Repr

/-- The answer to a shade that registers. -/
structure ShadeAck where
  accepted : Bool
  reason : Option String
  deriving DecidableEq, Repr

/-- A channel for commands to a shade, by its number. -/
abbrev CommandChannel := ℕ

/-- The cell that holds a shade's process, and the run the shade was spawned for. -/
structure ChildCell where
  serial : ℕ
  spawnedFor : RunId
  deriving DecidableEq, Repr

/-- The process of a shade, with the cell it is kept in. -/
structure ShadeChild where
  pid : Pid
  child : ChildCell
  deriving DecidableEq, Repr

/-- What the lock protects.  A run's cancel handle is named by the run it was made for. -/
structure Inner where
  active : Option RunSummary := none
  cancel : Option RunId := none
  activeShade : Option ShadeInfo := none
  activeShadeCommands : Option CommandChannel := none
  ingestAttached : Bool := false
  shadeChild : Option ShadeChild := none
  history : List RunSummary := []
  deriving DecidableEq, Repr

namespace Inner

/-- The run is the active one. -/
def IsActive (self : Inner) (run : RunId) : Prop := ∃ active, self.active = some active ∧ active.id = run

instance (self : Inner) (run : RunId) : Decidable (self.IsActive run) :=
  match h : self.active with
  | none => isFalse fun ⟨_, hsome, _⟩ => by simp [h] at hsome
  | some active =>
    if hid : active.id = run then isTrue ⟨active, h, hid⟩
    else isFalse fun ⟨_, hsome, hrun⟩ => hid (by
      rw [h, Option.some_inj] at hsome
      rw [hsome, hrun])

/-! ## Sections -/

/-- Why an ingest call for a run is refused, if it is. -/
def ensureActiveRun (self : Inner) (run : RunId) : Except String Unit :=
  match self.active with
  | none => .error "no active run"
  | some active =>
    if active.id = run then .ok ()
    else .error ("run id mismatch: ingest for " ++ toString run ++ ", active run is " ++
      toString active.id)

/-- The handle by which the drainer of a run is told to stop; only the active run has one. -/
def cancelForRun (self : Inner) (run : RunId) : Except String RunId :=
  match self.ensureActiveRun run with
  | .error message => .error message
  | .ok () =>
    match self.cancel with
    | some cancel => .ok cancel
    | none => .error "active run has no cancel handle"

/-- Registers a shade for the active run unless it has one. -/
def tryRegisterShade (self : Inner) (info : ShadeInfo) (commands : CommandChannel) :
    ShadeAck × Inner :=
  match self.active with
  | none => ({ accepted := false, reason := some "no active run" }, self)
  | some active =>
    if active.id ≠ info.runId then
      ({ accepted := false
         reason := some ("run id mismatch: shade for " ++ toString info.runId ++
          ", server's active run is " ++ toString active.id) }, self)
    else if self.activeShade.isSome then
      ({ accepted := false, reason := some "a shade is already registered for this run" }, self)
    else
      ({ accepted := true, reason := none },
        { self with activeShade := some info, activeShadeCommands := some commands })

/-- Clears the shade's slot if the shade in it has this pid. -/
def clearShade (self : Inner) (pid : Pid) : Inner :=
  match self.activeShade with
  | some info =>
    if info.shadePid = pid then { self with activeShade := none, activeShadeCommands := none }
    else self
  | none => self

/-- A shade's session has closed, and with it goes what is kept of that shade. -/
def shadeSessionClosed (self : Inner) (shadePid : Pid) : Inner := self.clearShade shadePid

/-- The watchdog's second section, for a pid that is no longer alive. -/
def watchdogClear (self : Inner) (pid : Pid) : Inner := self.clearShade pid

/-- The first section of `shade_child_exited`. -/
def shadeChildExited (self : Inner) (shadePid : Pid) : Inner :=
  match self.shadeChild with
  | some child => if child.pid = shadePid then { self with shadeChild := none } else self
  | none => self

/-- The channel of the active run is closed, so that another may be attached. -/
def detachIngest (self : Inner) (run : RunId) : Inner :=
  if self.IsActive run then { self with ingestAttached := false } else self

/-- Nothing belongs to the active run any more, and there is none. -/
def cleared (self : Inner) : Inner :=
  { self with
    active := none
    cancel := none
    activeShade := none
    activeShadeCommands := none
    ingestAttached := false }

/-- The first section of `begin_run`: a stopped run that is still marked active is put away. -/
def clearStale (self : Inner) : Inner :=
  match self.active with
  | some active =>
    if active.state = .stopped then
      { self.cleared with
        shadeChild := none
        history := if ∃ run ∈ self.history, run.id = active.id then self.history
          else self.history ++ [active] }
    else self
  | none => self

/-- The child that the first section of `begin_run` takes. -/
def staleChild (self : Inner) : Option ShadeChild :=
  match self.active with
  | some active => if active.state = .stopped then self.shadeChild else none
  | none => none

/-- The section of `begin_run` that makes a run the active one. -/
def publish (self : Inner) (summary : RunSummary) : Inner :=
  { self with active := some summary, cancel := some summary.id, ingestAttached := false }

/-- The section of `discard_start_failed`. -/
def discardStartFailed (self : Inner) (run : RunId) (message : String) (now : ℕ) : Inner :=
  match self.active with
  | some active =>
    if active.id = run then
      { self.cleared with
        shadeChild := none
        history := self.history ++ [active.stop (.recorderError message) now] }
    else self
  | none => self

/-- The section of `stop_active`; the run stays the active one. -/
def stopActive (self : Inner) (now : ℕ) : Inner :=
  match self.active with
  | some active =>
    { self with
      active := some (active.stop .userStop now)
      cancel := none
      activeShade := none
      activeShadeCommands := none
      ingestAttached := false }
  | none => self

/-- A run that `stop_active` has stopped keeps its reason and time. -/
def finalSummary (active : RunSummary) (reason : StopReason) (now : ℕ) : RunSummary :=
  if active.state = .stopped then active else active.stop reason now

/-- The section of `finalize_run`. -/
def finalizeRun (self : Inner) (run : RunId) (reason : StopReason) (now : ℕ) : Inner :=
  match self.active with
  | some active =>
    if active.id = run then
      { self.cleared with history := self.history ++ [finalSummary active reason now] }
    else self
  | none => self

/-- An event under a run's id is counted if that run is the active one. -/
def countEvent (self : Inner) (run : RunId) (tally : Tally) : Inner :=
  match self.active with
  | some active =>
    if active.id = run then { self with active := some (active.count tally) } else self
  | none => self

/-- The section of `apply_target_attached`. -/
def attachTarget (self : Inner) (run : RunId) (pid : Pid) : Inner := self.countEvent run (.target pid)

/-- A channel is attached to the active run. -/
def setIngestAttached (self : Inner) : Inner := { self with ingestAttached := true }

/-- The process of a new shade is kept. -/
def storeChild (self : Inner) (child : ShadeChild) : Inner := { self with shadeChild := some child }

/-- The process of the shade is taken away, to be reaped. -/
def takeChild (self : Inner) : Inner := { self with shadeChild := none }

end Inner

/-- The sections that change the registry, but for the one that publishes a run. -/
inductive Section
  | registerShade (info : ShadeInfo) (commands : CommandChannel)
  | shadeSessionClosed (shadePid : Pid)
  | watchdogClear (pid : Pid)
  | shadeChildExited (shadePid : Pid)
  | detachIngest (run : RunId)
  | clearStale
  | discardStartFailed (run : RunId) (message : String) (now : ℕ)
  | stopActive (now : ℕ)
  | finalizeRun (run : RunId) (reason : StopReason) (now : ℕ)
  | countEvent (run : RunId) (tally : Tally)
  | attachTarget (run : RunId) (pid : Pid)
  | setIngestAttached
  | storeChild (child : ShadeChild)
  | takeChild
  deriving DecidableEq, Repr

/-- What a section does; nobody else sees the registry while it runs. -/
def Section.run (self : Inner) : Section → Inner
  | .registerShade info commands => (self.tryRegisterShade info commands).2
  | .shadeSessionClosed shadePid => self.shadeSessionClosed shadePid
  | .watchdogClear pid => self.watchdogClear pid
  | .shadeChildExited shadePid => self.shadeChildExited shadePid
  | .detachIngest run => self.detachIngest run
  | .clearStale => self.clearStale
  | .discardStartFailed run message now => self.discardStartFailed run message now
  | .stopActive now => self.stopActive now
  | .finalizeRun run reason now => self.finalizeRun run reason now
  | .countEvent run tally => self.countEvent run tally
  | .attachTarget run pid => self.attachTarget run pid
  | .setIngestAttached => self.setIngestAttached
  | .storeChild child => self.storeChild child
  | .takeChild => self.takeChild

/-! ## What sections do to the runs -/

namespace Section

/-- The active run becomes this and stays active. -/
def Changes (active active' : RunSummary) : Section → Prop
  | .stopActive now => active' = active.stop .userStop now
  | .countEvent run tally => active.id = run ∧ active' = active.count tally
  | .attachTarget run pid => active.id = run ∧ active' = active.count (.target pid)
  | _ => False

/-- The active run is put away as this. -/
def Ends (active past : RunSummary) : Section → Prop
  | .clearStale => active.state = .stopped ∧ past = active
  | .discardStartFailed run message now =>
    active.id = run ∧ past = active.stop (.recorderError message) now
  | .finalizeRun run reason now => active.id = run ∧ past = Inner.finalSummary active reason now
  | _ => False

/-- A section leaves the runs as they are, changes the active one, or puts it away. -/
theorem run_cases (self : Inner) (part : Section) :
    ((part.run self).active = self.active ∧ (part.run self).history = self.history) ∨
      (∃ active active', self.active = some active ∧ part.Changes active active' ∧
        (part.run self).active = some active' ∧ (part.run self).history = self.history) ∨
      ∃ active past, self.active = some active ∧ part.Ends active past ∧
        (part.run self).active = none ∧
        ((part.run self).history = self.history ++ [past] ∨
          (part = .clearStale ∧ (part.run self).history = self.history ∧
            ∃ run ∈ self.history, run.id = active.id)) := by
  cases hactive : self.active with
  | none =>
      refine Or.inl ?_
      cases part <;>
        grind [Section.run, Inner.tryRegisterShade, Inner.shadeSessionClosed, Inner.watchdogClear,
          Inner.clearShade, Inner.shadeChildExited, Inner.detachIngest, Inner.clearStale,
          Inner.discardStartFailed, Inner.stopActive, Inner.finalizeRun, Inner.countEvent,
          Inner.attachTarget, Inner.setIngestAttached, Inner.storeChild, Inner.takeChild]
  | some active =>
      have hkept (other : Inner) : other.active = self.active → other.history = self.history →
          other.active = some active ∧ other.history = self.history :=
        fun hother hhistory => ⟨hother.trans hactive, hhistory⟩
      cases part with
      | clearStale =>
          simp only [Section.run, Inner.clearStale, hactive]
          split_ifs with hstopped hpast
          · exact Or.inr (Or.inr ⟨active, active, rfl, ⟨hstopped, rfl⟩, rfl,
              Or.inr ⟨trivial, rfl, hpast⟩⟩)
          · exact Or.inr (Or.inr ⟨active, active, rfl, ⟨hstopped, rfl⟩, rfl, Or.inl rfl⟩)
          · exact Or.inl ⟨hactive, rfl⟩
      | discardStartFailed run message now =>
          simp only [Section.run, Inner.discardStartFailed, hactive]
          split_ifs with hid
          · exact Or.inr (Or.inr ⟨active, _, rfl, ⟨hid, rfl⟩, rfl, Or.inl rfl⟩)
          · exact Or.inl ⟨hactive, rfl⟩
      | stopActive now =>
          simp only [Section.run, Inner.stopActive, hactive]
          exact Or.inr (Or.inl ⟨active, _, rfl, rfl, rfl, trivial⟩)
      | finalizeRun run reason now =>
          simp only [Section.run, Inner.finalizeRun, hactive]
          split_ifs with hid
          · exact Or.inr (Or.inr ⟨active, _, rfl, ⟨hid, rfl⟩, rfl, Or.inl rfl⟩)
          · exact Or.inl ⟨hactive, rfl⟩
      | countEvent run tally =>
          simp only [Section.run, Inner.countEvent, hactive]
          split_ifs with hid
          · exact Or.inr (Or.inl ⟨active, _, rfl, ⟨hid, rfl⟩, rfl, rfl⟩)
          · exact Or.inl ⟨hactive, rfl⟩
      | attachTarget run pid =>
          simp only [Section.run, Inner.attachTarget, Inner.countEvent, hactive]
          split_ifs with hid
          · exact Or.inr (Or.inl ⟨active, _, rfl, ⟨hid, rfl⟩, rfl, rfl⟩)
          · exact Or.inl ⟨hactive, rfl⟩
      | _ =>
          refine Or.inl (hkept _ ?_ ?_) <;>
            grind [Section.run, Inner.tryRegisterShade, Inner.shadeSessionClosed,
              Inner.watchdogClear, Inner.clearShade, Inner.shadeChildExited, Inner.detachIngest,
              Inner.setIngestAttached, Inner.storeChild, Inner.takeChild]

theorem id_of_changes {part : Section} {active active' : RunSummary}
    (h : part.Changes active active') : active'.id = active.id := by
  cases part with
  | stopActive now => rw [show active' = active.stop .userStop now from h, RunSummary.stop_id]
  | countEvent run tally => rw [h.2, RunSummary.count_id]
  | attachTarget run pid => rw [h.2, RunSummary.count_id]
  | _ => exact absurd h id

/-- A section makes no other run the active one. -/
theorem isActive_of_run {inner : Inner} {run : RunId} {part : Section}
    (h : (part.run inner).IsActive run) : inner.IsActive run := by
  obtain ⟨active, hactive, rfl⟩ := h
  rcases part.run_cases inner with ⟨hsame, -⟩ | ⟨before, active', hbefore, hchanges, hnow, -⟩ |
    ⟨_, _, -, -, hnone, -⟩
  · exact ⟨active, hsame ▸ hactive, rfl⟩
  · obtain rfl : active' = active := Option.some_inj.mp (hnow.symm.trans hactive)
    exact ⟨before, hbefore, (id_of_changes hchanges).symm⟩
  · rw [hnone] at hactive
    exact absurd hactive (by simp)

end Section

end Stax.Server
