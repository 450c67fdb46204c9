/-
# Stax.Server.Operations — the operations that begin and end runs, each as a whole.

An operation runs to its end before the next one starts, so it is a function of what it looks at:
the registry, the counter of run ids, and the terminals that wait for a shade, which are behind a
lock of their own.  Its parts are the sections the tasks of the server go through, and the server
gets by a run of those tasks alone to where the operation leads.
-/
import Stax.Server.RunRegistry
import Mathlib.Data.List.AList

namespace Stax.Server

open Stax.Lib Stax.Lib.Machine

/-! ## Terminals -/

/-- An end of a terminal's channel, by its number. -/
abbrev TerminalChannel := ℕ

/-- The two ends of a frontend's terminal, until a shade comes for them. -/
structure PendingTerminal where
  inputFromFrontend : TerminalChannel
  outputToFrontend : TerminalChannel
  deriving DecidableEq, Repr

/-- The terminals that no shade has attached to yet, by their runs. -/
structure TerminalState where
  pending : AList (fun _ : RunId => PendingTerminal) := ∅

/-- What the operations look at. -/
structure Lifecycle where
  inner : Inner := {}
  nextRunId : RunId := 1
  /-- How many shades have been spawned. -/
  spawned : ℕ := 0
  terminal : TerminalState := {}

/-- A run is marked active that is over. -/
def Inner.Stale (self : Inner) : Prop :=
  ∃ active, self.active = some active ∧ active.state = .stopped

namespace Lifecycle

/-! ## Operations -/

/-- A number is taken in any case; the run becomes active where no other is. -/
def beginRun (self : Lifecycle) (label : String) (now : ℕ) : Except String RunId × Lifecycle :=
  let inner := self.inner.clearStale
  let id := self.nextRunId
  if inner.active.isSome then
    (.error ("another run is already active; " ++
        "call RunControl::stop_active or wait_active first"),
      { self with inner := inner, nextRunId := id + 1 })
  else
    (.ok id,
      { self with
        inner := inner.publish (.recording id label now)
        nextRunId := id + 1 })

/-- The shade's process is spawned as `spawn` says, and kept for the run. -/
def spawnShade (self : Lifecycle) (run : RunId) (spawn : Except String Pid) :
    Except String Unit × Lifecycle :=
  match spawn with
  | .ok pid =>
    (.ok (),
      { self with
        inner := self.inner.storeChild
          { pid := pid, child := { serial := self.spawned, spawnedFor := run } }
        spawned := self.spawned + 1 })
  | .error message => (.error message, self)

/-- The run's terminal does not wait any more. -/
def removeTerminal (self : Lifecycle) (run : RunId) : Lifecycle :=
  { self with terminal := { pending := self.terminal.pending.erase run } }

/-- A start has failed: its terminal is removed, and its run ends in the history. -/
def discardStartFailed (self : Lifecycle) (run : RunId) (message : String) (now : ℕ) : Lifecycle :=
  let self := self.removeTerminal run
  { self with inner := self.inner.discardStartFailed run message now }

/-- What `start_attach` and `start_launch` end with: the run has a shade or is discarded. -/
def startShade (self : Lifecycle) (run : RunId) (spawn : Except String Pid) (now : ℕ) :
    Except CallError RunId × Lifecycle :=
  match self.spawnShade run spawn with
  | (.ok (), self) => (.ok run, self)
  | (.error message, self) =>
    (.error (.internal message), self.discardStartFailed run message now)

/-- `RunControl::start_attach`: a run is begun, and a shade is spawned for it. -/
def startAttach (self : Lifecycle) (label : String) (now : ℕ) (spawn : Except String Pid)
    (later : ℕ) : Except CallError RunId × Lifecycle :=
  match self.beginRun label now with
  | (.error message, self) => (.error (.internal message), self)
  | (.ok run, self) => self.startShade run spawn later

/-- A frontend's terminal is kept for the shade of its run. -/
def pendTerminal (self : Lifecycle) (run : RunId) (terminal : PendingTerminal) : Lifecycle :=
  { self with terminal := { pending := self.terminal.pending.insert run terminal } }

/-- `RunControl::start_launch`: as `start_attach`, with a command and a terminal. -/
def startLaunch (self : Lifecycle) (command : List String) (label : String) (now : ℕ)
    (terminal : PendingTerminal) (spawn : Except String Pid) (later : ℕ) :
    Except CallError RunId × Lifecycle :=
  if command = [] then (.error (.internal "launch command is empty"), self)
  else
    match self.beginRun label now with
    | (.error message, self) => (.error (.internal message), self)
    | (.ok run, self) => (self.pendTerminal run terminal).startShade run spawn later

/-- `RunIngest::start_run`; the drainer it spawns is a task of its own. -/
def startRun (self : Lifecycle) (label : String) (now : ℕ) : Except String RunId × Lifecycle :=
  match self.beginRun label now with
  | (.error message, self) => (.error message, self)
  | (.ok run, self) => (.ok run, { self with inner := self.inner.setIngestAttached })

/-- The shade of a run takes the terminal that is kept for it, which it can do only once. -/
def attachTerminalChannels (self : Lifecycle) (run : RunId) :
    Except String PendingTerminal × Lifecycle :=
  match self.terminal.pending.lookup run with
  | some terminal => (.ok terminal, self.removeTerminal run)
  | none => (.error ("no pending terminal for run " ++ toString run), self)

/-- `stop_active`, with the reaping of the shade at its end. -/
def stopActive (self : Lifecycle) (now : ℕ) : Except CallError RunSummary × Lifecycle :=
  match self.inner.active with
  | none => (.error .noActiveRun, self)
  | some active =>
    (.ok (active.stop .userStop now),
      { self with inner := (self.inner.stopActive now).takeChild })

/-- The end of a run: its terminal is removed, and if it is active it goes to the history. -/
def finalizeRun (self : Lifecycle) (run : RunId) (reason : StopReason) (now : ℕ) : Lifecycle :=
  let self := self.removeTerminal run
  if self.inner.IsActive run then
    { self with inner := (self.inner.finalizeRun run reason now).takeChild }
  else self

/-- What an ingest drainer does last: it was cancelled, or its channel is closed or broken. -/
def drainerExit (self : Lifecycle) (run : RunId) (cancelled : Bool) (now : ℕ) : Lifecycle :=
  if cancelled then self.finalizeRun run .userStop now
  else { self with inner := self.inner.detachIngest run }

/-- The process of a shade has exited; the run it was spawned for ends with it if it is still
active. -/
def shadeChildExited (self : Lifecycle) (run : RunId) (shadePid : Pid) (success : Bool)
    (status : String) (now : ℕ) : Lifecycle :=
  let shouldFinalize := self.inner.IsActive run
  let self := { self with inner := self.inner.shadeChildExited shadePid }
  if shouldFinalize then self.finalizeRun run (exitReason success status) now else self

end Lifecycle

/-- An operation, with what it depends on outside: the clock, and what spawning a shade comes to. -/
inductive Operation
  | startLaunch (command : List String) (label : String) (now : ℕ) (terminal : PendingTerminal)
      (spawn : Except String Pid) (later : ℕ)
  | startAttach (label : String) (now : ℕ) (spawn : Except String Pid) (later : ℕ)
  | startRun (label : String) (now : ℕ)
  | attachTerminal (run : RunId)
  | stopActive (now : ℕ)
  | drainerExit (run : RunId) (cancelled : Bool) (now : ℕ)
  | shadeExit (run : RunId) (shadePid : Pid) (success : Bool) (status : String) (now : ℕ)

namespace Lifecycle

/-- The state an operation leaves. -/
def after (self : Lifecycle) : Operation → Lifecycle
  | .startLaunch command label now terminal spawn later =>
    (self.startLaunch command label now terminal spawn later).2
  | .startAttach label now spawn later => (self.startAttach label now spawn later).2
  | .startRun label now => (self.startRun label now).2
  | .attachTerminal run => (self.attachTerminalChannels run).2
  | .stopActive now => (self.stopActive now).2
  | .drainerExit run cancelled now => self.drainerExit run cancelled now
  | .shadeExit run shadePid success status now =>
    self.shadeChildExited run shadePid success status now

/-- The state the server starts in. -/
def initial : Lifecycle := {}

/-! ## What `begin_run` does -/

/-- The state in which `begin_run` returns the id of a run it has begun. -/
def begun (self : Lifecycle) (label : String) (now : ℕ) : Lifecycle :=
  { self with
    inner := self.inner.clearStale.publish (.recording self.nextRunId label now)
    nextRunId := self.nextRunId + 1 }

/-- `begin_run` gets the next id, unless a run is recording. -/
theorem beginRun_cases (self : Lifecycle) (label : String) (now : ℕ) :
    (self.beginRun label now =
        (.error ("another run is already active; " ++
            "call RunControl::stop_active or wait_active first"),
          { self with nextRunId := self.nextRunId + 1 }) ∧
      self.inner.active.isSome ∧ ¬ self.inner.Stale) ∨
    (self.beginRun label now = (.ok self.nextRunId, self.begun label now) ∧
      (self.inner.active = none ∨ self.inner.Stale)) := by
  cases hactive : self.inner.active with
  | none =>
      have hclear : self.inner.clearStale = self.inner := by
        rw [Inner.clearStale, hactive]
      refine Or.inr ⟨?_, Or.inl rfl⟩
      simp [beginRun, begun, hclear, hactive]
  | some active =>
      by_cases hstopped : active.state = .stopped
      · refine Or.inr ⟨?_, Or.inr ⟨active, hactive, hstopped⟩⟩
        have hnone : self.inner.clearStale.active = none := by
          simp [Inner.clearStale, hactive, hstopped, Inner.cleared]
        simp [beginRun, begun, hnone]
      · have hclear : self.inner.clearStale = self.inner := by
          simp [Inner.clearStale, hactive, hstopped]
        refine Or.inl ⟨?_, rfl, ?_⟩
        · simp [beginRun, hclear, hactive]
        · rintro ⟨other, hother, hover⟩
          rw [hactive, Option.some_inj] at hother
          exact hstopped (hother ▸ hover)

end Lifecycle

/-! ## The server performs the operations -/

/-- The server's state shows what the operations look at. -/
structure ServerState.Shows (s : ServerState) (core : Lifecycle) : Prop where
  inner : s.inner = core.inner
  nextRunId : s.nextRunId = core.nextRunId
  spawned : s.spawned = core.spawned
  pending : ∀ run, run ∈ s.pendingTerminals ↔ run ∈ core.terminal.pending

namespace ServerState

/-- The same, with a job that stands there. -/
structure ShowsAt (s : ServerState) (core : Lifecycle) (t : ℕ) (job : Job) : Prop
    extends s.Shows core where
  job : s.jobs[t]? = some job

/-- The steps of one job. -/
def StepsOf (t : ℕ) (_ : ServerState) (action : Action) : Prop := ∃ choice, action = .step t choice

/-- A call, and then the steps of its own job alone, lead to a state like this. -/
def Performs (cache : Option HostCache) (s : ServerState) (c : Call) (p : ServerState → Prop) :
    Prop :=
  ∃ (choices : List Choice) (s' : ServerState),
    Runs (step cache) Any s (.call c :: choices.map (Action.step s.jobs.length)) s' ∧ p s'

section Performed

variable {cache : Option HostCache} {s : ServerState} {core core' : Lifecycle} {t : ℕ} {job : Job}
  {p : ServerState → Prop} {run : RunId}

theorem Shows.removeTerminal (h : s.Shows core) (run : RunId) :
    (s.apply (.removeTerminal run)).Shows (core.removeTerminal run) := by
  refine ⟨h.inner, h.nextRunId, h.spawned, fun other => ?_⟩
  show other ∈ s.pendingTerminals.filter (· ≠ run) ↔ other ∈ core.terminal.pending.erase run
  rw [List.mem_filter, AList.mem_erase, h.pending, decide_eq_true_iff, and_comm]

theorem Shows.pendTerminal (h : s.Shows core) (run : RunId) (terminal : PendingTerminal) :
    (s.apply (.pendTerminal run)).Shows (core.pendTerminal run terminal) := by
  refine ⟨h.inner, h.nextRunId, h.spawned, fun other => ?_⟩
  show other ∈ run :: s.pendingTerminals ↔ other ∈ core.terminal.pending.insert run terminal
  rw [List.mem_cons, AList.mem_insert, h.pending]

theorem Shows.section (h : s.Shows core) (part : Section) :
    (s.apply (.section part)).Shows { core with inner := part.run core.inner } := by
  refine ⟨?_, h.nextRunId, h.spawned, h.pending⟩
  show part.run s.inner = part.run core.inner
  rw [h.inner]

/-- Where every action is a step of one job, the run is the job's choices. -/
theorem exists_choices {s' : ServerState} {actions : List Action}
    (h : Runs (step cache) (StepsOf t) s actions s') :
    ∃ choices : List Choice, actions = choices.map (Action.step t) := by
  induction h with
  | nil s => exact ⟨[], rfl⟩
  | cons hown hstep hrest ih =>
      obtain ⟨choice, rfl⟩ := hown
      obtain ⟨choices, rfl⟩ := ih
      exact ⟨choice :: choices, rfl⟩

/-- A call stands at the end of the jobs. -/
theorem Shows.call (h : s.Shows core) (c : Call)
    (hrest : ∀ s', s'.ShowsAt core s.jobs.length (c.start s.inner) →
      LeadsBy (step cache) (StepsOf s.jobs.length) s' p) : Performs cache s c p := by
  have hat : ServerState.ShowsAt { s with jobs := s.jobs ++ [c.start s.inner] } core s.jobs.length
      (c.start s.inner) := { h with job := List.getElem?_concat_length }
  obtain ⟨actions, s', hruns, hp⟩ := hrest _ hat
  obtain ⟨choices, rfl⟩ := exists_choices hruns
  exact ⟨choices, s', Runs.cons trivial rfl (hruns.imp fun _ _ _ => trivial), hp⟩

/-- The job takes its step, and what is left is done from there. -/
theorem ShowsAt.next (h : s.ShowsAt core t job) (choice : Choice) {m : Move}
    (hm : job.next cache s choice = some m) (hshows : (s.apply m.effect).Shows core')
    (hrest : ∀ s', s'.ShowsAt core' t m.job → LeadsBy (step cache) (StepsOf t) s' p) :
    LeadsBy (step cache) (StepsOf t) s p := by
  have hstep : step cache s (.step t choice) = some (s.move t m) := by
    simp [step, h.job, hm]
  exact LeadsBy.next ⟨choice, rfl⟩ hstep (hrest _ { hshows with job := getElem?_move_self h.job })

theorem ShowsAt.ends (h : s.ShowsAt core t job) :
    LeadsBy (step cache) (StepsOf t) s fun s' => s'.Shows core :=
  LeadsBy.here h.toShows

/-! ### `begin_run` -/

variable {starter : Starter} {label : String}

/-- The first sections of `begin_run`: a stopped run is put away and an id is taken. -/
theorem ShowsAt.fetchId (h : s.ShowsAt core t (.begin starter label .clearStale))
    (hrest : ∀ s', s'.ShowsAt
      { core with inner := core.inner.clearStale, nextRunId := core.nextRunId + 1 } t
      (.begin starter label (.publish core.nextRunId)) → LeadsBy (step cache) (StepsOf t) s' p) :
    LeadsBy (step cache) (StepsOf t) s p := by
  have hfetch (s : ServerState)
      (h : s.ShowsAt { core with inner := core.inner.clearStale } t
        (.begin starter label .fetchId)) : LeadsBy (step cache) (StepsOf t) s p := by
    have hid : s.nextRunId = core.nextRunId := h.nextRunId
    have hshows : (s.apply .fetchRunId).Shows
        { core with inner := core.inner.clearStale, nextRunId := core.nextRunId + 1 } :=
      ⟨h.inner, congrArg (· + 1) hid, h.spawned, h.pending⟩
    refine h.next (.go 0) rfl hshows fun s' h' => hrest s' { h' with job := ?_ }
    rw [← hid]
    exact h'.job
  cases hstale : s.inner.staleChild with
  | none =>
      have hjob : Job.next cache s (.begin starter label .clearStale) (.go 0) =
          some { effect := .section .clearStale, job := .begin starter label .fetchId } := by
        simp [Job.next, BeginPhase.next, hstale]
      exact h.next (.go 0) hjob (h.section .clearStale) hfetch
  | some child =>
      have hjob : Job.next cache s (.begin starter label .clearStale) (.go 0) =
          some
            { effect := .section .clearStale
              job := .begin starter label (.reapStale child) } := by
        simp [Job.next, BeginPhase.next, hstale]
      refine h.next (.go 0) hjob (h.section .clearStale) fun s h => ?_
      have hshows : (s.apply (.emptyCell child.child)).Shows
          { core with inner := core.inner.clearStale } :=
        ⟨h.inner, h.nextRunId, h.spawned, h.pending⟩
      exact h.next (.go 0) rfl hshows hfetch

/-- The sections of `begin_run` after a run is published change nothing the operations look at. -/
theorem ShowsAt.begun {id : RunId} (h : s.ShowsAt core t (.begin starter label (.resetAggregator id)))
    (hrest : ∀ s', s'.ShowsAt core t (starter.afterBegin id) → LeadsBy (step cache) (StepsOf t) s' p) :
    LeadsBy (step cache) (StepsOf t) s p := by
  have hkeep (s : ServerState) (h : s.Shows core) (effect : Effect)
      (hinner : (s.apply effect).inner = s.inner)
      (hnext : (s.apply effect).nextRunId = s.nextRunId)
      (hspawned : (s.apply effect).spawned = s.spawned)
      (hpending : (s.apply effect).pendingTerminals = s.pendingTerminals) :
      (s.apply effect).Shows core :=
    ⟨hinner.trans h.inner, hnext.trans h.nextRunId, hspawned.trans h.spawned,
      fun run => hpending ▸ h.pending run⟩
  refine h.next (.go 0) rfl (hkeep s h.toShows _ rfl rfl rfl rfl) fun s h => ?_
  refine h.next (.go 0) rfl (hkeep s h.toShows _ rfl rfl rfl rfl) fun s h => ?_
  refine h.next (.go 0) rfl (hkeep s h.toShows _ rfl rfl rfl rfl) fun s h => ?_
  cases cache with
  | none => exact h.next (.go 0) rfl (hkeep s h.toShows .none rfl rfl rfl rfl) hrest
  | some host =>
      exact h.next (.go 0) rfl
        (hkeep s h.toShows (.register id (.attachSharedCache host)) rfl rfl rfl rfl) hrest

/-- `begin_run` is refused, or begins its run and goes on. -/
theorem ShowsAt.beginRun (h : s.ShowsAt core t (.begin starter label .clearStale)) (now : ℕ)
    (hrefused : ∀ message other, core.beginRun label now = (.error message, other) →
      ∀ s', s'.Shows other → p s')
    (hbegun : ∀ id other, core.beginRun label now = (.ok id, other) →
      ∀ s', s'.ShowsAt other t (starter.afterBegin id) → LeadsBy (step cache) (StepsOf t) s' p) :
    LeadsBy (step cache) (StepsOf t) s p := by
  refine h.fetchId fun s h => ?_
  have hinner : s.inner = core.inner.clearStale := h.inner
  cases hactive : core.inner.clearStale.active with
  | some active =>
      have hjob : Job.next cache s (.begin starter label (.publish core.nextRunId)) (.go now) =
          some { job := .refused (.internal ("another run is already active; " ++
            "call RunControl::stop_active or wait_active first")) } := by
        simp [Job.next, BeginPhase.next, hinner, hactive]
      have hshows : (s.apply .none).Shows
          { core with inner := core.inner.clearStale, nextRunId := core.nextRunId + 1 } :=
        h.toShows
      have hbegin : core.beginRun label now =
          (.error ("another run is already active; " ++
              "call RunControl::stop_active or wait_active first"),
            { core with inner := core.inner.clearStale, nextRunId := core.nextRunId + 1 }) := by
        simp [Lifecycle.beginRun, hactive]
      exact h.next (.go now) hjob hshows fun s h =>
        LeadsBy.here (hrefused _ _ hbegin s h.toShows)
  | none =>
      have hjob : Job.next cache s (.begin starter label (.publish core.nextRunId)) (.go now) =
          some
            { effect := .publish (.recording core.nextRunId label now)
              job := .begin starter label (.resetAggregator core.nextRunId) } := by
        simp [Job.next, BeginPhase.next, hinner, hactive]
      have hshows : (s.apply (.publish (.recording core.nextRunId label now))).Shows
          (core.begun label now) := by
        refine ⟨?_, h.nextRunId, h.spawned, h.pending⟩
        show s.inner.publish _ = core.inner.clearStale.publish _
        rw [hinner]
      have hbegin : core.beginRun label now = (.ok core.nextRunId, core.begun label now) := by
        simp [Lifecycle.beginRun, Lifecycle.begun, hactive]
      exact h.next (.go now) hjob hshows fun s h => h.begun (hbegun _ _ hbegin)

/-! ### The other parts -/

/-- A shade is spawned, and the call answers with its run. -/
theorem ShowsAt.shadeSpawned (h : s.ShowsAt core t (.spawnShade run)) (pid : Pid) (now : ℕ) :
    LeadsBy (step cache) (StepsOf t) s fun s' =>
      s'.ShowsAt (core.startShade run (.ok pid) now).2 t (.started run) := by
  have hshows : (s.apply (.storeChild pid run)).Shows (core.startShade run (.ok pid) now).2 := by
    refine ⟨?_, h.nextRunId, congrArg (· + 1) h.spawned, h.pending⟩
    show s.inner.storeChild { pid := pid, child := { serial := s.spawned, spawnedFor := run } } =
      core.inner.storeChild { pid := pid, child := { serial := core.spawned, spawnedFor := run } }
    rw [h.inner, h.spawned]
  exact h.next (.spawnOk pid) rfl hshows fun s h => LeadsBy.here h

/-- A shade is spawned or the run is discarded. -/
theorem ShowsAt.startShade (h : s.ShowsAt core t (.spawnShade run)) (spawn : Except String Pid)
    (now : ℕ) :
    LeadsBy (step cache) (StepsOf t) s fun s' => s'.Shows (core.startShade run spawn now).2 := by
  cases spawn with
  | ok pid => exact (h.shadeSpawned pid now).imp (fun _ _ => id) fun s' h' => h'.toShows
  | error message =>
      have hnone : (s.apply .none).Shows core := h.toShows
      refine h.next (.spawnErr message) rfl hnone fun s h => ?_
      refine h.next (.go 0) rfl (h.removeTerminal run) fun s h => ?_
      exact h.next (.go now) rfl (h.section (.discardStartFailed run message now)) fun s h => h.ends

/-- The shade's process is taken and reaped. -/
theorem ShowsAt.takeChild {reaper : Reaper} (h : s.ShowsAt core t (.takeChild reaper)) :
    LeadsBy (step cache) (StepsOf t) s fun s' =>
      s'.ShowsAt { core with inner := core.inner.takeChild } t reaper.done := by
  cases hchild : s.inner.shadeChild with
  | none =>
      have hjob : Job.next cache s (.takeChild reaper) (.go 0) =
          some { effect := .section .takeChild, job := reaper.done } := by
        simp [Job.next, hchild]
      exact h.next (.go 0) hjob (h.section .takeChild) fun s h => LeadsBy.here h
  | some child =>
      have hjob : Job.next cache s (.takeChild reaper) (.go 0) =
          some { effect := .section .takeChild, job := .reap reaper child } := by
        simp [Job.next, hchild]
      refine h.next (.go 0) hjob (h.section .takeChild) fun s h => ?_
      have hshows : (s.apply (.emptyCell child.child)).Shows
          { core with inner := core.inner.takeChild } :=
        ⟨h.inner, h.nextRunId, h.spawned, h.pending⟩
      exact h.next (.go 0) rfl hshows fun s h => LeadsBy.here h

/-- The drainers that wait are woken, and step later. -/
theorem ShowsAt.notify {snapshot : RunSummary} {cancel : Option RunId}
    (h : s.ShowsAt core t (.notify snapshot cancel)) :
    LeadsBy (step cache) (StepsOf t) s fun s' =>
      s'.ShowsAt { core with inner := core.inner.takeChild } t (.stopped snapshot) := by
  cases cancel with
  | none =>
      have hshows : (s.apply .none).Shows core := h.toShows
      exact h.next (.go 0) rfl hshows fun s h => h.takeChild
  | some cancel =>
      have hshows : (s.apply (.notifyWaiters cancel)).Shows core :=
        ⟨h.inner, h.nextRunId, h.spawned, h.pending⟩
      exact h.next (.go 0) rfl hshows fun s h => h.takeChild

theorem ShowsAt.finalizeRun {reason : StopReason}
    (h : s.ShowsAt core t (.finalizeTerminal run reason)) (now : ℕ) :
    LeadsBy (step cache) (StepsOf t) s fun s' => s'.Shows (core.finalizeRun run reason now) := by
  refine h.next (.go 0) rfl (h.removeTerminal run) fun s h => ?_
  have hinner : s.inner = core.inner := h.inner
  rw [Lifecycle.finalizeRun]
  show LeadsBy _ _ s fun s' => s'.Shows (if core.inner.IsActive run then _ else _)
  refine h.next (.go now) rfl (h.section (.finalizeRun run reason now)) fun s' h' => ?_
  have hjob : s'.jobs[t]? = some (if s.inner.IsActive run then .takeChild (.finalizeRun run)
      else .finished) := h'.job
  rw [hinner] at hjob
  split_ifs at hjob ⊢ with hactive
  · exact (ShowsAt.takeChild { h' with job := hjob }).imp (fun _ _ => id) fun s h => h.toShows
  · refine LeadsBy.here ⟨h'.inner.trans ?_, h'.nextRunId, h'.spawned, h'.pending⟩
    exact Inner.finalizeRun_of_not_isActive hactive

end Performed

end ServerState

/-- The task that an operation is the end of is under way, and ready for it. -/
def Operation.UnderWay (s : ServerState) : Operation → Prop
  | .drainerExit run cancelled _ =>
    ∃ (t : ℕ) (cancel : RunId), s.jobs[t]? = some (.drainer run cancel (.waiting cancelled))
  | .shadeExit run shadePid _ _ _ =>
    ∃ (t : ℕ) (child : ShadeChild), s.jobs[t]? = some (.watchChild run child) ∧
      child.pid = shadePid ∧ child.child ∈ s.children
  | _ => True

/-- What a client asks for where an operation begins. -/
def Operation.asks : Operation → Option Action
  | .startLaunch _ label _ _ _ _ => some (.call (.startLaunch label))
  | .startAttach label _ _ _ => some (.call (.startAttach label))
  | .startRun label _ => some (.call (.startRun label))
  | .attachTerminal run => some (.attachTerminal run)
  | .stopActive _ => some (.call .stopActive)
  | .drainerExit _ _ _ | .shadeExit _ _ _ _ _ => none

/-- The operation's task is the `t`-th job: one that is under way, or the next to come. -/
def Operation.IsTask (s : ServerState) (t : ℕ) : Operation → Prop
  | .drainerExit run cancelled _ =>
    ∃ cancel : RunId, s.jobs[t]? = some (.drainer run cancel (.waiting cancelled))
  | .shadeExit run shadePid _ _ _ =>
    ∃ child : ShadeChild, s.jobs[t]? = some (.watchChild run child) ∧ child.pid = shadePid
  | _ => t = s.jobs.length

/-- An action of the operation's own, where it begins in the state `s`. -/
def Operation.Own (s : ServerState) (operation : Operation) (_ : ServerState) (action : Action) :
    Prop :=
  operation.asks = some action ∨ ∃ t choice, operation.IsTask s t ∧ action = .step t choice

namespace ServerState

section Performed

variable {cache : Option HostCache} {s : ServerState} {core : Lifecycle} {p : ServerState → Prop}

/-- What a call and the steps of its job lead to, an operation that is this call leads to. -/
theorem Performs.leadsBy {operation : Operation} {c : Call} (h : Performs cache s c p)
    (hasks : operation.asks = some (.call c)) (htask : operation.IsTask s s.jobs.length) :
    LeadsBy (step cache) (operation.Own s) s p := by
  obtain ⟨choices, s', hruns, hp⟩ := h
  refine ⟨_, s', hruns.of_mem fun _ action hmem => ?_, hp⟩
  rcases List.mem_cons.mp hmem with rfl | hmem
  · exact Or.inl hasks
  · obtain ⟨choice, -, rfl⟩ := List.mem_map.mp hmem
    exact Or.inr ⟨_, choice, htask, rfl⟩

/-- A call that begins a run: it is refused, or goes on after `begin_run`. -/
theorem Shows.begins {starter : Starter} {c : Call} {label : String} (h : s.Shows core) (now : ℕ)
    (hc : ∀ inner, c.start inner = .begin starter label .clearStale)
    (hrefused : ∀ message refused, core.beginRun label now = (.error message, refused) →
      ∀ s', s'.Shows refused → p s')
    (hbegun : ∀ id begun, core.beginRun label now = (.ok id, begun) → ∀ s',
      s'.ShowsAt begun s.jobs.length (starter.afterBegin id) →
        LeadsBy (step cache) (StepsOf s.jobs.length) s' p) :
    Performs cache s c p := by
  refine h.call c fun s' h' => ?_
  rw [hc] at h'
  exact h'.beginRun now hrefused hbegun

/-- `stop_active` stops the active run and answers, or answers that there is none. -/
theorem Shows.stopActive (h : s.Shows core) (now : ℕ) :
    Performs cache s .stopActive fun s' => s'.Shows (core.stopActive now).2 ∧
      (s'.jobs[s.jobs.length]? = some (.refused .noActiveRun) ∨
        ∃ active, core.inner.active = some active ∧
          s'.jobs[s.jobs.length]? = some (.stopped (active.stop .userStop now))) := by
  refine h.call .stopActive fun s h => ?_
  have hinner : s.inner = core.inner := h.inner
  rw [Lifecycle.stopActive]
  cases hactive : core.inner.active with
  | none =>
      have hjob : Job.next cache s .markStopped (.go now) =
          some { job := .refused .noActiveRun } := by
        simp [Job.next, hinner, hactive]
      have hshows : (s.apply .none).Shows core := h.toShows
      exact h.next (.go now) hjob hshows fun s h => LeadsBy.here ⟨h.toShows, Or.inl h.job⟩
  | some active =>
      have hjob : Job.next cache s .markStopped (.go now) =
          some
            { effect := .section (.stopActive now)
              job := .sendStop (active.stop .userStop now) s.inner.cancel
                s.inner.activeShadeCommands } := by
        simp [Job.next, hinner, hactive]
      refine h.next (.go now) hjob (h.section (.stopActive now)) fun s' h => ?_
      have hsent : (s'.apply .none).Shows { core with inner := core.inner.stopActive now } :=
        h.toShows
      exact h.next (.go 0) rfl hsent fun s h => h.notify.imp (fun _ _ => id) fun s' h' =>
        ⟨h'.toShows, Or.inr ⟨active, rfl, h'.job⟩⟩

/-- Whatever the tasks of the server stand at, it can get to where the operation leads by the
operation's own actions alone. -/
theorem Shows.performs (h : s.Shows core) (operation : Operation) (hready : operation.UnderWay s) :
    LeadsBy (step cache) (operation.Own s) s fun s' => s'.Shows (core.after operation) := by
  cases operation with
  | startLaunch command label now terminal spawn later =>
      show LeadsBy _ _ s fun s' =>
        s'.Shows (core.startLaunch command label now terminal spawn later).2
      by_cases hcommand : command = []
      · -- the call is refused before it comes to `begin_run`
        rw [Lifecycle.startLaunch, if_pos hcommand]
        exact LeadsBy.here h
      · rw [Lifecycle.startLaunch, if_neg hcommand]
        refine Performs.leadsBy (c := .startLaunch label) ?_ rfl rfl
        refine h.begins now (fun _ => rfl) (fun _ _ hbegin s' h' => ?_) (fun id begun hbegin s' h' => ?_)
        · rw [hbegin]
          exact h'
        · rw [hbegin]
          exact h'.next (.go 0) rfl (h'.pendTerminal id terminal) fun s h =>
            h.startShade spawn later
  | startAttach label now spawn later =>
      show LeadsBy _ _ s fun s' => s'.Shows (core.startAttach label now spawn later).2
      rw [Lifecycle.startAttach]
      refine Performs.leadsBy (c := .startAttach label) ?_ rfl rfl
      refine h.begins now (fun _ => rfl) (fun _ _ hbegin s' h' => ?_) (fun id begun hbegin s' h' => ?_)
      · rw [hbegin]
        exact h'
      · rw [hbegin]
        exact h'.startShade spawn later
  | startRun label now =>
      show LeadsBy _ _ s fun s' => s'.Shows (core.startRun label now).2
      rw [Lifecycle.startRun]
      refine Performs.leadsBy (c := .startRun label) ?_ rfl rfl
      refine h.begins now (fun _ => rfl) (fun _ _ hbegin s' h' => ?_) (fun id begun hbegin s' h' => ?_)
      · rw [hbegin]
        exact h'
      · rw [hbegin]
        exact h'.next (.go 0) rfl (h'.section .setIngestAttached) fun s h => h.ends
  | attachTerminal run =>
      show LeadsBy _ _ s fun s' => s'.Shows (core.attachTerminalChannels run).2
      have hstep : step cache s (.attachTerminal run) = some _ := rfl
      refine LeadsBy.next (Or.inl rfl) hstep (LeadsBy.here ?_)
      rw [Lifecycle.attachTerminalChannels]
      split
      · exact h.removeTerminal run
      · rename_i hnone
        have hremoved := h.removeTerminal run
        refine ⟨h.inner, h.nextRunId, h.spawned, fun other => (hremoved.pending other).trans ?_⟩
        rw [Lifecycle.removeTerminal, AList.mem_erase, and_iff_right_iff_imp]
        rintro hother rfl
        exact AList.lookup_eq_none.mp hnone hother
  | stopActive now =>
      have hperforms : Performs cache s .stopActive _ := h.stopActive now
      obtain ⟨choices, s', hruns, hshows, -⟩ := hperforms
      exact Performs.leadsBy (c := .stopActive) ⟨choices, s', hruns, hshows⟩ rfl rfl
  | drainerExit run cancelled now =>
      obtain ⟨t, cancel, hjob⟩ := hready
      show LeadsBy _ _ s fun s' => s'.Shows (core.drainerExit run cancelled now)
      have hown : ∀ s' action, StepsOf t s' action →
          (Operation.drainerExit run cancelled now).Own s s' action := by
        rintro s' action ⟨choice, rfl⟩
        exact Or.inr ⟨t, choice, ⟨cancel, hjob⟩, rfl⟩
      refine LeadsBy.imp hown (fun _ => id) ?_
      have hat : s.ShowsAt core t (.drainer run cancel (.waiting cancelled)) := { h with job := hjob }
      have hnone : (s.apply .none).Shows core := h
      rw [Lifecycle.drainerExit]
      cases cancelled with
      | true => exact hat.next .cancelled rfl hnone fun s h => h.finalizeRun now
      | false =>
          refine hat.next .channelClosed rfl hnone fun s h => ?_
          exact h.next (.go 0) rfl (h.section (.detachIngest run)) fun s h => h.ends
  | shadeExit run shadePid success status now =>
      obtain ⟨t, child, hjob, rfl, hchild⟩ := hready
      show LeadsBy _ _ s fun s' => s'.Shows (core.shadeChildExited run child.pid success status now)
      have hown : ∀ s' action, StepsOf t s' action →
          (Operation.shadeExit run child.pid success status now).Own s s' action := by
        rintro s' action ⟨choice, rfl⟩
        exact Or.inr ⟨t, choice, ⟨child, hjob, rfl⟩, rfl⟩
      refine LeadsBy.imp hown (fun _ => id) ?_
      have hat : s.ShowsAt core t (.watchChild run child) := { h with job := hjob }
      have hnext : Job.next cache s (.watchChild run child) (.childExit success status) =
          some
            { effect := .emptyCell child.child
              job := .childExited run child.pid (exitReason success status) } := by
        simp [Job.next, hchild]
      have hshows : (s.apply (.emptyCell child.child)).Shows core :=
        ⟨h.inner, h.nextRunId, h.spawned, h.pending⟩
      refine hat.next (.childExit success status) hnext hshows fun s h => ?_
      have hinner : s.inner = core.inner := h.inner
      refine h.next (.go 0) rfl (h.section (.shadeChildExited child.pid)) fun s' h' => ?_
      have hjob : s'.jobs[t]? = some (if s.inner.IsActive run then
          .finalizeTerminal run (exitReason success status) else .finished) := h'.job
      rw [hinner] at hjob
      rw [Lifecycle.shadeChildExited]
      split_ifs at hjob ⊢ with hactive
      · exact ShowsAt.finalizeRun { h' with job := hjob } now
      · exact h'.ends

/-- The same for operations one after the other, where each is a call a client makes. -/
theorem Shows.performs_calls (h : s.Shows core) {operations : List Operation}
    (hcalls : ∀ operation ∈ operations, ∀ s, operation.UnderWay s) :
    Leads (step cache) s fun s' => s'.Shows (operations.foldl Lifecycle.after core) := by
  induction operations generalizing s core with
  | nil => exact Leads.here h
  | cons operation operations ih =>
      obtain ⟨hcall, hrest⟩ := List.forall_mem_cons.mp hcalls
      exact (h.performs operation (hcall s)).leads.trans fun s' h' => ih h' hrest

theorem shows_initial : ServerState.initial.Shows Lifecycle.initial :=
  ⟨rfl, rfl, rfl, fun _ => iff_of_false List.not_mem_nil (AList.notMem_empty _)⟩

end Performed

end ServerState

end Stax.Server
