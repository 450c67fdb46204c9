/-
# Stax.Server.Jobs — the server as the calls and tasks that are under way.

A job is a call a client has made, or a task the server has spawned, with where it stands.  A step
of a job is one section under one lock, one atomic operation, or one thing it waits for; what it does
to the state that the jobs share is its effect.  Jobs take their steps in any order, and what they
depend on outside (the clock, what a channel delivers, whether a process could be spawned and when
it exits) is chosen with the step.

`notify_waiters` wakes the drainers that wait at that moment and leaves nothing for later ones.  A
drainer that is woken takes the cancel branch, as its `select!` is biased.
-/
import Stax.Server.Ingest
import Stax.Lib.Machine

namespace Stax.Server

open Stax.Live (Addr)
open Stax.Binaries (LoadedBinary)
open Stax.Lib

/-! ## Jobs -/

/-- Who calls `begin_run`: `start_attach`, `start_launch` or `RunIngest::start_run`. -/
inductive Starter
  | attach
  | launch
  | ingest
  deriving DecidableEq, Repr

/-- The section of `begin_run` that is next. -/
inductive BeginPhase
  | clearStale
  | reapStale (child : ShadeChild)
  | fetchId
  | publish (run : RunId)
  | resetAggregator (run : RunId)
  | resetBinaries (run : RunId)
  | bump (run : RunId)
  | attachSharedCache (run : RunId)
  deriving DecidableEq, Repr

/-- Where an ingest drainer stands. -/
inductive DrainerPhase
  | spawned
  | waiting (notified : Bool)
  | applying (todo : Applying) (rest : List IngestEvent)
  | detaching (reason : String)
  deriving DecidableEq

/-- Who takes the shade's child: `finalize_run` or `stop_active`. -/
inductive Reaper
  | finalizeRun (run : RunId)
  | stopActive (snapshot : RunSummary)
  deriving DecidableEq, Repr

/-- The run whose child is taken. -/
def Reaper.run : Reaper → RunId
  | .finalizeRun run => run
  | .stopActive snapshot => snapshot.id

/-- Agent-side wait condition. -/
inductive WaitCondition
  | untilStopped
  | forSamples (count : ℕ)
  | forSeconds (seconds : ℕ)
  | untilSymbolSeen (needle : String)
  deriving DecidableEq, Repr

/-- How `wait_active` answers. -/
inductive WaitOutcome
  | conditionMet (summary : RunSummary)
  | stopped (summary : RunSummary)
  | timedOut (summary : RunSummary)
  | noActiveRun
  deriving DecidableEq, Repr

/-- A call of `wait_active`, with its deadlines in milliseconds and the run that was active. -/
structure Wait where
  condition : WaitCondition
  timeout : Option ℕ
  deadline : Option ℕ
  conditionDeadline : Option ℕ
  calledOn : Option RunId
  deriving DecidableEq, Repr

/-- The errors that the calls of run control answer with. -/
inductive CallError
  | noActiveRun
  | internal (message : String)
  deriving DecidableEq, Repr

/-- A task of the server, with where it stands between two of its sections: a call in progress, a
drainer, a waiter on a process, or the watchdog. -/
inductive Job
  | begin (starter : Starter) (label : String) (phase : BeginPhase)
  | pendTerminal (run : RunId)
  | spawnShade (run : RunId)
  | discardTerminal (run : RunId) (message : String)
  | discardRun (run : RunId) (message : String)
  | startIngest (run : RunId)
  | started (run : RunId)
  | startFailed (run : RunId) (message : String)
  | cancelForRun (run : RunId)
  | attachIngest (run : RunId) (cancel : RunId)
  | drainer (run : RunId) (cancel : RunId) (phase : DrainerPhase)
  | publishing (run : RunId) (todo : Applying) (rest : List Applying)
  | watchChild (run : RunId) (child : ShadeChild)
  | childExited (run : RunId) (shadePid : Pid) (reason : StopReason)
  | finalizeTerminal (run : RunId) (reason : StopReason)
  | finalizeRun (run : RunId) (reason : StopReason)
  | takeChild (reaper : Reaper)
  | reap (reaper : Reaper) (child : ShadeChild)
  | markStopped
  | sendStop (snapshot : RunSummary) (cancel : Option RunId) (commands : Option CommandChannel)
  | notify (snapshot : RunSummary) (cancel : Option RunId)
  | stopped (snapshot : RunSummary)
  | wait (call : Wait)
  | waitSymbol (call : Wait) (active : RunSummary) (needle : String)
  | waited (call : Wait) (outcome : WaitOutcome)
  | watchdog (seen : Option Pid)
  | refused (error : CallError)
  | finished
  deriving DecidableEq

/-- A drainer that waits for this handle is woken. -/
def Job.wake (cancel : RunId) : Job → Job
  | .drainer run handle (.waiting notified) =>
    .drainer run handle (.waiting (notified || handle = cancel))
  | job => job

/-! ## The state the jobs share -/

/-- What the tasks of the server share, with the tasks themselves. -/
structure ServerState where
  inner : Inner := {}
  aggregator : AggregatorLedger := Ledger.blank RunId {} LiveAggregator.apply
  binaries : RegistryLedger := Ledger.blank RunId .new applyWrite
  revision : ℕ := 1
  paused : Bool := false
  nextRunId : RunId := 1
  /-- The runs with a terminal that no shade has attached to yet. -/
  pendingTerminals : List RunId := []
  /-- The cells that hold a shade's process. -/
  children : List ChildCell := []
  spawned : ℕ := 0
  /-- The runs for which `begin_run` has succeeded, the latest first. -/
  begun : List RunId := []
  jobs : List Job := []

/-- What a step does to the shared state. -/
inductive Effect
  | none
  | section (part : Section)
  | fetchRunId
  | publish (summary : RunSummary)
  | record (run : RunId) (w : AggregatorWrite)
  | resetAggregator
  | register (run : RunId) (w : RegistryWrite)
  | resetBinaries
  | bumpRevision
  | setPaused (paused : Bool)
  | pendTerminal (run : RunId)
  | removeTerminal (run : RunId)
  | notifyWaiters (cancel : RunId)
  | storeChild (pid : Pid) (run : RunId)
  | emptyCell (cell : ChildCell)

namespace ServerState

/-- The cell of the next shade's process. -/
def nextCell (s : ServerState) (run : RunId) : ChildCell := { serial := s.spawned, spawnedFor := run }

/-- The shared state after an effect, all at one moment. -/
def apply (s : ServerState) : Effect → ServerState
  | .none => s
  | .section part => { s with inner := part.run s.inner }
  | .fetchRunId => { s with nextRunId := s.nextRunId + 1 }
  | .publish summary =>
    { s with inner := s.inner.publish summary, begun := summary.id :: s.begun }
  | .record run w => { s with aggregator := s.aggregator.write run w }
  | .resetAggregator => { s with aggregator := Ledger.blank RunId {} LiveAggregator.apply }
  | .register run w => { s with binaries := s.binaries.write run w }
  | .resetBinaries => { s with binaries := Ledger.blank RunId .new applyWrite }
  | .bumpRevision => { s with revision := s.revision + 1 }
  | .setPaused paused => { s with paused := paused }
  | .pendTerminal run => { s with pendingTerminals := run :: s.pendingTerminals }
  | .removeTerminal run => { s with pendingTerminals := s.pendingTerminals.filter (· ≠ run) }
  | .notifyWaiters cancel => { s with jobs := s.jobs.map (Job.wake cancel) }
  | .storeChild pid run =>
    { s with
      inner := s.inner.storeChild { pid := pid, child := s.nextCell run }
      children := s.nextCell run :: s.children
      spawned := s.spawned + 1 }
  | .emptyCell cell => { s with children := s.children.filter (· ≠ cell) }

end ServerState

/-! ## Steps -/

/-- What a step depends on outside. -/
inductive Choice
  | go (now : ℕ)
  | spawnOk (pid : Pid)
  | spawnErr (message : String)
  | cancelled
  | received (events : List IngestEvent)
  | channelClosed
  | failed
  | childExit (success : Bool) (status : String)
  | poll (now later : ℕ)
  | pidAlive
  | pidDead

/-- The effect of a step, what becomes of the job, and the job it spawns. -/
structure Move where
  effect : Effect := .none
  job : Job
  fork : Option Job := none

/-- How an event is carried on: with what is left, to the end, or refused. -/
inductive Progress
  | more (todo : Applying)
  | done
  | refused (message : String)

/-- The next section of applying an event. Whether the run is still active is asked in a section of
its own, and not again where something is written. -/
def Applying.next (inner : Inner) (run : RunId) : Applying → Effect × Progress
  | .event e =>
    if inner.IsActive run then (.section (.countEvent run e.tally), .more e.afterCheck)
    else (.none, .done)
  | .record w => (.record run w, .more .bump)
  | .load b =>
    match inner.ensureActiveRun run with
    | .ok () => (.none, .more (.insert b.loaded))
    | .error message => (.none, .refused message)
  | .insert b => (.register run (.insert b), .more .bump)
  | .unload _ =>
    match inner.ensureActiveRun run with
    | .ok () => (.none, .more .bump)
    | .error message => (.none, .refused message)
  | .attachTarget pid taskPort =>
    match inner.ensureActiveRun run with
    | .ok () => (.section (.attachTarget run pid), .more (.setTarget pid taskPort))
    | .error message => (.none, .refused message)
  | .setTarget pid taskPort => (.register run (.setTarget pid taskPort), .more .bump)
  | .bump => (.bumpRevision, .done)

/-- A drainer goes on with the next event of its batch, or waits again. -/
def drain (run cancel : RunId) : List IngestEvent → Job
  | [] => .drainer run cancel (.waiting false)
  | e :: rest => .drainer run cancel (.applying (.event e) rest)

/-- What `begin_run` is called for, once it has returned. -/
def Starter.afterBegin (run : RunId) : Starter → Job
  | .attach => .spawnShade run
  | .launch => .pendTerminal run
  | .ingest => .startIngest run

/-- The next section of `begin_run`, from clearing a stale run to publishing the new one. -/
def BeginPhase.next (cache : Option HostCache) (s : ServerState) (starter : Starter)
    (label : String) (now : ℕ) : BeginPhase → Move
  | .clearStale =>
    { effect := .section .clearStale
      job := .begin starter label (match s.inner.staleChild with
        | some child => .reapStale child
        | none => .fetchId) }
  | .reapStale child => { effect := .emptyCell child.child, job := .begin starter label .fetchId }
  | .fetchId => { effect := .fetchRunId, job := .begin starter label (.publish s.nextRunId) }
  | .publish run =>
    if s.inner.active.isSome then
      { job := .refused (.internal ("another run is already active; " ++
          "call RunControl::stop_active or wait_active first")) }
    else
      { effect := .publish (.recording run label now)
        job := .begin starter label (.resetAggregator run) }
  | .resetAggregator run =>
    { effect := .resetAggregator, job := .begin starter label (.resetBinaries run) }
  | .resetBinaries run => { effect := .resetBinaries, job := .begin starter label (.bump run) }
  | .bump run => { effect := .bumpRevision, job := .begin starter label (.attachSharedCache run) }
  | .attachSharedCache run =>
    { effect := match cache with
        | some host => .register run (.attachSharedCache host)
        | none => .none
      job := starter.afterBegin run }

/-- How `shade_child_exited` explains the end of a run. -/
def exitReason (success : Bool) (status : String) : StopReason :=
  if success then .targetExited else .recorderError ("stax-shade exited: " ++ status)

/-- What a reaper's job comes to. -/
def Reaper.done : Reaper → Job
  | .finalizeRun _ => .finished
  | .stopActive snapshot => .stopped snapshot

/-- The condition has come about. -/
def Wait.met (call : Wait) (active : RunSummary) (now : ℕ) : Bool :=
  match call.condition with
  | .untilStopped => false
  | .forSamples count => count ≤ active.petSamples
  | .forSeconds _ => call.conditionDeadline.any (· ≤ now)
  | .untilSymbolSeen _ => false

/-- The end of a poll whose condition has not come about. -/
def Wait.orTimeout (call : Wait) (active : RunSummary) (now : ℕ) : Job :=
  if call.deadline.any (· ≤ now) then .waited call (.timedOut active) else .wait call

/-- One poll of `wait_active`; a symbol is looked for in a section of its own. -/
def Wait.poll (inner : Inner) (call : Wait) (now later : ℕ) : Job :=
  match inner.active with
  | none => .waited call .noActiveRun
  | some active =>
    if active.state = .stopped then .waited call (.stopped active)
    else
      match call.condition with
      | .untilSymbolSeen needle => .waitSymbol call active needle
      | _ => if call.met active now then .waited call (.conditionMet active)
        else call.orTimeout active later

/-- The step of a job. -/
def Job.next (cache : Option HostCache) (s : ServerState) : Job → Choice → Option Move
  | .begin starter label phase, .go now => some (phase.next cache s starter label now)
  | .pendTerminal run, .go _ => some { effect := .pendTerminal run, job := .spawnShade run }
  | .spawnShade run, .spawnOk pid =>
    some
      { effect := .storeChild pid run
        job := .started run
        fork := some (.watchChild run { pid := pid, child := s.nextCell run }) }
  | .spawnShade run, .spawnErr message => some { job := .discardTerminal run message }
  | .discardTerminal run message, .go _ =>
    some { effect := .removeTerminal run, job := .discardRun run message }
  | .discardRun run message, .go now =>
    some
      { effect := .section (.discardStartFailed run message now)
        job := .startFailed run message }
  | .startIngest run, .go _ =>
    some
      { effect := .section .setIngestAttached
        job := .started run
        fork := some (.drainer run run .spawned) }
  | .cancelForRun run, .go _ =>
    match s.inner.cancelForRun run with
    | .ok cancel => some { job := .attachIngest run cancel }
    | .error message => some { job := .refused (.internal message) }
  | .attachIngest run cancel, .go _ =>
    some
      { effect := .section .setIngestAttached
        job := .finished
        fork := some (.drainer run cancel .spawned) }
  | .drainer run cancel .spawned, .go _ => some { job := .drainer run cancel (.waiting false) }
  | .drainer run _ (.waiting true), .cancelled => some { job := .finalizeTerminal run .userStop }
  | .drainer run cancel (.waiting false), .received events => some { job := drain run cancel events }
  | .drainer run cancel (.waiting false), .channelClosed =>
    some { job := .drainer run cancel (.detaching "channel_closed") }
  | .drainer run cancel (.waiting false), .failed =>
    some { job := .drainer run cancel (.detaching "recv_error") }
  | .drainer run cancel (.applying todo rest), .go _ =>
    match todo.next s.inner run with
    | (effect, .more todo) => some { effect := effect, job := .drainer run cancel (.applying todo rest) }
    | (effect, _) => some { effect := effect, job := drain run cancel rest }
  | .drainer run _ (.detaching _), .go _ =>
    some { effect := .section (.detachIngest run), job := .finished }
  | .publishing run todo rest, .go _ =>
    match todo.next s.inner run with
    | (effect, .more todo) => some { effect := effect, job := .publishing run todo rest }
    | (effect, .done) =>
      match rest with
      | [] => some { effect := effect, job := .finished }
      | todo :: rest => some { effect := effect, job := .publishing run todo rest }
    | (effect, .refused message) => some { effect := effect, job := .refused (.internal message) }
  | .watchChild run child, .childExit success status =>
    if child.child ∈ s.children then
      some
        { effect := .emptyCell child.child
          job := .childExited run child.pid (exitReason success status) }
    else none
  | .watchChild _ child, .go _ => if child.child ∈ s.children then none else some { job := .finished }
  | .watchChild _ _, .failed => some { job := .finished }
  | .childExited run shadePid reason, .go _ =>
    some
      { effect := .section (.shadeChildExited shadePid)
        job := if s.inner.IsActive run then .finalizeTerminal run reason else .finished }
  | .finalizeTerminal run reason, .go _ =>
    some { effect := .removeTerminal run, job := .finalizeRun run reason }
  | .finalizeRun run reason, .go now =>
    some
      { effect := .section (.finalizeRun run reason now)
        job := if s.inner.IsActive run then .takeChild (.finalizeRun run) else .finished }
  | .takeChild reaper, .go _ =>
    some
      { effect := .section .takeChild
        job := match s.inner.shadeChild with
          | some child => .reap reaper child
          | none => reaper.done }
  | .reap reaper child, .go _ => some { effect := .emptyCell child.child, job := reaper.done }
  | .markStopped, .go now =>
    match s.inner.active with
    | none => some { job := .refused .noActiveRun }
    | some active =>
      some
        { effect := .section (.stopActive now)
          job := .sendStop (active.stop .userStop now) s.inner.cancel s.inner.activeShadeCommands }
  | .sendStop snapshot cancel _, .go _ => some { job := .notify snapshot cancel }
  | .notify snapshot cancel, .go _ =>
    some
      { effect := match cancel with
          | some cancel => .notifyWaiters cancel
          | none => .none
        job := .takeChild (.stopActive snapshot) }
  | .wait call, .poll now later => some { job := call.poll s.inner now later }
  | .waitSymbol call active needle, .poll _ later =>
    some
      { job := if anySymbolContains s.binaries.contents needle then
          .waited call (.conditionMet active)
        else call.orTimeout active later }
  | .watchdog none, .go _ =>
    some { job := .watchdog (s.inner.activeShade.map ShadeInfo.shadePid) }
  | .watchdog (some _), .pidAlive => some { job := .watchdog none }
  | .watchdog (some pid), .pidDead =>
    some { effect := .section (.watchdogClear pid), job := .watchdog none }
  | _, _ => none

/-- The calls clients make, and the watchdog the server starts with. -/
inductive Call
  | startAttach (label : String)
  | startLaunch (label : String)
  | startRun (label : String)
  | attachRun (run : RunId)
  | publishTargetAttached (run : RunId) (pid : Pid) (taskPort : UInt64)
  | publishBinariesLoaded (run : RunId) (binaries : List WireBinaryLoaded)
  | publishBinariesUnloaded (run : RunId) (binaries : List WireBinaryUnloaded)
  | stopActive
  | waitActive (condition : WaitCondition) (timeoutMs : Option ℕ) (now : ℕ)
  | watchdog

/-- A call with several parts applies them one after the other. -/
def publishAll (run : RunId) : List Applying → Job
  | [] => .finished
  | todo :: rest => .publishing run todo rest

/-- A call of `wait_active`, its deadlines computed when it comes in. -/
def newWait (inner : Inner) (condition : WaitCondition) (timeoutMs : Option ℕ) (now : ℕ) : Wait :=
  { condition := condition
    timeout := timeoutMs
    deadline := timeoutMs.map (now + ·)
    conditionDeadline := match condition with
      | .forSeconds seconds => some (now + seconds * 1000)
      | _ => none
    calledOn := inner.active.map RunSummary.id }

/-- The task of a call, before its first section. -/
def Call.start (inner : Inner) : Call → Job
  | .startAttach label => .begin .attach label .clearStale
  | .startLaunch label => .begin .launch label .clearStale
  | .startRun label => .begin .ingest label .clearStale
  | .attachRun run => .cancelForRun run
  | .publishTargetAttached run pid taskPort => publishAll run [.attachTarget pid taskPort]
  | .publishBinariesLoaded run binaries => publishAll run (binaries.map .load)
  | .publishBinariesUnloaded run binaries => publishAll run (binaries.map (.unload ·.baseAvma))
  | .stopActive => .markStopped
  | .waitActive condition timeoutMs now => .wait (newWait inner condition timeoutMs now)
  | .watchdog => .watchdog none

/-- What can happen: a call, a step of a job, or one of the calls that are a single section. -/
inductive Action
  | call (c : Call)
  | step (job : ℕ) (choice : Choice)
  | registerShade (info : ShadeInfo) (commands : CommandChannel)
  | shadeSessionClosed (shadePid : Pid)
  | attachTerminal (run : RunId)
  | setPaused (paused : Bool)

namespace ServerState

/-- The state after a move of the `t`-th job. -/
def move (s : ServerState) (t : ℕ) (m : Move) : ServerState :=
  { s.apply m.effect with jobs := (s.apply m.effect).jobs.set t m.job ++ m.fork.toList }

/-- What an action does, where it can happen at all: the tasks take their steps in any order. -/
def step (cache : Option HostCache) (s : ServerState) : Action → Option ServerState
  | .call c => some { s with jobs := s.jobs ++ [c.start s.inner] }
  | .step t choice => do
    let job ← s.jobs[t]?
    let m ← job.next cache s choice
    some (s.move t m)
  | .registerShade info commands => some (s.apply (.section (.registerShade info commands)))
  | .shadeSessionClosed shadePid => some (s.apply (.section (.shadeSessionClosed shadePid)))
  | .attachTerminal run => some (s.apply (.removeTerminal run))
  | .setPaused paused => some (s.apply (.setPaused paused))

/-- The state the server starts in. -/
def initial : ServerState := {}

/-! ## What a step can do -/

/-- The effect of an action that is one section. -/
def effectOf : Action → Option Effect
  | .registerShade info commands => some (.section (.registerShade info commands))
  | .shadeSessionClosed shadePid => some (.section (.shadeSessionClosed shadePid))
  | .attachTerminal run => some (.removeTerminal run)
  | .setPaused paused => some (.setPaused paused)
  | .call _ | .step _ _ => none

section Steps

variable {cache : Option HostCache} {s s' : ServerState} {action : Action}

/-- A step adds a call, moves a job, or has an effect and nothing else. -/
theorem step_cases (h : step cache s action = some s') :
    (∃ c, action = .call c ∧ s' = { s with jobs := s.jobs ++ [c.start s.inner] }) ∨
      (∃ t choice job m, action = .step t choice ∧ s.jobs[t]? = some job ∧
        job.next cache s choice = some m ∧ s' = s.move t m) ∨
      ∃ effect, effectOf action = some effect ∧ s' = s.apply effect := by
  cases action with
  | call c => exact Or.inl ⟨c, rfl, (Option.some_inj.mp h).symm⟩
  | step t choice =>
      obtain ⟨job, hjob, h⟩ := Option.bind_eq_some_iff.mp h
      obtain ⟨m, hm, h⟩ := Option.bind_eq_some_iff.mp h
      exact Or.inr (Or.inl ⟨t, choice, job, m, rfl, hjob, hm, (Option.some_inj.mp h).symm⟩)
  | registerShade info commands => exact Or.inr (Or.inr ⟨_, rfl, (Option.some_inj.mp h).symm⟩)
  | shadeSessionClosed shadePid => exact Or.inr (Or.inr ⟨_, rfl, (Option.some_inj.mp h).symm⟩)
  | attachTerminal run => exact Or.inr (Or.inr ⟨_, rfl, (Option.some_inj.mp h).symm⟩)
  | setPaused paused => exact Or.inr (Or.inr ⟨_, rfl, (Option.some_inj.mp h).symm⟩)

/-- An effect leaves the jobs as they are, or wakes some of them. -/
theorem jobs_apply (s : ServerState) (effect : Effect) :
    (s.apply effect).jobs = s.jobs ∨
      ∃ cancel, effect = .notifyWaiters cancel ∧
        (s.apply effect).jobs = s.jobs.map (Job.wake cancel) := by
  cases effect with
  | notifyWaiters cancel => exact Or.inr ⟨cancel, rfl, rfl⟩
  | _ => exact Or.inl rfl

variable {p : Job → Prop} {t : ℕ} {m : Move}

theorem forall_jobs_apply {effect : Effect}
    (hwake : ∀ cancel job, effect = .notifyWaiters cancel → p job → p (job.wake cancel))
    (h : ∀ job ∈ s.jobs, p job) : ∀ job ∈ (s.apply effect).jobs, p job := by
  rcases jobs_apply s effect with hjobs | ⟨cancel, heffect, hjobs⟩
  · rw [hjobs]
    exact h
  · rw [hjobs, List.forall_mem_map]
    exact fun job hjob => hwake cancel job heffect (h job hjob)

/-- What holds of the jobs, woken or not, and of what a move puts there, holds after the move. -/
theorem forall_jobs_move
    (hwake : ∀ cancel job, m.effect = .notifyWaiters cancel → p job → p (job.wake cancel))
    (h : ∀ job ∈ s.jobs, p job) (hnew : p m.job) (hfork : ∀ job, m.fork = some job → p job) :
    ∀ job ∈ (s.move t m).jobs, p job := by
  intro job hjob
  rw [move, List.mem_append, Option.mem_toList] at hjob
  rcases hjob with hjob | hjob
  · rcases List.mem_or_eq_of_mem_set hjob with hjob | rfl
    · exact forall_jobs_apply hwake h job hjob
    · exact hnew
  · exact hfork job hjob

/-- What is gathered from the jobs changes with a move in the job's own part, and at the end. -/
theorem filterMap_jobs_move {β : Type*} {f : Job → Option β}
    (hwake : ∀ cancel job, f (Job.wake cancel job) = f job) {job : Job}
    (ht : s.jobs[t]? = some job) :
    ∃ before after, s.jobs.filterMap f = before ++ (f job).toList ++ after ∧
      (s.move t m).jobs.filterMap f =
        before ++ (f m.job).toList ++ after ++ (m.fork.bind f).toList := by
  obtain ⟨hlt, hget⟩ := List.getElem?_eq_some_iff.mp ht
  have hwoken (l : List Job) (cancel : RunId) :
      (l.map (Job.wake cancel)).filterMap f = l.filterMap f := by
    rw [List.filterMap_map]
    exact List.filterMap_congr fun job _ => hwake cancel job
  have hone (job : Job) : [job].filterMap f = (f job).toList := by
    cases hf : f job with
    | none => simp [hf]
    | some b => simp [hf]
  have hfork : m.fork.toList.filterMap f = (m.fork.bind f).toList := by
    cases m.fork with
    | none => rfl
    | some job => exact hone job
  refine ⟨(s.jobs.take t).filterMap f, (s.jobs.drop (t + 1)).filterMap f, ?_, ?_⟩
  · have hsplit : s.jobs = s.jobs.take t ++ [job] ++ s.jobs.drop (t + 1) := by
      rw [List.append_assoc, List.singleton_append, ← hget, List.cons_getElem_drop_succ,
        List.take_append_drop]
    conv_lhs => rw [hsplit]
    rw [List.filterMap_append, List.filterMap_append, hone]
  · have hset (l : List Job) (hl : t < l.length) :
        (l.set t m.job).filterMap f =
          (l.take t).filterMap f ++ (f m.job).toList ++ (l.drop (t + 1)).filterMap f := by
      rw [List.set_eq_take_append_cons_drop, if_pos hl, ← List.singleton_append,
        List.filterMap_append, List.filterMap_append, hone, List.append_assoc]
    rw [move, List.filterMap_append, hfork]
    rcases jobs_apply s m.effect with hjobs | ⟨cancel, -, hjobs⟩
    · rw [hjobs, hset _ hlt]
    · rw [hjobs, hset _ (by rwa [List.length_map]), ← List.map_take, ← List.map_drop, hwoken,
        hwoken]

theorem getElem?_apply {effect : Effect} {i : ℕ} {job : Job} (hi : s.jobs[i]? = some job) :
    (s.apply effect).jobs[i]? = some job ∨
      ∃ cancel, effect = .notifyWaiters cancel ∧
        (s.apply effect).jobs[i]? = some (job.wake cancel) := by
  rcases jobs_apply s effect with hjobs | ⟨cancel, heffect, hjobs⟩
  · exact Or.inl (hjobs ▸ hi)
  · refine Or.inr ⟨cancel, heffect, ?_⟩
    rw [hjobs, List.getElem?_map, hi]
    rfl

theorem getElem?_move_self {job : Job} (ht : s.jobs[t]? = some job) :
    (s.move t m).jobs[t]? = some m.job := by
  have hlt : t < (s.apply m.effect).jobs.length := by
    rcases @getElem?_apply s m.effect t job ht with h | ⟨cancel, -, h⟩
    · exact (List.getElem?_eq_some_iff.mp h).1
    · exact (List.getElem?_eq_some_iff.mp h).1
  rw [move, List.getElem?_append_left (by rwa [List.length_set]), List.getElem?_set_self hlt]

/-- The jobs that do not move stay, or are woken. -/
theorem getElem?_move_of_ne {i : ℕ} {job : Job} (hi : s.jobs[i]? = some job) (hne : t ≠ i) :
    (s.move t m).jobs[i]? = some job ∨
      ∃ cancel, m.effect = .notifyWaiters cancel ∧
        (s.move t m).jobs[i]? = some (job.wake cancel) := by
  have hkeep (job' : Job) (h : (s.apply m.effect).jobs[i]? = some job') :
      (s.move t m).jobs[i]? = some job' := by
    have hlt : i < (s.apply m.effect).jobs.length := (List.getElem?_eq_some_iff.mp h).1
    rw [move, List.getElem?_append_left (by rwa [List.length_set]), List.getElem?_set_ne hne, h]
  rcases @getElem?_apply s m.effect i job hi with h | ⟨cancel, heffect, h⟩
  · exact Or.inl (hkeep job h)
  · exact Or.inr ⟨cancel, heffect, hkeep _ h⟩

end Steps

end ServerState

end Stax.Server
