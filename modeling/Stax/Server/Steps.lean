/-
# Stax.Server.Steps — which jobs have which effects.

What the steps of the jobs do to the shared state is listed once, by effect: a section is taken, a
store is written and a drainer is woken by the jobs named here and by no others.  An event is written
after it was checked: what is between its check and its write has been checked for the run that was
active then.
-/
import Stax.Server.Jobs

namespace Stax.Server

open Stax.Lib Stax.Lib.Machine

/-! ## What jobs become -/

theorem Starter.afterBegin_cases (run : RunId) (starter : Starter) :
    starter.afterBegin run = .spawnShade run ∨ starter.afterBegin run = .pendTerminal run ∨
      starter.afterBegin run = .startIngest run := by
  cases starter with
  | attach => exact Or.inl rfl
  | launch => exact Or.inr (Or.inl rfl)
  | ingest => exact Or.inr (Or.inr rfl)

/-- A call in `begin_run` goes on in it, is refused, or returns from it; it spawns nothing. -/
theorem BeginPhase.next_cases (cache : Option HostCache) (s : ServerState) (starter : Starter)
    (label : String) (now : ℕ) (phase : BeginPhase) :
    (phase.next cache s starter label now).fork = none ∧
      ((∃ phase', (phase.next cache s starter label now).job = .begin starter label phase') ∨
        (∃ error, (phase.next cache s starter label now).job = .refused error) ∨
        ∃ run, phase = .attachSharedCache run ∧
          (phase.next cache s starter label now).job = starter.afterBegin run) := by
  cases phase with
  | publish run =>
      simp only [BeginPhase.next]
      split_ifs with hactive
      · exact ⟨rfl, Or.inr (Or.inl ⟨_, rfl⟩)⟩
      · exact ⟨rfl, Or.inl ⟨_, rfl⟩⟩
  | attachSharedCache run => exact ⟨rfl, Or.inr (Or.inr ⟨run, rfl, rfl⟩)⟩
  | _ => exact ⟨rfl, Or.inl ⟨_, rfl⟩⟩

theorem drain_cases (run cancel : RunId) (events : List IngestEvent) :
    drain run cancel events = .drainer run cancel (.waiting false) ∨
      ∃ e rest, drain run cancel events = .drainer run cancel (.applying (.event e) rest) := by
  cases events with
  | nil => exact Or.inl rfl
  | cons e rest => exact Or.inr ⟨e, rest, rfl⟩

theorem Reaper.done_cases (reaper : Reaper) :
    reaper.done = .finished ∨ ∃ snapshot, reaper = .stopActive snapshot ∧
      reaper.done = .stopped snapshot := by
  cases reaper with
  | finalizeRun run => exact Or.inl rfl
  | stopActive snapshot => exact Or.inr ⟨snapshot, rfl, rfl⟩

theorem Wait.orTimeout_cases (call : Wait) (active : RunSummary) (now : ℕ) :
    call.orTimeout active now = .wait call ∨
      (call.deadline.isSome ∧ call.orTimeout active now = .waited call (.timedOut active)) := by
  unfold Wait.orTimeout
  split_ifs with hdeadline
  · refine Or.inr ⟨?_, rfl⟩
    cases hsome : call.deadline with
    | none => simp [hsome] at hdeadline
    | some deadline => rfl
  · exact Or.inl rfl

/-- A poll answers, looks for a symbol, or waits on. -/
theorem Wait.poll_cases (inner : Inner) (call : Wait) (now later : ℕ) :
    call.poll inner now later = .wait call ∨
      (∃ active needle, inner.active = some active ∧ call.condition = .untilSymbolSeen needle ∧
        call.poll inner now later = .waitSymbol call active needle) ∨
      (inner.active = none ∧ call.poll inner now later = .waited call .noActiveRun) ∨
      ∃ active, inner.active = some active ∧
        ((active.state = .stopped ∧ call.poll inner now later = .waited call (.stopped active)) ∨
          (call.condition ≠ .untilStopped ∧
            call.poll inner now later = .waited call (.conditionMet active)) ∨
          (call.deadline.isSome ∧
            call.poll inner now later = .waited call (.timedOut active))) := by
  cases hactive : inner.active with
  | none => exact Or.inr (Or.inr (Or.inl ⟨rfl, by rw [Wait.poll, hactive]⟩))
  | some active =>
      by_cases hstopped : active.state = .stopped
      · refine Or.inr (Or.inr (Or.inr ⟨active, rfl, Or.inl ⟨hstopped, ?_⟩⟩))
        simp only [Wait.poll, hactive]
        exact if_pos hstopped
      · have hor := Wait.orTimeout_cases call active later
        cases hcondition : call.condition <;> grind [Wait.poll, Wait.met]

/-! ## Events under way -/

namespace Job

/-- What the job is applying, and for which run. -/
def applying : Job → Option (RunId × Applying)
  | .drainer run _ (.applying todo _) => some (run, todo)
  | .publishing run todo _ => some (run, todo)
  | _ => none

/-- What a reliable call has still to apply is not checked yet. -/
def RestUnchecked : Job → Prop
  | .publishing _ _ rest => ∀ todo ∈ rest, ¬ todo.Pending
  | _ => True

theorem applying_wake (cancel : RunId) (job : Job) : (job.wake cancel).applying = job.applying := by
  unfold wake
  split <;> rfl

theorem restUnchecked_wake {cancel : RunId} {job : Job} (h : job.RestUnchecked) :
    (job.wake cancel).RestUnchecked := by
  unfold wake
  split
  · trivial
  · exact h

end Job

/-- A check: the event is written next if it succeeds. -/
inductive Applying.Checks : Applying → Applying → Prop
  | event (e : IngestEvent) : Checks (.event e) e.afterCheck
  | load (b : WireBinaryLoaded) : Checks (.load b) (.insert b.loaded)
  | attachTarget (pid : Pid) (taskPort : UInt64) :
      Checks (.attachTarget pid taskPort) (.setTarget pid taskPort)

theorem Inner.isActive_of_ensureActiveRun {inner : Inner} {run : RunId}
    (h : inner.ensureActiveRun run = .ok ()) : inner.IsActive run := by
  unfold Inner.ensureActiveRun at h
  split at h
  · simp at h
  · rename_i active hactive
    split_ifs at h with hid
    exact ⟨active, hactive, hid⟩

/-- What is between check and write was checked in the step before. -/
theorem Applying.checks_of_pending {todo todo' : Applying} {inner : Inner} {run : RunId}
    (h : (todo.next inner run).2 = .more todo') (hpending : todo'.Pending) :
    todo.Checks todo' ∧ inner.IsActive run := by
  cases todo with
  | event e =>
      simp only [Applying.next] at h
      split_ifs at h with hactive
      obtain rfl := Progress.more.inj h
      exact ⟨.event e, hactive⟩
  | load b =>
      simp only [Applying.next] at h
      split at h
      · rename_i hactive
        obtain rfl := Progress.more.inj h
        exact ⟨.load b, Inner.isActive_of_ensureActiveRun hactive⟩
      · simp at h
  | attachTarget pid taskPort =>
      simp only [Applying.next] at h
      split at h
      · rename_i hactive
        obtain rfl := Progress.more.inj h
        exact ⟨.attachTarget pid taskPort, Inner.isActive_of_ensureActiveRun hactive⟩
      · simp at h
  | unload baseAvma =>
      simp only [Applying.next] at h
      split at h
      · obtain rfl := Progress.more.inj h
        cases hpending
      · simp at h
  | record w =>
      obtain rfl := Progress.more.inj h
      cases hpending
  | insert b =>
      obtain rfl := Progress.more.inj h
      cases hpending
  | setTarget pid taskPort =>
      obtain rfl := Progress.more.inj h
      cases hpending
  | bump => simp [Applying.next] at h

/-! ## Who does what -/

/-- The job whose step takes the section. -/
def Section.From (s : ServerState) (job : Job) (choice : Choice) : Section → Prop
  | .registerShade _ _ | .shadeSessionClosed _ => False
  | .storeChild child =>
    ∃ run, job = .spawnShade run ∧ choice = .spawnOk child.pid ∧ child.child = s.nextCell run
  | .watchdogClear pid => job = .watchdog (some pid)
  | .shadeChildExited pid => ∃ run reason, job = .childExited run pid reason
  | .detachIngest run => ∃ cancel reason, job = .drainer run cancel (.detaching reason)
  | .clearStale => ∃ starter label, job = .begin starter label .clearStale
  | .discardStartFailed run message now => job = .discardRun run message ∧ choice = .go now
  | .stopActive now => job = .markStopped ∧ choice = .go now
  | .finalizeRun run reason now => job = .finalizeRun run reason ∧ choice = .go now
  | .countEvent run tally =>
    s.inner.IsActive run ∧ ∃ e, job.applying = some (run, .event e) ∧ e.tally = tally
  | .attachTarget run pid =>
    s.inner.IsActive run ∧ ∃ taskPort, job.applying = some (run, .attachTarget pid taskPort)
  | .setIngestAttached => True
  | .takeChild => ∃ reaper, job = .takeChild reaper

/-- The job whose step has the effect. -/
def Effect.From (s : ServerState) (job : Job) (choice : Choice) : Effect → Prop
  | .section part => part.From s job choice
  | .publish summary =>
    s.inner.active = Option.none ∧ summary.state = .recording ∧
      ∃ starter label, job = .begin starter label (.publish summary.id)
  | .record run w => job.applying = some (run, .record w)
  | .resetAggregator => ∃ starter label run, job = .begin starter label (.resetAggregator run)
  | .register run w =>
    (∃ starter label, job = .begin starter label (.attachSharedCache run) ∧ ¬ w.IsIngest) ∨
      (∃ b, w = .insert b ∧ job.applying = some (run, .insert b)) ∨
      ∃ pid taskPort, w = .setTarget pid taskPort ∧
        job.applying = some (run, .setTarget pid taskPort)
  | .resetBinaries => ∃ starter label run, job = .begin starter label (.resetBinaries run)
  | .notifyWaiters cancel => ∃ snapshot, job = .notify snapshot (some cancel)
  | .storeChild pid run =>
    (Section.storeChild { pid := pid, child := s.nextCell run }).From s job choice
  | .setPaused _ => False
  | _ => True

variable {cache : Option HostCache} {s : ServerState} {job : Job} {choice : Choice} {m : Move}

theorem Effect.from_begin (starter : Starter) (label : String) (phase : BeginPhase) (now : ℕ) :
    (phase.next cache s starter label now).effect.From s (.begin starter label phase) choice := by
  cases phase with
  | clearStale => exact ⟨starter, label, rfl⟩
  | publish run =>
      simp only [BeginPhase.next]
      split_ifs with hactive
      · trivial
      · exact ⟨by simpa using hactive, rfl, starter, label, rfl⟩
  | resetAggregator run => exact ⟨starter, label, run, rfl⟩
  | resetBinaries run => exact ⟨starter, label, run, rfl⟩
  | attachSharedCache run =>
      cases cache with
      | none => trivial
      | some host => exact Or.inl ⟨starter, label, rfl, id⟩
  | _ => trivial

/-- The effects of applying an event, each with the section it comes from. -/
theorem Effect.from_applying {todo : Applying} {run : RunId}
    (hjob : job.applying = some (run, todo)) :
    (todo.next s.inner run).1.From s job choice := by
  cases todo with
  | event e =>
      simp only [Applying.next]
      split_ifs with hactive
      · exact ⟨hactive, e, hjob, rfl⟩
      · trivial
  | record w => exact hjob
  | load b =>
      simp only [Applying.next]
      split <;> trivial
  | insert b => exact Or.inr (Or.inl ⟨b, rfl, hjob⟩)
  | unload baseAvma =>
      simp only [Applying.next]
      split <;> trivial
  | attachTarget pid taskPort =>
      simp only [Applying.next]
      split
      · rename_i hactive
        exact ⟨Inner.isActive_of_ensureActiveRun hactive, taskPort, hjob⟩
      · trivial
  | setTarget pid taskPort => exact Or.inr (Or.inr ⟨pid, taskPort, rfl, hjob⟩)
  | bump => trivial

/-- A step's effect is one that its job has. -/
theorem Job.effect_next (h : job.next cache s choice = some m) : m.effect.From s job choice := by
  fun_cases Job.next cache s job choice
  case case1 starter label phase now =>
    obtain rfl := Option.some_inj.mp h
    exact Effect.from_begin starter label phase now
  all_goals
    simp only [Job.next, reduceCtorEq, Option.some_inj, if_true, if_false, *] at h <;>
      grind [Effect.From, Section.From, Effect.from_applying, Job.applying]

namespace ServerState

/-- The section is what the action does. -/
def Takes (s : ServerState) (part : Section) : Action → Prop
  | .step t choice => ∃ job, s.jobs[t]? = some job ∧ part.From s job choice
  | .registerShade info commands => part = .registerShade info commands
  | .shadeSessionClosed shadePid => part = .shadeSessionClosed shadePid
  | _ => False

/-- The registry changes with a section or with the publication of a run, and no other way. -/
theorem inner_step {s' : ServerState} {action : Action} (h : step cache s action = some s') :
    (s'.begun = s.begun ∧
        (s'.inner = s.inner ∨ ∃ part, s.Takes part action ∧ s'.inner = part.run s.inner)) ∨
      ∃ summary t choice job, action = .step t choice ∧ s.jobs[t]? = some job ∧
        (Effect.publish summary).From s job choice ∧ s'.inner = s.inner.publish summary ∧
        s'.begun = summary.id :: s.begun := by
  rcases step_cases h with ⟨c, -, rfl⟩ | ⟨t, choice, job, m, rfl, ht, hm, rfl⟩ |
    ⟨effect, heffect, rfl⟩
  · exact Or.inl ⟨rfl, Or.inl rfl⟩
  · have hfrom := Job.effect_next hm
    have hinner : (s.move t m).inner = (s.apply m.effect).inner := rfl
    have hbegun : (s.move t m).begun = (s.apply m.effect).begun := rfl
    rw [hinner, hbegun]
    cases heffect : m.effect with
    | «section» part =>
        rw [heffect] at hfrom
        exact Or.inl ⟨rfl, Or.inr ⟨part, ⟨job, ht, hfrom⟩, rfl⟩⟩
    | publish summary =>
        rw [heffect] at hfrom
        exact Or.inr ⟨summary, t, choice, job, rfl, ht, hfrom, rfl, rfl⟩
    | storeChild pid run =>
        rw [heffect] at hfrom
        exact Or.inl ⟨rfl, Or.inr ⟨.storeChild { pid := pid, child := s.nextCell run },
          ⟨job, ht, hfrom⟩, rfl⟩⟩
    | _ => exact Or.inl ⟨rfl, Or.inl rfl⟩
  · cases action with
    | registerShade info commands =>
        obtain rfl := Option.some_inj.mp heffect
        exact Or.inl ⟨rfl, Or.inr ⟨_, rfl, rfl⟩⟩
    | shadeSessionClosed shadePid =>
        obtain rfl := Option.some_inj.mp heffect
        exact Or.inl ⟨rfl, Or.inr ⟨_, rfl, rfl⟩⟩
    | attachTerminal run =>
        obtain rfl := Option.some_inj.mp heffect
        exact Or.inl ⟨rfl, Or.inl rfl⟩
    | setPaused paused =>
        obtain rfl := Option.some_inj.mp heffect
        exact Or.inl ⟨rfl, Or.inl rfl⟩
    | _ => simp [effectOf] at heffect

end ServerState

/-! ## Checked and not yet written -/

theorem not_pending_drain {run cancel : RunId} {events : List IngestEvent} {q : RunId}
    {todo : Applying} (h : (drain run cancel events).applying = some (q, todo)) :
    ¬ todo.Pending := by
  intro hpending
  cases events with
  | nil => simp [drain, Job.applying] at h
  | cons e events =>
      obtain ⟨-, rfl⟩ : run = q ∧ .event e = todo := by simpa [drain, Job.applying] using h
      cases hpending

theorem not_pending_publishAll {run q : RunId} {todos : List Applying} {todo : Applying}
    (htodos : ∀ todo ∈ todos, ¬ todo.Pending)
    (h : (publishAll run todos).applying = some (q, todo)) : ¬ todo.Pending := by
  cases todos with
  | nil => simp [publishAll, Job.applying] at h
  | cons first rest =>
      obtain ⟨-, rfl⟩ : run = q ∧ first = todo := by simpa [publishAll, Job.applying] using h
      exact htodos first List.mem_cons_self

theorem restUnchecked_publishAll {run : RunId} {todos : List Applying}
    (htodos : ∀ todo ∈ todos, ¬ todo.Pending) : (publishAll run todos).RestUnchecked := by
  cases todos with
  | nil => trivial
  | cons first rest => exact fun todo hmem => htodos todo (List.mem_cons_of_mem _ hmem)

theorem applying_begin (starter : Starter) (label : String) (phase : BeginPhase) (now : ℕ) :
    (phase.next cache s starter label now).job.applying = none := by
  cases phase with
  | publish run =>
      simp only [BeginPhase.next]
      split_ifs <;> rfl
  | attachSharedCache run => cases starter <;> rfl
  | _ => rfl

namespace Job

/-- A job that has checked an event has checked it in this step, for the run active then. -/
theorem applying_next {run : RunId} {todo' : Applying} (h : job.next cache s choice = some m)
    (hrest : job.RestUnchecked) (happlying : m.job.applying = some (run, todo'))
    (hpending : todo'.Pending) :
    ∃ todo, job.applying = some (run, todo) ∧ todo.Checks todo' ∧ s.inner.IsActive run := by
  fun_cases Job.next cache s job choice
  case case1 starter label phase now =>
    obtain rfl := Option.some_inj.mp h
    rw [applying_begin] at happlying
    exact absurd happlying (by simp)
  all_goals
    simp only [Job.next, reduceCtorEq, Option.some_inj, if_true, if_false, *] at h <;>
      grind [applying, RestUnchecked, Applying.checks_of_pending, not_pending_drain,
        Reaper.done_cases, Wait.poll_cases, Wait.orTimeout_cases]

theorem restUnchecked_next (h : job.next cache s choice = some m) (hrest : job.RestUnchecked) :
    m.job.RestUnchecked := by
  fun_cases Job.next cache s job choice
  all_goals
    simp only [Job.next, reduceCtorEq, Option.some_inj, if_true, if_false, *] at h <;>
      grind [RestUnchecked, drain_cases, Reaper.done_cases, Wait.poll_cases,
        Wait.orTimeout_cases, BeginPhase.next_cases, Starter.afterBegin_cases]

/-- A call that is in `begin_run` was in it before. -/
theorem begin_of_next {starter : Starter} {label : String} {phase' : BeginPhase}
    (h : job.next cache s choice = some m) (hjob : m.job = .begin starter label phase') :
    ∃ phase now, job = .begin starter label phase ∧ m = phase.next cache s starter label now := by
  fun_cases Job.next cache s job choice
  case case1 starter' label' phase now =>
    obtain rfl := Option.some_inj.mp h
    refine ⟨phase, now, ?_, ?_⟩ <;>
      cases phase with
      | publish run =>
          simp only [BeginPhase.next] at hjob ⊢
          split_ifs at hjob ⊢
          obtain ⟨rfl, rfl, -⟩ := Job.begin.inj hjob
          rfl
      | attachSharedCache run => cases starter' <;> simp [BeginPhase.next, Starter.afterBegin] at hjob
      | _ =>
          obtain ⟨rfl, rfl, -⟩ := Job.begin.inj hjob
          rfl
  all_goals
    simp only [Job.next, reduceCtorEq, Option.some_inj, if_true, if_false, *] at h <;>
      grind [drain_cases, Reaper.done_cases, Wait.poll_cases, Wait.orTimeout_cases]

/-- What a job spawns has nothing to apply yet. -/
theorem applying_fork {job' : Job} (h : job.next cache s choice = some m)
    (hfork : m.fork = some job') : job'.applying = none ∧ job'.RestUnchecked := by
  fun_cases Job.next cache s job choice
  all_goals
    simp only [Job.next, reduceCtorEq, Option.some_inj, if_true, if_false, *] at h <;>
      grind [applying, RestUnchecked, BeginPhase.next_cases]

end Job

/-- A call starts with nothing checked. -/
theorem Call.start_unchecked (c : Call) (inner : Inner) :
    (c.start inner).RestUnchecked ∧
      ∀ run todo, (c.start inner).applying = some (run, todo) → ¬ todo.Pending := by
  cases c with
  | publishTargetAttached run pid taskPort =>
      have htodos : ∀ todo ∈ [Applying.attachTarget pid taskPort], ¬ todo.Pending := by
        rintro todo hmem ⟨⟩ <;> simp at hmem
      exact ⟨restUnchecked_publishAll htodos, fun _ _ h => not_pending_publishAll htodos h⟩
  | publishBinariesLoaded run binaries =>
      have htodos : ∀ todo ∈ binaries.map Applying.load, ¬ todo.Pending := by
        rintro todo hmem ⟨⟩ <;> simp at hmem
      exact ⟨restUnchecked_publishAll htodos, fun _ _ h => not_pending_publishAll htodos h⟩
  | publishBinariesUnloaded run binaries =>
      have htodos : ∀ todo ∈ binaries.map (fun b => Applying.unload b.baseAvma),
          ¬ todo.Pending := by
        rintro todo hmem ⟨⟩ <;> simp at hmem
      exact ⟨restUnchecked_publishAll htodos, fun _ _ h => not_pending_publishAll htodos h⟩
  | _ => exact ⟨trivial, fun _ _ h => absurd h (by simp [Call.start, Job.applying])⟩

namespace ServerState

/-- What reliable calls have still to apply stays unchecked. -/
theorem restUnchecked_step {s' : ServerState} {action : Action}
    (h : ∀ job ∈ s.jobs, job.RestUnchecked) (hstep : step cache s action = some s') :
    ∀ job ∈ s'.jobs, job.RestUnchecked := by
  rcases step_cases hstep with ⟨c, -, rfl⟩ | ⟨t, choice, job, m, -, ht, hm, rfl⟩ |
    ⟨effect, -, rfl⟩
  · intro job hjob
    rcases List.mem_append.mp hjob with hjob | hjob
    · exact h job hjob
    · rw [List.mem_singleton.mp hjob]
      exact (c.start_unchecked s.inner).1
  · exact forall_jobs_move (fun _ _ _ hjob => Job.restUnchecked_wake hjob) h
      (Job.restUnchecked_next hm (h job (List.mem_of_getElem? ht)))
      fun job' hfork => (Job.applying_fork hm hfork).2
  · exact forall_jobs_apply (fun _ _ _ hjob => Job.restUnchecked_wake hjob) h

end ServerState

end Stax.Server
