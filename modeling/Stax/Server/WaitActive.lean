/-
# Stax.Server.WaitActive — when a wait answers about the run it was called on.

`wait_active` looks at whatever run is active, at every poll anew.  Its answer is about the run it was
called on when that run is not put away while the call has yet to answer; then it never finds no run,
and a wait for the end without a timeout answers with the stopped run.
-/
import Stax.Server.RunRegistry

namespace Stax.Server

open Stax.Lib Stax.Lib.Machine

/-! ## Waits and the runs they were called on -/

/-- The run that an outcome is about. -/
def WaitOutcome.summary : WaitOutcome → Option RunSummary
  | .conditionMet summary | .stopped summary | .timedOut summary => some summary
  | .noActiveRun => none

namespace Job

/-- The run that a call of `wait_active` was called on and has yet to answer about. -/
def waitsFor : Job → Option RunId
  | .wait call | .waitSymbol call _ _ => call.calledOn
  | _ => none

/-- The run that the job's section puts away. -/
def putsAway (inner : Inner) : Job → Option RunId
  | .begin _ _ .clearStale =>
    inner.active.bind fun active => if active.state = .stopped then some active.id else none
  | .finalizeRun run _ | .discardRun run _ => if inner.IsActive run then some run else none
  | _ => none

end Job

/-- A run is put away when no call that was made on it is still waiting. -/
def Awaited (s : ServerState) : Action → Prop
  | .step t _ =>
    ∀ job ∈ s.jobs[t]?, ∀ run ∈ job.putsAway s.inner, ∀ other ∈ s.jobs, other.waitsFor ≠ some run
  | _ => True

instance (s : ServerState) (action : Action) : Decidable (Awaited s action) :=
  match action with
  | .step t _ =>
    inferInstanceAs (Decidable (∀ job ∈ s.jobs[t]?, ∀ run ∈ job.putsAway s.inner,
      ∀ other ∈ s.jobs, other.waitsFor ≠ some run))
  | .call _ | .registerShade _ _ | .shadeSessionClosed _ | .attachTerminal _ | .setPaused _ =>
    isTrue trivial

variable {cache : Option HostCache} {s s' : ServerState} {action : Action}

/-- What a call of `wait_active` answers is about the run it was called on, and a wait for the end
without a timeout answers that the run is stopped. -/
def Wait.Answered (call : Wait) (outcome : WaitOutcome) : Prop :=
  ∀ run, call.calledOn = some run →
    (∃ summary, outcome.summary = some summary ∧ summary.id = run) ∧
      (call.condition = .untilStopped → call.timeout = none →
        ∃ summary, outcome = .stopped summary ∧ summary.id = run)

namespace Job

/-- What holds of a call in progress when the run it was called on is still active. -/
def Sound (inner : Inner) : Job → Prop
  | .wait call => (call.timeout = none → call.deadline = none) ∧
      ∀ run, call.calledOn = some run → inner.IsActive run
  | .waitSymbol call active needle => (call.timeout = none → call.deadline = none) ∧
      call.condition = .untilSymbolSeen needle ∧
      ∀ run, call.calledOn = some run → inner.IsActive run ∧ active.id = run
  | .waited call outcome => call.Answered outcome
  | _ => True

variable {job : Job} {choice : Choice} {m : Move} {run : RunId}

theorem sound_wake {inner : Inner} {cancel : RunId} (h : job.Sound inner) :
    (job.wake cancel).Sound inner := by
  unfold wake
  split
  · trivial
  · exact h

/-- A call stays sound in another registry where the run it waits for is active. -/
theorem Sound.of_active {inner other : Inner} (h : job.Sound inner)
    (hactive : ∀ run, job.waitsFor = some run → inner.IsActive run → other.IsActive run) :
    job.Sound other := by
  cases job with
  | wait call => exact ⟨h.1, fun run hrun => hactive run hrun (h.2 run hrun)⟩
  | waitSymbol call active needle =>
      refine ⟨h.1, h.2.1, fun run hrun => ?_⟩
      obtain ⟨hbefore, hid⟩ := h.2.2 run hrun
      exact ⟨hactive run hrun hbefore, hid⟩
  | waited call outcome => exact h
  | _ => trivial

theorem sound_orTimeout {inner : Inner} {call : Wait} {active : RunSummary} {now : ℕ}
    (hdeadline : call.timeout = none → call.deadline = none)
    (hrun : ∀ run, call.calledOn = some run → inner.IsActive run ∧ active.id = run) :
    (call.orTimeout active now).Sound inner := by
  rcases call.orTimeout_cases active now with heq | ⟨hsome, heq⟩
  · rw [heq]
    exact ⟨hdeadline, fun run hcalled => (hrun run hcalled).1⟩
  · rw [heq]
    refine fun run hcalled => ⟨⟨active, rfl, (hrun run hcalled).2⟩, fun _ htimeout => ?_⟩
    rw [hdeadline htimeout] at hsome
    exact absurd hsome (by simp)

/-- A poll leaves a call waiting for its run, or answers it soundly. -/
theorem sound_poll {inner : Inner} {call : Wait} {now later : ℕ}
    (h : (Job.wait call).Sound inner) : (call.poll inner now later).Sound inner := by
  obtain ⟨hdeadline, hcalled⟩ := h
  have hrun {active : RunSummary} (hactive : inner.active = some active) (run : RunId)
      (hon : call.calledOn = some run) : active.id = run :=
    (Inner.isActive_iff hactive run).mp (hcalled run hon)
  rcases call.poll_cases inner now later with heq | ⟨active, needle, hactive, hcondition, heq⟩ |
    ⟨hnone, heq⟩ | ⟨active, hactive, ⟨-, heq⟩ | ⟨hcondition, heq⟩ | ⟨hsome, heq⟩⟩
  · rw [heq]
    exact ⟨hdeadline, hcalled⟩
  · rw [heq]
    exact ⟨hdeadline, hcondition, fun run hon => ⟨hcalled run hon, hrun hactive run hon⟩⟩
  · rw [heq]
    exact fun run hon => absurd (hcalled run hon) (Inner.not_isActive hnone run)
  · rw [heq]
    exact fun run hon => ⟨⟨active, rfl, hrun hactive run hon⟩,
      fun _ _ => ⟨active, rfl, hrun hactive run hon⟩⟩
  · rw [heq]
    exact fun run hon => ⟨⟨active, rfl, hrun hactive run hon⟩,
      fun huntil _ => absurd huntil hcondition⟩
  · rw [heq]
    refine fun run hon => ⟨⟨active, rfl, hrun hactive run hon⟩, fun _ htimeout => ?_⟩
    rw [hdeadline htimeout] at hsome
    exact absurd hsome (by simp)

theorem sound_symbol {inner : Inner} {call : Wait} {active : RunSummary} {needle : String}
    {later : ℕ} {seen : Bool} (h : (Job.waitSymbol call active needle).Sound inner) :
    (if seen then Job.waited call (.conditionMet active) else call.orTimeout active later).Sound
      inner := by
  obtain ⟨hdeadline, hcondition, hcalled⟩ := h
  split_ifs
  · refine fun run hon => ⟨⟨active, rfl, (hcalled run hon).2⟩, fun huntil _ => ?_⟩
    rw [hcondition] at huntil
    exact absurd huntil (by simp)
  · exact sound_orTimeout hdeadline hcalled

/-- Only a call of `wait_active` waits or answers. -/
theorem sound_of_not_waiting {inner : Inner} (h : job.next cache s choice = some m)
    (hwait : ∀ call, job ≠ .wait call) (hsymbol : ∀ call active needle,
      job ≠ .waitSymbol call active needle) : m.job.Sound inner := by
  fun_cases Job.next cache s job choice
  all_goals
    simp only [Job.next, reduceCtorEq, Option.some_inj, if_true, if_false, *] at h <;>
      grind [Sound, drain_cases, Reaper.done_cases, BeginPhase.next_cases,
        Starter.afterBegin_cases]

/-- A poll of a sound call leaves it sound, or with a sound answer. -/
theorem sound_next (h : job.next cache s choice = some m) (hsound : job.Sound s.inner) :
    m.job.Sound s.inner := by
  cases job with
  | wait call =>
      cases choice with
      | poll now later =>
          obtain rfl := Option.some_inj.mp h
          exact sound_poll hsound
      | _ => simp [next] at h
  | waitSymbol call active needle =>
      cases choice with
      | poll now later =>
          obtain rfl := Option.some_inj.mp h
          exact sound_symbol hsound
      | _ => simp [next] at h
  | _ => exact sound_of_not_waiting h (fun _ => by simp) (fun _ _ _ => by simp)

theorem waitsFor_next (h : job.next cache s choice = some m)
    (hwaits : m.job.waitsFor = some run) : job.waitsFor = some run := by
  fun_cases Job.next cache s job choice
  all_goals
    simp only [Job.next, reduceCtorEq, Option.some_inj, if_true, if_false, *] at h <;>
      grind [waitsFor, drain_cases, Reaper.done_cases, Wait.poll_cases, Wait.orTimeout_cases,
        BeginPhase.next_cases, Starter.afterBegin_cases]

theorem sound_fork {job' : Job} {inner : Inner} (h : job.next cache s choice = some m)
    (hfork : m.fork = some job') : job'.Sound inner := by
  fun_cases Job.next cache s job choice
  all_goals
    simp only [Job.next, reduceCtorEq, Option.some_inj, if_true, if_false, *] at h <;>
      grind [Sound, BeginPhase.next_cases]

end Job

theorem Call.start_sound (c : Call) (inner : Inner) : (c.start inner).Sound inner := by
  cases c with
  | publishBinariesLoaded run binaries => cases binaries <;> trivial
  | publishBinariesUnloaded run binaries => cases binaries <;> trivial
  | waitActive condition timeoutMs now =>
      refine ⟨fun htimeout => ?_, fun run hon => ?_⟩
      · simpa [newWait] using htimeout
      · obtain ⟨active, hactive, hid⟩ := Option.map_eq_some_iff.mp hon
        exact ⟨active, hactive, hid⟩
  | _ => trivial

/-! ## Runs that are awaited -/

/-- A run that a call waits for stays active. -/
theorem active_step (hawaited : Awaited s action)
    (hstep : ServerState.step cache s action = some s') {run : RunId} (hactive : s.inner.IsActive run)
    (hwaits : ∃ job ∈ s.jobs, job.waitsFor = some run) : s'.inner.IsActive run := by
  obtain ⟨waiting, hmem, hfor⟩ := hwaits
  -- the condition: nobody puts away a run that a call waits for
  have hkept {t : ℕ} {choice : Choice} {job : Job} (haction : action = .step t choice)
      (ht : s.jobs[t]? = some job) : job.putsAway s.inner ≠ some run := by
    rintro hputs
    subst haction
    exact hawaited job ht run hputs waiting hmem hfor
  obtain ⟨active, hrun, hid⟩ := hactive
  have hisActive (r : RunId) : s.inner.IsActive r ↔ active.id = r := Inner.isActive_iff hrun r
  rcases ServerState.inner_step hstep with ⟨-, hinner | ⟨part, htakes, hinner⟩⟩ |
    ⟨summary, t, choice, job, -, -, hfrom, -, -⟩
  · rw [hinner]
    exact ⟨active, hrun, hid⟩
  · rw [hinner]
    rcases part.run_cases s.inner with ⟨hsame, -⟩ | ⟨before, active', hbefore, hchanges, hnow, -⟩ |
      ⟨before, past, hbefore, hends, -, -⟩
    · exact ⟨active, hsame.trans hrun, hid⟩
    · obtain rfl : active = before := Option.some_inj.mp (hrun.symm.trans hbefore)
      exact ⟨active', hnow, (Section.id_of_changes hchanges).trans hid⟩
    -- a section that puts the active run away is a job's, so the condition speaks of it
    · obtain rfl : active = before := Option.some_inj.mp (hrun.symm.trans hbefore)
      cases action with
      | step t choice =>
          obtain ⟨job, ht, hfrom⟩ := htakes
          cases part with
          | clearStale =>
              obtain ⟨starter, label, rfl⟩ := hfrom
              refine absurd ?_ (hkept rfl ht)
              simp [Job.putsAway, hrun, hends.1, hid]
          | discardStartFailed r message now =>
              obtain ⟨rfl, -⟩ := hfrom
              obtain rfl : run = r := hid.symm.trans hends.1
              exact absurd (if_pos ((hisActive run).mpr hid)) (hkept rfl ht)
          | finalizeRun r reason now =>
              obtain ⟨rfl, -⟩ := hfrom
              obtain rfl : run = r := hid.symm.trans hends.1
              exact absurd (if_pos ((hisActive run).mpr hid)) (hkept rfl ht)
          | _ => exact absurd hends id
      | registerShade info commands =>
          obtain rfl : part = .registerShade info commands := htakes
          exact absurd hends id
      | shadeSessionClosed shadePid =>
          obtain rfl : part = .shadeSessionClosed shadePid := htakes
          exact absurd hends id
      | _ => exact absurd htakes id
  -- no run is published while another is active
  · rw [hfrom.1] at hrun
    exact absurd hrun (by simp)

/-- Every call in progress is for a run that is still active, whatever happens next. -/
theorem sound_step (h : ∀ job ∈ s.jobs, job.Sound s.inner) (hawaited : Awaited s action)
    (hstep : ServerState.step cache s action = some s') : ∀ job ∈ s'.jobs, job.Sound s'.inner := by
  have hstays {run : RunId} {waiting : Job} (hmem : waiting ∈ s.jobs)
      (hwaits : waiting.waitsFor = some run) (hactive : s.inner.IsActive run) :
      s'.inner.IsActive run :=
    active_step hawaited hstep hactive ⟨waiting, hmem, hwaits⟩
  have hold : ∀ job ∈ s.jobs, job.Sound s'.inner := fun job hjob =>
    (h job hjob).of_active fun run hwaits => hstays hjob hwaits
  rcases ServerState.step_cases hstep with ⟨c, -, rfl⟩ | ⟨t, choice, job, m, -, ht, hm, rfl⟩ |
    ⟨effect, -, rfl⟩
  · intro job hjob
    rcases List.mem_append.mp hjob with hjob | hjob
    · exact hold job hjob
    · rw [List.mem_singleton.mp hjob]
      exact c.start_sound s.inner
  · have hmem : job ∈ s.jobs := List.mem_of_getElem? ht
    refine ServerState.forall_jobs_move (fun _ _ _ hjob => Job.sound_wake hjob) hold ?_
      fun job' hfork => Job.sound_fork hm hfork
    exact (Job.sound_next hm (h job hmem)).of_active fun run hwaits =>
      hstays hmem (Job.waitsFor_next hm hwaits)
  · exact ServerState.forall_jobs_apply (fun _ _ _ hjob => Job.sound_wake hjob) hold

/-- A call of `wait_active` answers about the run that was active when it was made, and with the
stopped run when it waits for the end without a timeout. -/
theorem wait_answers {actions : List Action}
    (h : Runs (ServerState.step cache) Awaited .initial actions s) {call : Wait}
    {outcome : WaitOutcome} (hwaited : Job.waited call outcome ∈ s.jobs) {run : RunId}
    (hcalled : call.calledOn = some run) :
    (∃ summary, outcome.summary = some summary ∧ summary.id = run) ∧ outcome ≠ .noActiveRun ∧
      (call.condition = .untilStopped → call.timeout = none →
        ∃ summary, outcome = .stopped summary ∧ summary.id = run) := by
  have hsound := h.invariant (p := fun s => ∀ job ∈ s.jobs, job.Sound s.inner)
    (fun _ _ _ hinv hawaited hstep => sound_step hinv hawaited hstep)
    (fun job hjob => absurd hjob List.not_mem_nil)
  obtain ⟨habout, hstopped⟩ := hsound _ hwaited run hcalled
  refine ⟨habout, ?_, hstopped⟩
  rintro rfl
  obtain ⟨summary, hnone, -⟩ := habout
  exact absurd hnone (by simp [WaitOutcome.summary])

/-! ## A wait that sees the stop, and one that finds no run -/

/-- What the call of `wait_active` was and what it has answered. -/
def Job.answer : Job → Option (Wait × WaitOutcome)
  | .waited call outcome => some (call, outcome)
  | _ => none

theorem mem_jobs_of_answer {t : ℕ} {call : Wait} {outcome : WaitOutcome}
    (h : s.jobs[t]?.bind Job.answer = some (call, outcome)) : Job.waited call outcome ∈ s.jobs := by
  obtain ⟨job, ht, hanswer⟩ := Option.bind_eq_some_iff.mp h
  have hmem := List.mem_of_getElem? ht
  cases job with
  | waited other result =>
      obtain ⟨rfl, rfl⟩ := Prod.mk.inj (Option.some_inj.mp hanswer)
      exact hmem
  | _ => simp [Job.answer] at hanswer

/-- A recorder's run, and a call that waits for its end. -/
def waitForStop : List Action :=
  [.call (.startRun "a")] ++ ServerState.goes 0 8 ++
    [.step 1 (.go 0), .call (.waitActive .untilStopped none 0), .step 2 (.poll 1 1)]

/-- The call of `waitForStop`. -/
def waitCall : Wait :=
  { condition := .untilStopped
    timeout := none
    deadline := none
    conditionDeadline := none
    calledOn := some 1 }

theorem wait_answers_stopped :
    ∃ s, Runs (ServerState.step none) Awaited .initial
        (waitForStop ++ [.call .stopActive] ++ ServerState.goes 3 1 ++ [.step 2 (.poll 51 51)]) s ∧
      ∃ outcome, Job.waited waitCall outcome ∈ s.jobs ∧
        ∃ summary, outcome = .stopped summary ∧ summary.id = 1 := by
  obtain ⟨s, hruns, hanswer⟩ := exists_runs_of_runIf
    (p := fun s => s.jobs[2]?.bind Job.answer =
      some (waitCall, .stopped ((RunSummary.recording 1 "a" 0).stop .userStop 0)))
    (show (runIf (ServerState.step none) Awaited .initial (waitForStop ++ [.call .stopActive] ++
      ServerState.goes 3 1 ++ [.step 2 (.poll 51 51)])).any _ = true by decide +kernel)
  have hmem := mem_jobs_of_answer hanswer
  exact ⟨s, hruns, _, hmem, (wait_answers hruns hmem rfl).2.2 rfl rfl⟩

/-- The stop wakes the drainer, and the drainer finalizes the run, before the next poll. -/
def finalizedBetweenPolls : List Action :=
  waitForStop ++ [.call .stopActive] ++ ServerState.goes 3 4 ++ [.step 1 .cancelled] ++
    ServerState.goes 1 2 ++ [.step 2 (.poll 51 51)]

theorem wait_finds_no_run :
    ∃ s, Runs (ServerState.step none) Any .initial finalizedBetweenPolls s ∧
      ∃ call, Job.waited call .noActiveRun ∈ s.jobs ∧ call.calledOn = some 1 ∧
        call.condition = .untilStopped ∧ call.timeout = none := by
  obtain ⟨s, hruns, hanswer⟩ := exists_runs_of_runIf
    (p := fun s => s.jobs[2]?.bind Job.answer = some (waitCall, .noActiveRun))
    (show (runIf (ServerState.step none) Any .initial finalizedBetweenPolls).any _ = true by
      decide +kernel)
  exact ⟨s, hruns, waitCall, mem_jobs_of_answer hanswer, rfl, rfl, rfl⟩

end Stax.Server
