/-
# Stax.Server.ShadeChild — when only a run's own shade is reaped for it.

The shade's process is in one slot for all runs, and `stop_active` and `finalize_run` take what is in
it in a section after the one that ends their run.  What they take was spawned for their run when the
slot has no other run's child as the run ends, and no child is stored while they have yet to take
one for another run.
-/
import Stax.Server.RunRegistry

namespace Stax.Server

open Stax.Lib Stax.Lib.Machine

/-! ## Children in the slot, and who will take them -/

namespace Job

/-- The run for which the job will take the child in the slot. -/
def reaping : Job → Option RunId
  | .sendStop snapshot _ _ | .notify snapshot _ => some snapshot.id
  | .takeChild reaper => some reaper.run
  | _ => none

/-- The run that the job's section ends, to take its child afterwards. -/
def endsToReap (inner : Inner) : Job → Option RunId
  | .markStopped => inner.active.map RunSummary.id
  | .finalizeRun run _ => if inner.IsActive run then some run else none
  | _ => none

/-- The run for which the job's step stores a child. -/
def storing : Job → Choice → Option RunId
  | .spawnShade run, .spawnOk _ => some run
  | _, _ => none

end Job

/-- A run ends while the slot has no other run's child, and a child is stored while no child is yet
to be taken for another run. -/
def OwnChild (s : ServerState) : Action → Prop
  | .step t choice =>
    ∀ job ∈ s.jobs[t]?,
      (∀ run ∈ job.endsToReap s.inner, ∀ child ∈ s.inner.shadeChild, child.child.spawnedFor = run) ∧
        ∀ run ∈ job.storing choice, ∀ other ∈ s.jobs, ∀ r ∈ other.reaping, run = r
  | _ => True

instance (s : ServerState) (action : Action) : Decidable (OwnChild s action) :=
  match action with
  | .step t choice =>
    inferInstanceAs (Decidable (∀ job ∈ s.jobs[t]?,
      (∀ run ∈ job.endsToReap s.inner, ∀ child ∈ s.inner.shadeChild, child.child.spawnedFor = run) ∧
        ∀ run ∈ job.storing choice, ∀ other ∈ s.jobs, ∀ r ∈ other.reaping, run = r))
  | .call _ | .registerShade _ _ | .shadeSessionClosed _ | .attachTerminal _ | .setPaused _ =>
    isTrue trivial

variable {cache : Option HostCache} {s s' : ServerState} {action : Action}

/-! ## Steps -/

namespace Section

/-- A section keeps the child in the slot, takes it, or stores one. -/
theorem shadeChild_run (inner : Inner) (part : Section) :
    (part.run inner).shadeChild = inner.shadeChild ∨ (part.run inner).shadeChild = none ∨
      ∃ child, part = .storeChild child ∧ (part.run inner).shadeChild = some child := by
  cases part <;>
    grind [Section.run, Inner.tryRegisterShade, Inner.shadeSessionClosed, Inner.watchdogClear,
      Inner.clearShade, Inner.shadeChildExited, Inner.detachIngest, Inner.clearStale, Inner.cleared,
      Inner.discardStartFailed, Inner.stopActive, Inner.finalizeRun, Inner.countEvent,
      Inner.attachTarget, Inner.setIngestAttached, Inner.storeChild, Inner.takeChild]

end Section

namespace Job

variable {job : Job} {choice : Choice} {m : Move} {run : RunId}

theorem reaping_wake (cancel : RunId) (job : Job) : (job.wake cancel).reaping = job.reaping := by
  unfold wake
  split <;> rfl

theorem reaping_done (reaper : Reaper) : reaper.done.reaping = none := by
  cases reaper <;> rfl

/-- A child is to be taken for a run that was to have its child taken, or that ends in this step. -/
theorem reaping_next (h : job.next cache s choice = some m) (hreaping : m.job.reaping = some run) :
    job.reaping = some run ∨ job.endsToReap s.inner = some run := by
  fun_cases Job.next cache s job choice
  all_goals
    simp only [Job.next, reduceCtorEq, Option.some_inj, if_true, if_false, *] at h <;>
      grind [reaping, reaping_done, endsToReap, Reaper.run, RunSummary.stop_id, drain_cases,
        Wait.poll_cases, Wait.orTimeout_cases, BeginPhase.next_cases, Starter.afterBegin_cases]

theorem reaping_fork {job' : Job} (h : job.next cache s choice = some m)
    (hfork : m.fork = some job') : job'.reaping = none ∧ ∀ reaper child, job' ≠ .reap reaper child := by
  fun_cases Job.next cache s job choice
  all_goals
    simp only [Job.next, reduceCtorEq, Option.some_inj, if_true, if_false, *] at h <;>
      grind [reaping, BeginPhase.next_cases]

/-- What is reaped was taken out of the slot. -/
theorem reap_next {reaper : Reaper} {child : ShadeChild} (h : job.next cache s choice = some m)
    (hreap : m.job = .reap reaper child) :
    job = .takeChild reaper ∧ s.inner.shadeChild = some child := by
  fun_cases Job.next cache s job choice
  all_goals
    simp only [Job.next, reduceCtorEq, Option.some_inj, if_true, if_false, *] at h <;>
      grind [drain_cases, Reaper.done_cases, Wait.poll_cases, Wait.orTimeout_cases,
        BeginPhase.next_cases, Starter.afterBegin_cases]

end Job

theorem Call.start_reaping (c : Call) (inner : Inner) :
    (c.start inner).reaping = none ∧ ∀ reaper child, c.start inner ≠ .reap reaper child := by
  cases c with
  | publishBinariesLoaded run binaries => cases binaries <;> exact ⟨rfl, nofun⟩
  | publishBinariesUnloaded run binaries => cases binaries <;> exact ⟨rfl, nofun⟩
  | _ => exact ⟨rfl, nofun⟩

/-- The child in the slot is that of whoever will take it, and what is reaped was the reaper's. -/
structure OwnReaping (s : ServerState) : Prop where
  slot : ∀ child, s.inner.shadeChild = some child → ∀ job ∈ s.jobs, ∀ run,
    job.reaping = some run → child.child.spawnedFor = run
  reaped : ∀ job ∈ s.jobs, ∀ reaper child, job = .reap reaper child →
    child.child.spawnedFor = reaper.run

namespace OwnReaping

theorem initial : OwnReaping ServerState.initial where
  slot := fun _ hchild => absurd hchild (by simp [ServerState.initial])
  reaped := fun _ hjob => absurd hjob List.not_mem_nil

/-- The reaping jobs of the next state, by whether they were reaping or end a run in this step. -/
theorem reaping_step (hstep : ServerState.step cache s action = some s') {p : RunId → Prop}
    (hold : ∀ job ∈ s.jobs, ∀ run, job.reaping = some run → p run)
    (hends : ∀ t choice job run, action = .step t choice → s.jobs[t]? = some job →
      job.endsToReap s.inner = some run → p run) :
    ∀ job ∈ s'.jobs, ∀ run, job.reaping = some run → p run := by
  rcases ServerState.step_cases hstep with ⟨c, -, rfl⟩ | ⟨t, choice, job, m, rfl, ht, hm, rfl⟩ |
    ⟨effect, -, rfl⟩
  · intro job hjob run hrun
    rcases List.mem_append.mp hjob with hjob | hjob
    · exact hold job hjob run hrun
    · rw [List.mem_singleton.mp hjob, (c.start_reaping s.inner).1] at hrun
      exact absurd hrun (by simp)
  · refine ServerState.forall_jobs_move (fun cancel other _ hother => ?_) hold ?_ ?_
    · rwa [Job.reaping_wake]
    · intro run hrun
      rcases Job.reaping_next hm hrun with hbefore | hnow
      · exact hold job (List.mem_of_getElem? ht) run hbefore
      · exact hends t choice job run rfl ht hnow
    · intro job' hfork run hrun
      rw [(Job.reaping_fork hm hfork).1] at hrun
      exact absurd hrun (by simp)
  · refine ServerState.forall_jobs_apply (fun cancel other _ hother => ?_) hold
    rwa [Job.reaping_wake]

/-- The child in the slot was spawned for whatever run a job is about to reap. -/
theorem slot_step (h : OwnReaping s) (hown : OwnChild s action)
    (hstep : ServerState.step cache s action = some s') :
    ∀ child, s'.inner.shadeChild = some child → ∀ job ∈ s'.jobs, ∀ run,
      job.reaping = some run → child.child.spawnedFor = run := by
  intro child hchild
  have hkept (hsame : s'.inner.shadeChild = s.inner.shadeChild) :
      ∀ job ∈ s'.jobs, ∀ run, job.reaping = some run → child.child.spawnedFor = run := by
    rw [hsame] at hchild
    refine reaping_step hstep (h.slot child hchild) ?_
    rintro t choice job run rfl ht hends
    exact (hown job ht).1 run hends child hchild
  rcases ServerState.inner_step hstep with ⟨-, hinner | ⟨part, htakes, hinner⟩⟩ |
    ⟨summary, t, choice, job, -, -, -, hinner, -⟩
  · exact hkept (by rw [hinner])
  · rcases Section.shadeChild_run s.inner part with hsame | hnone | ⟨stored, rfl, hstored⟩
    · exact hkept (by rw [hinner, hsame])
    · rw [hinner, hnone] at hchild
      exact absurd hchild (by simp)
    · rw [hinner, hstored, Option.some_inj] at hchild
      subst hchild
      cases action with
      | step t choice =>
          obtain ⟨job, ht, run, rfl, rfl, hcell⟩ := htakes
          rw [hcell]
          refine reaping_step hstep ((hown _ ht).2 run rfl) ?_
          rintro t' choice' job' r hsame ht' hends
          obtain ⟨rfl, rfl⟩ := Action.step.inj hsame
          obtain rfl := Option.some_inj.mp (ht.symm.trans ht')
          simp [Job.endsToReap] at hends
      | _ => simp [ServerState.Takes] at htakes
  · exact hkept (by rw [hinner]; rfl)

/-- A child in the hands of a reaper was spawned for the run that the reaper ends. -/
theorem reaped_step (h : OwnReaping s) (hstep : ServerState.step cache s action = some s') :
    ∀ job ∈ s'.jobs, ∀ reaper child, job = .reap reaper child →
      child.child.spawnedFor = reaper.run := by
  have hwake (cancel : RunId) (job : Job)
      (hjob : ∀ reaper child, job = .reap reaper child → child.child.spawnedFor = reaper.run) :
      ∀ reaper child, job.wake cancel = .reap reaper child →
        child.child.spawnedFor = reaper.run := by
    intro reaper child hwoken
    refine hjob reaper child ?_
    unfold Job.wake at hwoken
    split at hwoken
    · simp at hwoken
    · exact hwoken
  rcases ServerState.step_cases hstep with ⟨c, -, rfl⟩ | ⟨t, choice, job, m, -, ht, hm, rfl⟩ |
    ⟨effect, -, rfl⟩
  · intro job hjob reaper child hreap
    rcases List.mem_append.mp hjob with hjob | hjob
    · exact h.reaped job hjob reaper child hreap
    · exact absurd ((List.mem_singleton.mp hjob).symm.trans hreap)
        ((c.start_reaping s.inner).2 reaper child)
  · refine ServerState.forall_jobs_move (fun cancel other _ => hwake cancel other) h.reaped ?_ ?_
    · intro reaper child hreap
      obtain ⟨rfl, hslot⟩ := Job.reap_next hm hreap
      exact h.slot child hslot _ (List.mem_of_getElem? ht) reaper.run rfl
    · intro job' hfork reaper child hreap
      exact absurd hreap ((Job.reaping_fork hm hfork).2 reaper child)
  · exact ServerState.forall_jobs_apply (fun cancel other _ => hwake cancel other) h.reaped

end OwnReaping

/-- What `stop_active` or `finalize_run` of a run has taken and reaps was spawned for that run. -/
theorem reaps_own_child {actions : List Action}
    (h : Runs (ServerState.step cache) OwnChild .initial actions s) {reaper : Reaper}
    {child : ShadeChild} (hreap : Job.reap reaper child ∈ s.jobs) :
    child.child.spawnedFor = reaper.run := by
  have hinv : OwnReaping s := h.invariant
    (fun _ _ _ hinv hown hstep => ⟨hinv.slot_step hown hstep, hinv.reaped_step hstep⟩)
    OwnReaping.initial
  exact hinv.reaped _ hreap reaper child rfl

/-! ## A stop that reaps its shade, and one that reaps the next run's -/

/-- What the job reaps, with the run it reaps for. -/
def Job.reaps : Job → Option (RunId × ShadeChild)
  | .reap reaper child => some (reaper.run, child)
  | _ => none

theorem exists_reap_of_reaps {t : ℕ} {run : RunId} {child : ShadeChild}
    (h : s.jobs[t]?.bind Job.reaps = some (run, child)) :
    ∃ reaper, Job.reap reaper child ∈ s.jobs ∧ reaper.run = run := by
  obtain ⟨job, ht, hreaps⟩ := Option.bind_eq_some_iff.mp h
  have hmem := List.mem_of_getElem? ht
  cases job with
  | reap reaper other =>
      obtain ⟨hrun, rfl⟩ := Prod.mk.inj (Option.some_inj.mp hreaps)
      exact ⟨reaper, hmem, hrun⟩
  | _ => simp [Job.reaps] at hreaps

/-- A run with its shade, and a stop of it that is about to take the child. -/
def stopBeforeTaking : List Action :=
  [.call (.startAttach "a")] ++ ServerState.goes 0 7 ++ [.step 0 (.spawnOk 10), .call .stopActive]
    ++ ServerState.goes 2 3

theorem reaps_own_child_stopped :
    ∃ s, Runs (ServerState.step none) OwnChild .initial (stopBeforeTaking ++ ServerState.goes 2 1)
        s ∧
      ∃ reaper child, Job.reap reaper child ∈ s.jobs ∧ reaper.run = 1 ∧ child.pid = 10 ∧
        child.child.spawnedFor = reaper.run := by
  obtain ⟨s, hruns, hreaps⟩ := exists_runs_of_runIf
    (p := fun s => s.jobs[2]?.bind Job.reaps =
      some (1, { pid := 10, child := { serial := 0, spawnedFor := 1 } }))
    (show (runIf (ServerState.step none) OwnChild .initial
      (stopBeforeTaking ++ ServerState.goes 2 1)).any _ = true by decide +kernel)
  obtain ⟨reaper, hmem, hrun⟩ := exists_reap_of_reaps hreaps
  exact ⟨s, hruns, reaper, _, hmem, hrun, rfl, reaps_own_child hruns hmem⟩

/-- Before the stop takes the child the next start has reaped it and stored its own. -/
def takesTheNext : List Action :=
  stopBeforeTaking ++ [.call (.startAttach "b")] ++ ServerState.goes 3 8 ++ [.step 3 (.spawnOk 11)]
    ++ ServerState.goes 2 1

theorem reaps_other_child :
    ∃ s, Runs (ServerState.step none) Any .initial takesTheNext s ∧
      ∃ reaper child, Job.reap reaper child ∈ s.jobs ∧ reaper.run = 1 ∧
        child.child.spawnedFor = 2 := by
  obtain ⟨s, hruns, hreaps⟩ := exists_runs_of_runIf
    (p := fun s => s.jobs[2]?.bind Job.reaps =
      some (1, { pid := 11, child := { serial := 1, spawnedFor := 2 } }))
    (show (runIf (ServerState.step none) Any .initial takesTheNext).any _ = true by
      decide +kernel)
  obtain ⟨reaper, hmem, hrun⟩ := exists_reap_of_reaps hreaps
  exact ⟨s, hruns, reaper, _, hmem, hrun, rfl⟩

end Stax.Server
