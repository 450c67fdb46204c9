/-
# Stax.Server.StopRequest — when a stop reaches the drainer.

`stop_active` takes the run's only handle and notifies once, and only who waits at that moment is
woken.  A stop therefore reaches every drainer of the run when, at the notification, whoever holds
the handle is waiting, and when no call of `stop_active` returns before an earlier one has notified.
Then a drainer of the run that waits after the return has its cancel branch ready, and goes from
there to `finalize_run`.
-/
import Stax.Server.Frozen

namespace Stax.Server

open Stax.Lib Stax.Lib.Machine

/-! ## Handles -/

/-- The run that `begin_run` has published. -/
def BeginPhase.published : BeginPhase → Option RunId
  | .resetAggregator run | .resetBinaries run | .bump run | .attachSharedCache run => some run
  | _ => none

namespace Job

/-- The cancel handle that the job holds and has to wait for, now or later. -/
def handle : Job → Option RunId
  | .begin .ingest _ phase => phase.published
  | .startIngest run => some run
  | .attachIngest _ cancel => some cancel
  | .drainer _ _ (.detaching _) => none
  | .drainer _ cancel _ => some cancel
  | _ => none

/-- The drainer is in its `select!`. -/
def isWaiting : Job → Bool
  | .drainer _ _ (.waiting _) => true
  | _ => false

/-- The call of `stop_active` has the run's handle and has not notified yet. -/
def notifies (run : RunId) : Job → Bool
  | .sendStop _ cancel _ | .notify _ cancel => cancel = some run
  | _ => false

/-- The run whose waiters the job's step notifies. -/
def notifying : Job → Option RunId
  | .notify _ cancel => cancel
  | _ => none

/-- What the call of `stop_active` returns with the job's step. -/
def returning (inner : Inner) : Job → Option RunSummary
  | .takeChild (.stopActive snapshot) => if inner.shadeChild.isNone then some snapshot else none
  | .reap (.stopActive snapshot) _ => some snapshot
  | _ => none

/-- The handle a job has is that of the run it is for. -/
def OwnHandle : Job → Prop
  | .attachIngest run cancel | .drainer run cancel _ => run = cancel
  | .sendStop snapshot cancel _ | .notify snapshot cancel => ∀ run, cancel = some run → snapshot.id = run
  | _ => True

end Job

/-- A notification finds every holder of the handle waiting, and no call of `stop_active` returns
while another one has still to notify. -/
def Heard (s : ServerState) : Action → Prop
  | .step t _ =>
    ∀ job ∈ s.jobs[t]?,
      (∀ run ∈ job.notifying, ∀ other ∈ s.jobs, other.handle = some run → other.isWaiting) ∧
        ∀ snapshot ∈ job.returning s.inner, ∀ other ∈ s.jobs, ¬ other.notifies snapshot.id
  | _ => True

instance (s : ServerState) (action : Action) : Decidable (Heard s action) :=
  match action with
  | .step t _ =>
    inferInstanceAs (Decidable (∀ job ∈ s.jobs[t]?,
      (∀ run ∈ job.notifying, ∀ other ∈ s.jobs, other.handle = some run → other.isWaiting) ∧
        ∀ snapshot ∈ job.returning s.inner, ∀ other ∈ s.jobs, ¬ other.notifies snapshot.id))
  | .call _ | .registerShade _ _ | .shadeSessionClosed _ | .attachTerminal _ | .setPaused _ =>
    isTrue trivial

namespace ServerState

/-- Every holder of the handle is waiting and woken. -/
def Signalled (s : ServerState) (run : RunId) : Prop :=
  ∀ job ∈ s.jobs, job.handle = some run → ∃ r, job = .drainer r run (.waiting true)

/-- The stop of the run has reached the holders of its handle, or is on its way. -/
def Reached (s : ServerState) (run : RunId) : Prop :=
  (∃ job ∈ s.jobs, job.notifies run) ∨ s.Signalled run

end ServerState

variable {cache : Option HostCache} {s s' : ServerState} {action : Action}

namespace Job

variable {job : Job} {choice : Choice} {m : Move} {run : RunId}

theorem handle_wake (cancel : RunId) (job : Job) : (job.wake cancel).handle = job.handle := by
  unfold wake
  split <;> rfl

theorem notifies_wake (cancel : RunId) (job : Job) :
    (job.wake cancel).notifies run = job.notifies run := by
  unfold wake
  split <;> rfl

theorem ownHandle_wake {cancel : RunId} {job : Job} (h : job.OwnHandle) :
    (job.wake cancel).OwnHandle := by
  unfold wake
  split <;> exact h

theorem wake_woken (cancel : RunId) {r : RunId} (h : job = .drainer r run (.waiting true)) :
    job.wake cancel = .drainer r run (.waiting true) := by
  rw [h]
  rfl

/-- While `begin_run` is under way it holds a handle only from the section on that publishes its
run. -/
theorem handle_begin (starter : Starter) (label : String) (phase : BeginPhase) (now : ℕ)
    (hhandle : (phase.next cache s starter label now).job.handle = some run) :
    (Job.begin starter label phase).handle = some run ∨
      ∃ summary, (phase.next cache s starter label now).effect = .publish summary ∧
        summary.id = run := by
  cases phase with
  | publish r =>
      simp only [BeginPhase.next] at hhandle ⊢
      split_ifs at hhandle ⊢
      · simp [handle] at hhandle
      · refine Or.inr ⟨_, rfl, ?_⟩
        cases starter with
        | ingest => exact Option.some_inj.mp hhandle
        | _ => simp [handle] at hhandle
  | attachSharedCache r =>
      cases starter with
      | ingest => exact Or.inl hhandle
      | _ => simp [BeginPhase.next, Starter.afterBegin, handle] at hhandle
  | resetAggregator r => cases starter <;> exact Or.inl hhandle
  | resetBinaries r => cases starter <;> exact Or.inl hhandle
  | bump r => cases starter <;> exact Or.inl hhandle
  | clearStale =>
      simp only [BeginPhase.next] at hhandle
      cases starter <;> split at hhandle <;> simp [handle, BeginPhase.published] at hhandle
  | _ => cases starter <;> simp [BeginPhase.next, handle, BeginPhase.published] at hhandle

/-- A handle is handed out for the run that has it in the registry. -/
theorem cancelForRun_ok {inner : Inner} {cancel : RunId}
    (h : inner.cancelForRun run = .ok cancel) : inner.IsActive run ∧ inner.cancel = some cancel := by
  unfold Inner.cancelForRun at h
  split at h
  · simp at h
  · rename_i hactive
    split at h
    · rename_i other hother
      obtain rfl := Except.ok.inj h
      exact ⟨Inner.isActive_of_ensureActiveRun hactive, hother⟩
    · simp at h

/-- A handle comes from the job's own step before, from publishing its run, or out of the
registry. -/
theorem handle_next (h : job.next cache s choice = some m) (hhandle : m.job.handle = some run) :
    (job.handle = some run ∧ ∀ r, job ≠ .drainer r run (.waiting true)) ∨
      (∃ summary, m.effect = .publish summary ∧ summary.id = run) ∨ s.inner.cancel = some run := by
  fun_cases Job.next cache s job choice
  case case1 starter label phase now =>
    obtain rfl := Option.some_inj.mp h
    rcases handle_begin starter label phase now hhandle with hsame | hpublish
    · exact Or.inl ⟨hsame, by simp⟩
    · exact Or.inr (Or.inl hpublish)
  all_goals
    simp only [Job.next, reduceCtorEq, Option.some_inj, if_true, if_false, *] at h <;>
      grind [handle, drain_cases, Reaper.done_cases, Wait.poll_cases, Wait.orTimeout_cases,
        → cancelForRun_ok]

theorem handle_fork {job' : Job} (h : job.next cache s choice = some m)
    (hfork : m.fork = some job') (hhandle : job'.handle = some run) :
    job.handle = some run ∧ ∀ r, job ≠ .drainer r run (.waiting true) := by
  fun_cases Job.next cache s job choice
  all_goals
    simp only [Job.next, reduceCtorEq, Option.some_inj, if_true, if_false, *] at h <;>
      grind [handle, BeginPhase.next_cases]

/-- A call that has to notify still has to, or does it in this step. -/
theorem notifies_next (h : job.next cache s choice = some m) (hnotifies : job.notifies run) :
    m.job.notifies run ∨
      ∃ snapshot, job = .notify snapshot (some run) ∧ m.effect = .notifyWaiters run := by
  cases job with
  | sendStop snapshot cancel commands =>
      cases choice with
      | go now =>
          obtain rfl := Option.some_inj.mp h
          exact Or.inl hnotifies
      | _ => simp [next] at h
  | notify snapshot cancel =>
      cases choice with
      | go now =>
          obtain rfl := Option.some_inj.mp h
          obtain rfl : cancel = some run := by simpa [notifies] using hnotifies
          exact Or.inr ⟨snapshot, rfl, rfl⟩
      | _ => simp [next] at h
  | _ => simp [notifies] at hnotifies

theorem ownHandle_next (h : job.next cache s choice = some m) (hown : job.OwnHandle)
    (hcancel : ∀ run, s.inner.cancel = some run → s.inner.IsActive run) : m.job.OwnHandle := by
  fun_cases Job.next cache s job choice
  all_goals
    simp only [Job.next, reduceCtorEq, Option.some_inj, if_true, if_false, *] at h <;>
      grind [OwnHandle, drain_cases, Reaper.done_cases, Wait.poll_cases, Wait.orTimeout_cases,
        BeginPhase.next_cases, Starter.afterBegin_cases, → cancelForRun_ok, Inner.IsActive,
        RunSummary.stop_id]

theorem ownHandle_fork {job' : Job} (h : job.next cache s choice = some m)
    (hfork : m.fork = some job') (hown : job.OwnHandle) : job'.OwnHandle := by
  fun_cases Job.next cache s job choice
  all_goals
    simp only [Job.next, reduceCtorEq, Option.some_inj, if_true, if_false, *] at h <;>
      grind [OwnHandle, BeginPhase.next_cases]

theorem returning_reap (inner : Inner) {reaper : Reaper} (child : ShadeChild)
    {snapshot : RunSummary} (h : reaper.done = .stopped snapshot) :
    (Job.reap reaper child).returning inner = some snapshot := by
  cases reaper with
  | finalizeRun run => simp [Reaper.done] at h
  | stopActive other =>
      obtain rfl := Job.stopped.inj h
      rfl

theorem returning_takeChild {inner : Inner} {reaper : Reaper} {snapshot : RunSummary}
    (h : reaper.done = .stopped snapshot) (hnone : inner.shadeChild = none) :
    (Job.takeChild reaper).returning inner = some snapshot := by
  cases reaper with
  | finalizeRun run => simp [Reaper.done] at h
  | stopActive other =>
      obtain rfl := Job.stopped.inj h
      simp [returning, hnone]

theorem snapshot_of_returning {inner : Inner} {snapshot : RunSummary}
    (h : job.returning inner = some snapshot) : job.snapshot = some snapshot := by
  unfold returning at h
  split at h
  · split_ifs at h
    exact h
  · exact h
  · simp at h

/-- A call of `stop_active` returns when no child is left to reap. -/
theorem returning_of_next {snapshot : RunSummary} (h : job.next cache s choice = some m)
    (hstopped : m.job = .stopped snapshot) : job.returning s.inner = some snapshot := by
  fun_cases Job.next cache s job choice
  all_goals
    simp only [Job.next, reduceCtorEq, Option.some_inj, if_true, if_false, *] at h <;>
      grind [drain_cases, returning_reap, returning_takeChild, Wait.poll_cases, Wait.orTimeout_cases,
        BeginPhase.next_cases, Starter.afterBegin_cases]

end Job

namespace Inner

variable {inner : Inner} {run : RunId}

/-- A section keeps the handle, or leaves none: when it ends the run, and in `stop_active`. -/
theorem cancel_run (inner : Inner) (part : Section) :
    ((part.run inner).cancel = inner.cancel ∧
        ((part.run inner).active = none → inner.active = none)) ∨
      ((part.run inner).cancel = none ∧
        ((part.run inner).active = none ∨ ∃ now, part = .stopActive now)) := by
  cases part <;>
    grind [Section.run, tryRegisterShade, shadeSessionClosed, watchdogClear, clearShade,
      shadeChildExited, detachIngest, clearStale, cleared, discardStartFailed, stopActive,
      finalizeRun, countEvent, attachTarget, setIngestAttached, storeChild, takeChild]

end Inner

theorem Call.start_handle (c : Call) (inner : Inner) :
    (c.start inner).handle = none ∧ (c.start inner).OwnHandle := by
  cases c with
  | publishBinariesLoaded run binaries => cases binaries <;> exact ⟨rfl, trivial⟩
  | publishBinariesUnloaded run binaries => cases binaries <;> exact ⟨rfl, trivial⟩
  | startRun label => exact ⟨rfl, trivial⟩
  | _ => exact ⟨rfl, trivial⟩

/-! ## Stops that have reached the drainers -/

namespace ServerState

variable {run : RunId}

/-- What is published has not begun before. -/
theorem Tracked.publish_ne (h : s.Tracked) {t : ℕ} {choice : Choice} {job : Job} {m : Move}
    (ht : s.jobs[t]? = some job) (hm : job.next cache s choice = some m) {summary : RunSummary}
    (heffect : m.effect = .publish summary) (hrun : run ∈ s.begun) : summary.id ≠ run := by
  rintro rfl
  obtain ⟨hclaims, hnot, -⟩ := Job.publish_next hm heffect
  exact h.not_begun (List.mem_of_getElem? ht) hclaims hnot hrun

/-- The registry does not get back the handle of a run that has begun. -/
theorem Tracked.cancel_step (h : s.Tracked) (hstep : ServerState.step cache s action = some s')
    (hrun : run ∈ s.begun) (hcancel : s.inner.cancel ≠ some run) : s'.inner.cancel ≠ some run := by
  rcases inner_step hstep with ⟨-, hinner | ⟨part, -, hinner⟩⟩ |
    ⟨summary, t, choice, job, -, ht, hfrom, hinner, -⟩
  · rwa [hinner]
  · rw [hinner]
    rcases Inner.cancel_run s.inner part with ⟨hsame, -⟩ | ⟨hnone, -⟩
    · rwa [hsame]
    · rw [hnone]
      simp
  · rw [hinner]
    intro hsome
    obtain rfl : summary.id = run := Option.some_inj.mp hsome
    exact h.publish_takes ht hfrom hrun

/-- Once the holders of a handle are woken and the registry does not have it, they stay so. -/
theorem Signalled.step (h : s.Signalled run) (htracked : s.Tracked) (hrun : run ∈ s.begun)
    (hcancel : s.inner.cancel ≠ some run) (hstep : ServerState.step cache s action = some s') :
    s'.Signalled run := by
  have hwake (cancel : RunId) (job : Job)
      (hjob : job.handle = some run → ∃ r, job = .drainer r run (.waiting true)) :
      (job.wake cancel).handle = some run →
        ∃ r, job.wake cancel = .drainer r run (.waiting true) := by
    intro hhandle
    rw [Job.handle_wake] at hhandle
    obtain ⟨r, hjob⟩ := hjob hhandle
    exact ⟨r, Job.wake_woken cancel hjob⟩
  rcases step_cases hstep with ⟨c, -, rfl⟩ | ⟨t, choice, job, m, -, ht, hm, rfl⟩ |
    ⟨effect, -, rfl⟩
  · intro job hjob hhandle
    rcases List.mem_append.mp hjob with hjob | hjob
    · exact h job hjob hhandle
    · rw [List.mem_singleton.mp hjob, (c.start_handle s.inner).1] at hhandle
      exact absurd hhandle (by simp)
  · have hnot : ¬ (job.handle = some run ∧ ∀ r, job ≠ .drainer r run (.waiting true)) := by
      rintro ⟨hhandle, hne⟩
      obtain ⟨r, hjob⟩ := h job (List.mem_of_getElem? ht) hhandle
      exact hne r hjob
    refine forall_jobs_move (fun cancel job _ => hwake cancel job) h ?_ ?_
    · intro hhandle
      rcases Job.handle_next hm hhandle with hold | ⟨summary, heffect, hid⟩ | hregistry
      · exact absurd hold hnot
      · exact absurd hid (htracked.publish_ne ht hm heffect hrun)
      · exact absurd hregistry hcancel
    · intro job' hfork hhandle
      exact absurd (Job.handle_fork hm hfork hhandle) hnot
  · exact forall_jobs_apply (fun cancel job _ => hwake cancel job) h

/-- The notification wakes every holder when all of them are waiting. -/
theorem signalled_notify {t : ℕ} {choice : Choice} {job : Job} {m : Move} {snapshot : RunSummary}
    (hjob : job = .notify snapshot (some run)) (hm : job.next cache s choice = some m)
    (hwaiting : ∀ other ∈ s.jobs, other.handle = some run → other.isWaiting) :
    (s.move t m).Signalled run := by
  subst hjob
  cases choice with
  | go now =>
      obtain rfl := Option.some_inj.mp hm
      have hwoken : ∀ job ∈ s.jobs.map (Job.wake run), job.handle = some run →
          ∃ r, job = .drainer r run (.waiting true) := by
        rw [List.forall_mem_map]
        intro other hother hhandle
        rw [Job.handle_wake] at hhandle
        have hwait := hwaiting other hother hhandle
        cases other with
        | drainer r cancel phase =>
            cases phase with
            | waiting notified =>
                obtain rfl : cancel = run := Option.some_inj.mp hhandle
                exact ⟨r, by simp [Job.wake]⟩
            | _ => simp [Job.isWaiting] at hwait
        | _ => simp [Job.isWaiting] at hwait
      intro other hother hhandle
      rw [move, List.mem_append] at hother
      rcases hother with hother | hother
      · rcases List.mem_or_eq_of_mem_set hother with hother | rfl
        · exact hwoken other hother hhandle
        · simp [Job.handle] at hhandle
      · simp at hother
  | _ => simp [Job.next] at hm

/-- A drainer that a stop has reached stays reached. -/
theorem Reached.step (h : s.Reached run) (htracked : s.Tracked) (hrun : run ∈ s.begun)
    (hcancel : s.inner.cancel ≠ some run) (hheard : Heard s action)
    (hstep : ServerState.step cache s action = some s') : s'.Reached run := by
  rcases h with ⟨job, hjob, hnotifies⟩ | hsignalled
  · obtain ⟨i, hi⟩ := List.getElem?_of_mem hjob
    rcases step_cases hstep with ⟨c, -, rfl⟩ | ⟨t, choice, mover, m, rfl, ht, hm, rfl⟩ |
      ⟨effect, -, rfl⟩
    · exact Or.inl ⟨job, List.mem_append_left _ hjob, hnotifies⟩
    · by_cases hne : t = i
      · obtain rfl := hne
        obtain rfl : mover = job := Option.some_inj.mp (ht.symm.trans hi)
        rcases Job.notifies_next hm hnotifies with hstill | ⟨snapshot, rfl, -⟩
        · exact Or.inl ⟨m.job, List.mem_of_getElem? (getElem?_move_self ht), hstill⟩
        · exact Or.inr (signalled_notify rfl hm ((hheard _ ht).1 run rfl))
      · rcases getElem?_move_of_ne (m := m) hi hne with hstays | ⟨cancel, -, hwoken⟩
        · exact Or.inl ⟨job, List.mem_of_getElem? hstays, hnotifies⟩
        · exact Or.inl ⟨job.wake cancel, List.mem_of_getElem? hwoken,
            (Job.notifies_wake cancel job).trans hnotifies⟩
    · rcases @getElem?_apply s effect i job hi with hstays | ⟨cancel, -, hwoken⟩
      · exact Or.inl ⟨job, List.mem_of_getElem? hstays, hnotifies⟩
      · exact Or.inl ⟨job.wake cancel, List.mem_of_getElem? hwoken,
          (Job.notifies_wake cancel job).trans hnotifies⟩
  · exact Or.inr (hsignalled.step htracked hrun hcancel hstep)

end ServerState

/-! ## Runs in which stops are heard -/

/-- What such runs keep: handles are those of their runs, a run without its handle has been reached
or will be, and every call of `stop_active` that has returned has reached its run's drainers. -/
structure Hearing (s : ServerState) : Prop where
  tracked : s.Tracked
  cancel : ∀ run, s.inner.cancel = some run → s.inner.IsActive run
  own : ∀ job ∈ s.jobs, job.OwnHandle
  taken : ∀ run, s.inner.IsActive run → s.inner.cancel = none → s.Reached run
  stopped : ∀ job ∈ s.jobs, ∀ snapshot, job.snapshot = some snapshot →
    snapshot.id ∈ s.begun ∧ s.inner.cancel ≠ some snapshot.id ∧ s.Reached snapshot.id
  returned : ∀ snapshot, Job.stopped snapshot ∈ s.jobs → s.Signalled snapshot.id

theorem hearing_initial : Hearing ServerState.initial where
  tracked := ServerState.tracked_initial
  cancel := fun _ hcancel => absurd hcancel (by simp [ServerState.initial])
  own := fun _ hjob => absurd hjob List.not_mem_nil
  taken := fun run hactive => absurd hactive (Inner.not_isActive rfl run)
  stopped := fun _ hjob => absurd hjob List.not_mem_nil
  returned := fun _ hjob => absurd hjob List.not_mem_nil

namespace Hearing

/-- The handle that is kept belongs to the active run. -/
theorem cancel_step (h : Hearing s) (hstep : ServerState.step cache s action = some s') :
    ∀ run, s'.inner.cancel = some run → s'.inner.IsActive run := by
  intro run hcancel
  rcases ServerState.inner_step hstep with ⟨-, hinner | ⟨part, -, hinner⟩⟩ |
    ⟨summary, t, choice, job, -, -, -, hinner, -⟩
  · rw [hinner] at hcancel ⊢
    exact h.cancel run hcancel
  · rw [hinner] at hcancel ⊢
    have hboth := part.run_cases s.inner
    rcases Inner.cancel_run s.inner part with ⟨hsame, hkeeps⟩ | ⟨hnone, -⟩
    · rw [hsame] at hcancel
      obtain ⟨active, hactive, hid⟩ := h.cancel run hcancel
      rcases hboth with ⟨hkept, -⟩ | ⟨before, active', hbefore, hchanges, hnow, -⟩ |
        ⟨before, past, -, -, hended, -⟩
      · exact ⟨active, hkept.trans hactive, hid⟩
      · obtain rfl : active = before := Option.some_inj.mp (hactive.symm.trans hbefore)
        refine ⟨active', hnow, ?_⟩
        rw [Section.id_of_changes hchanges, hid]
      · rw [hkeeps hended] at hactive
        exact absurd hactive (by simp)
    · rw [hnone] at hcancel
      exact absurd hcancel (by simp)
  · rw [hinner] at hcancel ⊢
    obtain rfl : summary.id = run := Option.some_inj.mp hcancel
    exact ⟨summary, rfl, rfl⟩

theorem own_step (h : Hearing s) (hstep : ServerState.step cache s action = some s') :
    ∀ job ∈ s'.jobs, job.OwnHandle := by
  rcases ServerState.step_cases hstep with ⟨c, -, rfl⟩ | ⟨t, choice, job, m, -, ht, hm, rfl⟩ |
    ⟨effect, -, rfl⟩
  · intro job hjob
    rcases List.mem_append.mp hjob with hjob | hjob
    · exact h.own job hjob
    · rw [List.mem_singleton.mp hjob]
      exact (c.start_handle s.inner).2
  · have hown := h.own job (List.mem_of_getElem? ht)
    exact ServerState.forall_jobs_move (fun _ _ _ hjob => Job.ownHandle_wake hjob) h.own
      (Job.ownHandle_next hm hown h.cancel) fun job' hfork => Job.ownHandle_fork hm hfork hown
  · exact ServerState.forall_jobs_apply (fun _ _ _ hjob => Job.ownHandle_wake hjob) h.own

theorem mem_begun (h : Hearing s) {run : RunId} (hactive : s.inner.IsActive run) :
    run ∈ s.begun :=
  (h.tracked.inner.listed run).mpr (Or.inl hactive)

/-- A run that has lost its handle has been reached, or its stop has just taken the handle. -/
theorem taken_step (h : Hearing s) (hheard : Heard s action)
    (hstep : ServerState.step cache s action = some s') :
    ∀ run, s'.inner.IsActive run → s'.inner.cancel = none → s'.Reached run := by
  intro run hactive hcancel
  have hkeep (hbefore : s.inner.IsActive run) (hnone : s.inner.cancel = none) : s'.Reached run :=
    (h.taken run hbefore hnone).step h.tracked (h.mem_begun hbefore) (by simp [hnone]) hheard hstep
  rcases ServerState.inner_step hstep with ⟨-, hinner | ⟨part, htakes, hinner⟩⟩ |
    ⟨summary, t, choice, job, -, -, -, hinner, -⟩
  · rw [hinner] at hactive hcancel
    exact hkeep hactive hcancel
  · rw [hinner] at hactive hcancel
    have hbefore := Section.isActive_of_run hactive
    rcases Inner.cancel_run s.inner part with ⟨hsame, -⟩ | ⟨-, hnone | ⟨now, rfl⟩⟩
    · exact hkeep hbefore (hsame.symm.trans hcancel)
    · exact absurd hactive (Inner.not_isActive hnone run)
    · cases hhad : s.inner.cancel with
      | none => exact hkeep hbefore hhad
      | some had =>
          -- the section has moved the handle into the call of `stop_active`
          obtain ⟨active, hrun, rfl⟩ := hbefore
          obtain rfl : active.id = had := (Inner.isActive_iff hrun had).mp (h.cancel had hhad)
          cases action with
          | step t choice =>
              obtain ⟨job, ht, rfl, rfl⟩ := htakes
              have hmove : s' = s.move t
                  { effect := .section (.stopActive now)
                    job := .sendStop (active.stop .userStop now) s.inner.cancel
                      s.inner.activeShadeCommands } := by
                simpa [ServerState.step, ht, Job.next, hrun] using hstep.symm
              rw [hmove]
              exact Or.inl ⟨_, List.mem_of_getElem? (ServerState.getElem?_move_self ht), by
                simp [Job.notifies, hhad]⟩
          | _ => simp [ServerState.Takes] at htakes
  · rw [hinner] at hcancel
    exact absurd hcancel (by simp [Inner.publish])

/-- A stop in progress has taken the handle of its run, and whoever waited on it is reached. -/
theorem stopped_step (h : Hearing s) (hheard : Heard s action)
    (hstep : ServerState.step cache s action = some s') :
    ∀ job ∈ s'.jobs, ∀ snapshot, job.snapshot = some snapshot →
      snapshot.id ∈ s'.begun ∧ s'.inner.cancel ≠ some snapshot.id ∧ s'.Reached snapshot.id := by
  -- a stop that was answered before stays heard
  have hold : ∀ job ∈ s.jobs, ∀ snapshot, job.snapshot = some snapshot →
      snapshot.id ∈ s'.begun ∧ s'.inner.cancel ≠ some snapshot.id ∧ s'.Reached snapshot.id := by
    intro job hjob snapshot hsnapshot
    obtain ⟨hbegun, hcancel, hreached⟩ := h.stopped job hjob snapshot hsnapshot
    exact ⟨(begun_suffix_step hstep).subset hbegun, h.tracked.cancel_step hstep hbegun hcancel,
      hreached.step h.tracked hbegun hcancel hheard hstep⟩
  have htaken := h.taken_step hheard hstep
  have hbegun := (begun_suffix_step hstep).subset
  rcases ServerState.step_cases hstep with ⟨c, -, rfl⟩ | ⟨t, choice, job, m, -, ht, hm, rfl⟩ |
    ⟨effect, -, rfl⟩
  · intro job hjob snapshot hsnapshot
    rcases List.mem_append.mp hjob with hjob | hjob
    · exact hold job hjob snapshot hsnapshot
    · rw [List.mem_singleton.mp hjob, c.start_snapshot] at hsnapshot
      exact absurd hsnapshot (by simp)
  · refine ServerState.forall_jobs_move (fun cancel job _ hjob => ?_) hold ?_ ?_
    · rwa [Job.snapshot_wake]
    · intro snapshot hsnapshot
      rcases Job.snapshot_next hm hsnapshot with hsame | ⟨active, now, -, -, hactive, rfl, heffect, -⟩
      · exact hold job (List.mem_of_getElem? ht) snapshot hsame
      -- the stop that is answered now has taken the handle and notified it
      · have hinner : (s.move t m).inner = s.inner.stopActive now := by
          change (s.apply m.effect).inner = _
          rw [heffect]
          rfl
        have hnone : (s.move t m).inner.cancel = none := by
          rw [hinner]
          simp [Inner.stopActive, hactive]
        have hnow : (s.move t m).inner.IsActive active.id := by
          rw [hinner]
          exact ⟨active.stop .userStop now, by simp [Inner.stopActive, hactive], rfl⟩
        refine ⟨hbegun (h.mem_begun ⟨active, hactive, rfl⟩), ?_, htaken _ hnow hnone⟩
        rw [hnone]
        simp
    · intro job' hfork snapshot hsnapshot
      rw [Job.snapshot_fork hm hfork] at hsnapshot
      exact absurd hsnapshot (by simp)
  · refine ServerState.forall_jobs_apply (fun cancel job _ hjob => ?_) hold
    rwa [Job.snapshot_wake]

/-- A stop that has returned has left no drainer of its run unsignalled. -/
theorem returned_step (h : Hearing s) (hheard : Heard s action)
    (hstep : ServerState.step cache s action = some s') :
    ∀ snapshot, Job.stopped snapshot ∈ s'.jobs → s'.Signalled snapshot.id := by
  have hkeep {snapshot : RunSummary} {job : Job} (hjob : job ∈ s.jobs)
      (hsnapshot : job.snapshot = some snapshot) (hsignalled : s.Signalled snapshot.id) :
      s'.Signalled snapshot.id := by
    obtain ⟨hbegun, hcancel, -⟩ := h.stopped job hjob snapshot hsnapshot
    exact hsignalled.step h.tracked hbegun hcancel hstep
  have hold : ∀ job ∈ s.jobs, ∀ snapshot, job = .stopped snapshot → s'.Signalled snapshot.id := by
    rintro job hjob snapshot rfl
    exact hkeep hjob rfl (h.returned snapshot hjob)
  have hwake (cancel : RunId) (job : Job)
      (hjob : ∀ snapshot, job = .stopped snapshot → s'.Signalled snapshot.id) :
      ∀ snapshot, job.wake cancel = .stopped snapshot → s'.Signalled snapshot.id := by
    intro snapshot hwoken
    refine hjob snapshot ?_
    unfold Job.wake at hwoken
    split at hwoken
    · simp at hwoken
    · exact hwoken
  have hall : ∀ job ∈ s'.jobs, ∀ snapshot, job = .stopped snapshot → s'.Signalled snapshot.id := by
    rcases ServerState.step_cases hstep with ⟨c, -, rfl⟩ | ⟨t, choice, job, m, rfl, ht, hm, rfl⟩ |
      ⟨effect, -, rfl⟩
    · intro job hjob snapshot hstopped
      rcases List.mem_append.mp hjob with hjob | hjob
      · exact hold job hjob snapshot hstopped
      · have hnone := c.start_snapshot s.inner
        rw [← List.mem_singleton.mp hjob, hstopped] at hnone
        exact absurd hnone (by simp [Job.snapshot])
    · refine ServerState.forall_jobs_move (fun cancel job _ => hwake cancel job) hold ?_ ?_
      · intro snapshot hstopped
        have hjob : job ∈ s.jobs := List.mem_of_getElem? ht
        have hreturning := Job.returning_of_next hm hstopped
        have hsnapshot := Job.snapshot_of_returning hreturning
        refine hkeep hjob hsnapshot ?_
        -- nobody has still to notify, so the stop has reached the holders
        rcases (h.stopped job hjob snapshot hsnapshot).2.2 with ⟨other, hother, hnotifies⟩ | hdone
        · exact absurd hnotifies ((hheard job ht).2 snapshot hreturning other hother)
        · exact hdone
      · rintro job' hfork snapshot rfl
        exact absurd (Job.snapshot_fork hm hfork) (by simp [Job.snapshot])
    · exact ServerState.forall_jobs_apply (fun cancel job _ => hwake cancel job) hold
  exact fun snapshot hjob => hall _ hjob snapshot rfl

theorem step (h : Hearing s) (hheard : Heard s action)
    (hstep : ServerState.step cache s action = some s') : Hearing s' where
  tracked := h.tracked.step hstep
  cancel := h.cancel_step hstep
  own := h.own_step hstep
  taken := h.taken_step hheard hstep
  stopped := h.stopped_step hheard hstep
  returned := h.returned_step hheard hstep

/-- After the return, a drainer of the run waits with its cancel branch ready, or has left. -/
theorem drainer_cases (h : Hearing s) {snapshot : RunSummary}
    (hreturned : Job.stopped snapshot ∈ s.jobs) {cancel : RunId} {phase : DrainerPhase}
    (hdrainer : Job.drainer snapshot.id cancel phase ∈ s.jobs) :
    phase = .waiting true ∨ ∃ reason, phase = .detaching reason := by
  have hsignalled := h.returned snapshot hreturned
  obtain rfl : snapshot.id = cancel := h.own _ hdrainer
  have hready (hhandle : (Job.drainer snapshot.id snapshot.id phase).handle = some snapshot.id) :
      phase = .waiting true := by
    obtain ⟨r, heq⟩ := hsignalled _ hdrainer hhandle
    exact (Job.drainer.inj heq).2.2
  cases phase with
  | detaching reason => exact Or.inr ⟨reason, rfl⟩
  | _ => exact Or.inl (hready rfl)

end Hearing

/-! ## From the woken drainer to the history -/

namespace ServerState

/-- The run has gone from the active one to the history. -/
def Finalized (s : ServerState) (run : RunId) : Prop :=
  ¬ s.inner.IsActive run ∧ ∃ past ∈ s.inner.history, past.id = run

/-- The job is a woken drainer of the run or on its way to `finalize_run`, or the run is there. -/
def Finalizing (s : ServerState) (t : ℕ) (run : RunId) : Prop :=
  (∃ cancel, s.jobs[t]? = some (.drainer run cancel (.waiting true))) ∨
    s.jobs[t]? = some (.finalizeTerminal run .userStop) ∨
    s.jobs[t]? = some (.finalizeRun run .userStop) ∨ s.Finalized run

variable {run : RunId}

theorem Tracked.finalized_of_not_active (h : s.Tracked) (hrun : run ∈ s.begun)
    (hnot : ¬ s.inner.IsActive run) : s.Finalized run :=
  ⟨hnot, ((h.inner.listed run).mp hrun).resolve_left hnot⟩

theorem Tracked.not_active_step (h : s.Tracked) (hstep : ServerState.step cache s action = some s')
    (hrun : run ∈ s.begun) (hnot : ¬ s.inner.IsActive run) : ¬ s'.inner.IsActive run := by
  intro hactive
  rcases inner_step hstep with ⟨-, hinner | ⟨part, -, hinner⟩⟩ |
    ⟨summary, t, choice, job, -, ht, hfrom, hinner, -⟩
  · rw [hinner] at hactive
    exact hnot hactive
  · rw [hinner] at hactive
    exact hnot (Section.isActive_of_run hactive)
  · rw [hinner] at hactive
    obtain rfl : summary.id = run := (Inner.isActive_iff rfl run).mp hactive
    exact h.publish_takes ht hfrom hrun

/-- A drainer on its way to finalize its run goes on with it, or the run is in the history. -/
theorem Finalizing.step {t : ℕ} (h : s.Finalizing t run) (htracked : s.Tracked)
    (hrun : run ∈ s.begun) (hstep : ServerState.step cache s action = some s') :
    s'.Finalizing t run := by
  have hrun' : run ∈ s'.begun := (begun_suffix_step hstep).subset hrun
  have htracked' : s'.Tracked := htracked.step hstep
  -- a job that does not move stays what it is, for a wake changes none of the three
  have hkeep {job : Job} (ht : s.jobs[t]? = some job) (hwake : ∀ cancel, job.wake cancel = job) :
      s'.jobs[t]? = some job ∨ ∃ choice m, action = .step t choice ∧
        job.next cache s choice = some m ∧ s' = s.move t m := by
    rcases step_cases hstep with ⟨c, -, rfl⟩ | ⟨t', choice, job', m, rfl, ht', hm, rfl⟩ |
      ⟨effect, -, rfl⟩
    · refine Or.inl ?_
      rw [List.getElem?_append_left (List.getElem?_eq_some_iff.mp ht).1, ht]
    · by_cases hne : t' = t
      · obtain rfl := hne
        obtain rfl : job = job' := Option.some_inj.mp (ht.symm.trans ht')
        exact Or.inr ⟨choice, m, rfl, hm, rfl⟩
      · rcases getElem?_move_of_ne (m := m) ht hne with hstays | ⟨cancel, -, hwoken⟩
        · exact Or.inl hstays
        · exact Or.inl (by rw [hwoken, hwake])
    · rcases @getElem?_apply s effect t job ht with hstays | ⟨cancel, -, hwoken⟩
      · exact Or.inl hstays
      · exact Or.inl (by rw [hwoken, hwake])
  rcases h with ⟨cancel, ht⟩ | ht | ht | ⟨hnot, -⟩
  · rcases hkeep ht (fun _ => rfl) with hstays | ⟨choice, m, -, hm, rfl⟩
    · exact Or.inl ⟨cancel, hstays⟩
    · cases choice with
      | cancelled =>
          obtain rfl := Option.some_inj.mp hm
          exact Or.inr (Or.inl (getElem?_move_self ht))
      | _ => simp [Job.next] at hm
  · rcases hkeep ht (fun _ => rfl) with hstays | ⟨choice, m, -, hm, rfl⟩
    · exact Or.inr (Or.inl hstays)
    · cases choice with
      | go now =>
          obtain rfl := Option.some_inj.mp hm
          exact Or.inr (Or.inr (Or.inl (getElem?_move_self ht)))
      | _ => simp [Job.next] at hm
  · rcases hkeep ht (fun _ => rfl) with hstays | ⟨choice, m, -, hm, rfl⟩
    · exact Or.inr (Or.inr (Or.inl hstays))
    · cases choice with
      | go now =>
          obtain rfl := Option.some_inj.mp hm
          exact Or.inr (Or.inr (Or.inr (htracked'.finalized_of_not_active hrun'
            Inner.not_isActive_finalizeRun)))
      | _ => simp [Job.next] at hm
  · exact Or.inr (Or.inr (Or.inr (htracked'.finalized_of_not_active hrun'
      (htracked.not_active_step hstep hrun hnot))))

/-- A woken drainer's next three steps finalize its run. -/
theorem finalized_of_woken {t : ℕ} {cancel : RunId} (htracked : s.Tracked) (hrun : run ∈ s.begun)
    (ht : s.jobs[t]? = some (.drainer run cancel (.waiting true))) :
    ∃ s', Runs (ServerState.step cache) Any s [.step t .cancelled, .step t (.go 0), .step t (.go 0)]
      s' ∧ s'.Finalized run := by
  have hstep (s : ServerState) {job : Job} (choice : Choice) {m : Move}
      (ht : s.jobs[t]? = some job) (hm : job.next cache s choice = some m) :
      ServerState.step cache s (.step t choice) = some (s.move t m) := by
    simp [ServerState.step, ht, hm]
  have hterminal := getElem?_move_self (m := { job := .finalizeTerminal run .userStop }) ht
  have hfinalize := getElem?_move_self
    (m := { effect := .removeTerminal run, job := .finalizeRun run .userStop }) hterminal
  have hfirst := hstep s .cancelled ht rfl
  have hsecond := hstep _ (.go 0) hterminal rfl
  have hthird := hstep _ (.go 0) hfinalize rfl
  refine ⟨_, .cons trivial hfirst (.cons trivial hsecond (.cons trivial hthird (.nil _))), ?_⟩
  have htracked' := ((htracked.step hfirst).step hsecond).step hthird
  refine htracked'.finalized_of_not_active ?_ Inner.not_isActive_finalizeRun
  exact hrun

end ServerState

theorem hearing_of_runs {actions : List Action}
    (h : Runs (ServerState.step cache) Heard .initial actions s) : Hearing s :=
  h.invariant (fun _ _ _ hinv hheard hstep => hinv.step hheard hstep) hearing_initial

/-- When stops are heard, a drainer that waits after `stop_active` has returned for its run has its
cancel branch ready, receives no other batch, and goes on to where the run is in the history. -/
theorem stop_heard {actions : List Action}
    (h : Runs (ServerState.step cache) Heard .initial actions s) {snapshot : RunSummary}
    (hreturned : Job.stopped snapshot ∈ s.jobs) :
    (∀ cancel notified, Job.drainer snapshot.id cancel (.waiting notified) ∈ s.jobs →
        notified = true) ∧
      (∀ t cancel phase events, s.jobs[t]? = some (.drainer snapshot.id cancel phase) →
        ServerState.step cache s (.step t (.received events)) = none) ∧
      ∀ t cancel, s.jobs[t]? = some (.drainer snapshot.id cancel (.waiting true)) →
        (∃ s', Runs (ServerState.step cache) Any s
          [.step t .cancelled, .step t (.go 0), .step t (.go 0)] s' ∧
            s'.Finalized snapshot.id) ∧
          ∀ later s', Runs (ServerState.step cache) Any s later s' →
            s'.Finalizing t snapshot.id := by
  have hhearing := hearing_of_runs h
  -- the snapshot is of a run that has begun, so its number is not given out again
  have hbegun : snapshot.id ∈ s.begun := (hhearing.stopped _ hreturned snapshot rfl).1
  refine ⟨?_, ?_, ?_⟩
  · intro cancel notified hdrainer
    rcases hhearing.drainer_cases hreturned hdrainer with hready | ⟨reason, hleft⟩
    · exact DrainerPhase.waiting.inj hready
    · exact absurd hleft (by simp)
  · intro t cancel phase events ht
    -- a drainer that has been woken takes its cancel branch, and one that leaves receives nothing
    rcases hhearing.drainer_cases hreturned (List.mem_of_getElem? ht) with rfl | ⟨reason, rfl⟩
    · simp [ServerState.step, ht, Job.next]
    · simp [ServerState.step, ht, Job.next]
  · intro t cancel ht
    refine ⟨ServerState.finalized_of_woken hhearing.tracked hbegun ht, fun later s' hlater => ?_⟩
    have hinv := hlater.invariant
      (p := fun x => x.Tracked ∧ snapshot.id ∈ x.begun ∧ x.Finalizing t snapshot.id)
      (fun x a x' hx _ hstep => ⟨hx.1.step hstep, (begun_suffix_step hstep).subset hx.2.1,
        hx.2.2.step hx.1 hx.2.1 hstep⟩)
      ⟨hhearing.tracked, hbegun, Or.inl ⟨cancel, ht⟩⟩
    exact hinv.2.2

/-! ## A stop while the drainer waits, and one while it applies a batch -/

/-- Whether the drainer in its `select!` has been woken, with its run and its handle. -/
def Job.waitsWith : Job → Option (RunId × RunId × Bool)
  | .drainer run cancel (.waiting notified) => some (run, cancel, notified)
  | _ => none

theorem getElem?_of_waitsWith {t : ℕ} {run cancel : RunId} {notified : Bool}
    (h : s.jobs[t]?.bind Job.waitsWith = some (run, cancel, notified)) :
    s.jobs[t]? = some (.drainer run cancel (.waiting notified)) := by
  obtain ⟨job, ht, hwaits⟩ := Option.bind_eq_some_iff.mp h
  rw [ht]
  unfold Job.waitsWith at hwaits
  split at hwaits
  · obtain ⟨rfl, rfl, rfl⟩ : _ ∧ _ ∧ _ := by simpa only [Option.some_inj, Prod.mk.injEq] using hwaits
    rfl
  · simp at hwaits

/-- The batch is applied before the stop, and `stop_active` returns. -/
def heardStop : List Action :=
  oneSampleReceived ++ ServerState.goes 1 3 ++ [.call .stopActive] ++ ServerState.goes 2 4

theorem stop_heard_heardStop :
    ∃ s, Runs (ServerState.step none) Heard .initial heardStop s ∧
      ∃ s', Runs (ServerState.step none) Any s
        [.step 1 .cancelled, .step 1 (.go 0), .step 1 (.go 0)] s' ∧ s'.Finalized 1 := by
  obtain ⟨s, hruns, hreturned, hwaits⟩ := exists_runs_of_runIf
    (p := fun s =>
      s.jobs[2]?.bind Job.returned =
        some (((RunSummary.recording 1 "a" 0).count .sample).stop .userStop 0) ∧
      s.jobs[1]?.bind Job.waitsWith = some (1, 1, true))
    (show (runIf (ServerState.step none) Heard .initial heardStop).any _ = true by
      decide +kernel)
  obtain ⟨-, -, hfinalized⟩ := stop_heard hruns (mem_jobs_of_returned hreturned)
  exact ⟨s, hruns, (hfinalized 1 1 (getElem?_of_waitsWith hwaits)).1⟩

/-- `stop_active` returns while the batch is applied, and the drainer waits again. -/
def lostStop : List Action :=
  oneSampleReceived ++ [.call .stopActive] ++ ServerState.goes 2 4 ++ ServerState.goes 1 3

theorem stop_lost :
    ∃ s snapshot, Runs (ServerState.step none) Any .initial lostStop s ∧
      Job.stopped snapshot ∈ s.jobs ∧
      s.jobs[1]? = some (.drainer snapshot.id snapshot.id (.waiting false)) ∧
      ServerState.step none s (.step 1 .cancelled) = none ∧
      (ServerState.step none s (.step 1 (.received []))).isSome := by
  obtain ⟨s, hruns, hreturned, hwaits⟩ := exists_runs_of_runIf
    (p := fun s =>
      s.jobs[2]?.bind Job.returned = some ((RunSummary.recording 1 "a" 0).stop .userStop 0) ∧
      s.jobs[1]?.bind Job.waitsWith = some (1, 1, false))
    (show (runIf (ServerState.step none) Any .initial lostStop).any _ = true by decide +kernel)
  have ht := getElem?_of_waitsWith hwaits
  refine ⟨s, _, hruns, mem_jobs_of_returned hreturned, ht, ?_, ?_⟩
  · simp [ServerState.step, ht, Job.next]
  · simp [ServerState.step, ht, Job.next]

end Stax.Server
