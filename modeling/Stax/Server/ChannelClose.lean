/-
# Stax.Server.ChannelClose — what the close of an ingest channel does to its run.

A run that a recorder opens has no shade and no process to watch: its channel is all that ties it to
the recorder.  The drainer that finds the channel closed detaches the ingest, which leaves the run
the active one.  The run is over after the close exactly when it was over before.
-/
import Stax.Server.StopRequest

namespace Stax.Server

open Stax.Lib Stax.Lib.Machine

variable {cache : Option HostCache} {s s' : ServerState} {action : Action}

/-! ## Runs whose call has published them -/

namespace Job

variable {job : Job} {choice : Choice} {m : Move} {run : RunId}

/-- A call has published its run before the step, or with it. -/
theorem begunRun_of_next (h : job.next cache s choice = some m) (hrun : m.job.begunRun = some run) :
    job.begunRun = some run ∨ ∃ summary, m.effect = .publish summary ∧ summary.id = run := by
  fun_cases Job.next cache s job choice
  case case1 starter label phase now =>
    obtain rfl := Option.some_inj.mp h
    cases phase with
    | publish r =>
        simp only [BeginPhase.next] at hrun ⊢
        split_ifs at hrun ⊢
        · simp [begunRun, claims] at hrun
        · exact Or.inr ⟨_, rfl, Option.some_inj.mp hrun⟩
    | clearStale =>
        simp only [BeginPhase.next] at hrun
        split at hrun <;> simp [begunRun, claims] at hrun
    | attachSharedCache r => cases starter <;> exact Or.inl hrun
    | resetAggregator r => exact Or.inl hrun
    | resetBinaries r => exact Or.inl hrun
    | bump r => exact Or.inl hrun
    | _ => simp [BeginPhase.next, begunRun, claims] at hrun
  all_goals
    simp only [Job.next, reduceCtorEq, Option.some_inj, if_true, if_false, *] at h <;>
      grind [claims, begunRun, drain_cases, Reaper.done_cases, Wait.poll_cases,
        Wait.orTimeout_cases]

end Job

namespace ServerState

/-- The run that a call of `begin_run` returns has begun. -/
theorem begunRun_step (h : ∀ job ∈ s.jobs, ∀ run, job.begunRun = some run → run ∈ s.begun)
    (hstep : step cache s action = some s') :
    ∀ job ∈ s'.jobs, ∀ run, job.begunRun = some run → run ∈ s'.begun := by
  have hgrows := begun_suffix_step hstep
  have hold : ∀ job ∈ s.jobs, ∀ run, job.begunRun = some run → run ∈ s'.begun :=
    fun job hjob run hrun => hgrows.subset (h job hjob run hrun)
  have hnone {job : Job} (hclaims : job.claims = none) {run : RunId} :
      job.begunRun ≠ some run := by
    intro hrun
    rw [Job.claims_of_begunRun hrun] at hclaims
    exact absurd hclaims (by simp)
  rcases step_cases hstep with ⟨c, -, rfl⟩ | ⟨t, choice, job, m, -, ht, hm, rfl⟩ |
    ⟨effect, -, rfl⟩
  · intro job hjob run hrun
    rcases List.mem_append.mp hjob with hjob | hjob
    · exact hold job hjob run hrun
    · rw [List.mem_singleton.mp hjob] at hrun
      exact absurd hrun (hnone (c.start_claims s.inner))
  · refine forall_jobs_move (fun cancel job _ hjob => ?_) hold ?_ ?_
    · rwa [Job.begunRun_wake]
    · intro run hrun
      rcases Job.begunRun_of_next hm hrun with hrun | ⟨summary, heffect, rfl⟩
      · exact hold job (List.mem_of_getElem? ht) run hrun
      · change summary.id ∈ (s.apply m.effect).begun
        rw [heffect]
        exact List.mem_cons_self
    · intro job' hfork run hrun
      have hclaims := Job.claims_fork hm
      rw [hfork] at hclaims
      exact absurd hrun (hnone hclaims)
  · refine forall_jobs_apply (fun cancel job _ hjob => ?_) hold
    rwa [Job.begunRun_wake]

theorem mem_begun_of_begunRun {actions : List Action}
    (h : Runs (ServerState.step cache) Any initial actions s) {job : Job} (hjob : job ∈ s.jobs) {run : RunId}
    (hrun : job.begunRun = some run) : run ∈ s.begun := by
  have hall := h.invariant
    (p := fun s => ∀ job ∈ s.jobs, ∀ run, job.begunRun = some run → run ∈ s.begun)
    (fun _ _ _ hinv _ hstep => begunRun_step hinv hstep)
    (fun job hjob => absurd hjob List.not_mem_nil)
  exact hall job hjob run hrun

theorem begun_suffix_of_runs {cond : ServerState → Action → Prop} {actions : List Action}
    (h : Runs (ServerState.step cache) cond s actions s') : s.begun <:+ s'.begun :=
  h.invariant (p := fun x => s.begun <:+ x.begun)
    (fun _ _ _ hsuffix _ hstep => hsuffix.trans (begun_suffix_step hstep)) (List.suffix_refl _)

/-! ## Over -/

/-- The run is in the history, stopped, and is not what a call of `begin_run` is refused for. -/
structure Over (cache : Option HostCache) (s : ServerState) (run : RunId) : Prop where
  inHistory : ∃ past ∈ s.inner.history, past.id = run ∧ past.state = .stopped
  notInTheWay : ∀ (t now : ℕ) (starter : Starter) (label : String) (next : RunId) (error : CallError)
    (m : Move), s.jobs[t]? = some (.begin starter label (.publish next)) →
    Job.next cache s (.begin starter label (.publish next)) (.go now) = some m →
    m.job = .refused error → ¬ s.inner.IsActive run

theorem Tracked.over_iff (h : s.Tracked) {run : RunId} (hrun : run ∈ s.begun) :
    s.Over cache run ↔ ¬ s.inner.IsActive run := by
  constructor
  · intro hover hactive
    obtain ⟨past, hpast, hid, -⟩ := hover.inHistory
    exact h.inner.apart run hactive past hpast hid
  · intro hnot
    obtain ⟨-, past, hpast, hid⟩ := h.finalized_of_not_active hrun hnot
    exact ⟨⟨past, hpast, hid, (h.inner.ended past hpast).state⟩, fun _ _ _ _ _ _ _ _ _ _ => hnot⟩

/-- A run that is over stays so. -/
theorem Tracked.over_of_runs (h : s.Tracked) {run : RunId} (hrun : run ∈ s.begun)
    (hnot : ¬ s.inner.IsActive run) {actions : List Action}
    (hruns : Runs (ServerState.step cache) Any s actions s') : s'.Over cache run := by
  obtain ⟨htracked, hbegun, hnot⟩ := hruns.invariant
    (p := fun x => x.Tracked ∧ run ∈ x.begun ∧ ¬ x.inner.IsActive run)
    (fun x a x' hx _ hstep => ⟨hx.1.step hstep, (begun_suffix_step hstep).subset hx.2.1,
      hx.1.not_active_step hstep hx.2.1 hx.2.2⟩)
    ⟨h, hrun, hnot⟩
  exact (htracked.over_iff hbegun).mpr hnot

end ServerState

/-! ## The close -/

section Close

variable {earlier mid : List Action} {s₀ s₂ s₃ : ServerState} {i n₀ n : ℕ} {run cancel : RunId}
  {reason : String}

/-- The drainer of a run that a recorder has opened leaves at the close of its channel, or when
receiving failed: the run is over from then on exactly when it is not the active one by then. -/
theorem close_ends_iff (hearlier : Runs (ServerState.step cache) Any .initial earlier s₀)
    (hopen : s₀.jobs[i]? = some (.startIngest run))
    (hmid : Runs (ServerState.step cache) Any s₀ (.step i (.go n₀) :: mid) s₂)
    (hclosed : s₂.jobs[s₀.jobs.length]? = some (.drainer run cancel (.detaching reason)))
    (hexit : ServerState.step cache s₂ (.step s₀.jobs.length (.go n)) = some s₃) :
    (∀ later s', Runs (ServerState.step cache) Any s₃ later s' → s'.Over cache run) ↔
      ¬ s₂.inner.IsActive run := by
  have htracked : s₃.Tracked := ServerState.tracked_of_runs (hearlier.append (hmid.append
    (Runs.cons trivial hexit (Runs.nil s₃))))
  have hbegun : run ∈ s₃.begun := by
    have hfirst : run ∈ s₀.begun :=
      ServerState.mem_begun_of_begunRun hearlier (List.mem_of_getElem? hopen) rfl
    have hthen : run ∈ s₂.begun := (ServerState.begun_suffix_of_runs hmid).subset hfirst
    exact (begun_suffix_step hexit).subset hthen
  have hsame : s₃.inner.IsActive run ↔ s₂.inner.IsActive run := by
    have hmove : ServerState.step cache s₂ (.step s₀.jobs.length (.go n)) =
        some (s₂.move s₀.jobs.length
          { effect := .section (.detachIngest run), job := .finished }) := by
      simp [ServerState.step, hclosed, Job.next]
    obtain rfl := Option.some_inj.mp (hmove.symm.trans hexit)
    exact Inner.isActive_detachIngest
  constructor
  · intro hall
    rw [← hsame]
    exact (htracked.over_iff hbegun).mp (hall [] s₃ (Runs.nil s₃))
  · intro hnot later s' hlater
    exact htracked.over_of_runs hbegun (fun hactive => hnot (hsame.mp hactive)) hlater

end Close

/-- A recorder's call that is about to spawn the drainer. -/
def recorderRun : List Action := [.call (.startRun "a")] ++ ServerState.goes 0 7

/-- The drainer misses the stop, and the next start puts the run away before the channel closes. -/
def closedAfterStop : List Action :=
  [.step 0 (.go 0), .call .stopActive] ++ ServerState.goes 2 4 ++
    [.step 1 (.go 0), .call (.startAttach "b"), .step 3 (.go 0), .step 1 .channelClosed]

theorem close_ends_closedAfterStop :
    ∃ s₀ s₂ s₃, Runs (ServerState.step none) Any .initial recorderRun s₀ ∧
      Runs (ServerState.step none) Any s₀ closedAfterStop s₂ ∧
      ServerState.step none s₂ (.step s₀.jobs.length (.go 0)) = some s₃ ∧
      ∀ later s', Runs (ServerState.step none) Any s₃ later s' → s'.Over none 1 := by
  obtain ⟨s₀, s₂, hearlier, hmid, hopen, hclosed, hnot⟩ := exists_runs_of_runIf_later
    (p := fun s₀ s₂ => s₀.jobs[0]? = some (.startIngest 1) ∧
      s₂.jobs[s₀.jobs.length]? = some (.drainer 1 1 (.detaching "channel_closed")) ∧
      ¬ s₂.inner.IsActive 1)
    (show (runIf (ServerState.step none) Any .initial recorderRun).any (fun s₀ =>
      (runIf (ServerState.step none) Any s₀ closedAfterStop).any _) = true by decide +kernel)
  have hexit : ServerState.step none s₂ (.step s₀.jobs.length (.go 0)) =
      some (s₂.move s₀.jobs.length
        { effect := .section (.detachIngest 1), job := .finished }) := by
    simp [ServerState.step, hclosed, Job.next]
  exact ⟨s₀, s₂, _, hearlier, hmid, hexit,
    (close_ends_iff hearlier hopen hmid hclosed hexit).mpr hnot⟩

/-- The recorder finishes and its channel closes. -/
def closedWhileRecording : List Action := [.step 0 (.go 0), .step 1 (.go 0), .step 1 .channelClosed]

/-- The drainer leaves, and the next start is made. -/
def startAfterClose : List Action :=
  [.step 1 (.go 0), .call (.startAttach "b")] ++ ServerState.goes 2 3

/-- A run whose channel closes while it records goes on recording, and a start is refused. -/
theorem close_keeps_recording :
    ∃ s₀ s₂ s', Runs (ServerState.step none) Any .initial recorderRun s₀ ∧
      s₀.jobs[0]? = some (.startIngest 1) ∧
      Runs (ServerState.step none) Any s₀ closedWhileRecording s₂ ∧
      s₂.jobs[1]? = some (.drainer 1 1 (.detaching "channel_closed")) ∧
      Runs (ServerState.step none) Any s₂ startAfterClose s' ∧
      s'.jobs[1]? = some .finished ∧
      s'.inner.active = some (.recording 1 "a" 0) ∧ s'.inner.history = [] ∧
      s'.jobs[2]? = some (.refused (.internal ("another run is already active; " ++
        "call RunControl::stop_active or wait_active first"))) := by
  obtain ⟨s₀, s₂, hearlier, hmid, hopen, hclosed, hlater⟩ := exists_runs_of_runIf_later
    (p := fun s₀ s₂ => s₀.jobs[0]? = some (.startIngest 1) ∧
      s₂.jobs[1]? = some (.drainer 1 1 (.detaching "channel_closed")) ∧
      (runIf (ServerState.step none) Any s₂ startAfterClose).any (fun s' =>
        s'.jobs[1]? = some .finished ∧ s'.inner.active = some (.recording 1 "a" 0) ∧
        s'.inner.history = [] ∧
        s'.jobs[2]? = some (.refused (.internal ("another run is already active; " ++
          "call RunControl::stop_active or wait_active first")))) = true)
    (show (runIf (ServerState.step none) Any .initial recorderRun).any (fun s₀ =>
      (runIf (ServerState.step none) Any s₀ closedWhileRecording).any _) = true by decide +kernel)
  obtain ⟨s', hrest, hfinished, hactive, hhistory, hrefused⟩ := exists_runs_of_runIf hlater
  exact ⟨s₀, s₂, s', hearlier, hopen, hmid, hclosed, hrest, hfinished, hactive, hhistory,
    hrefused⟩

end Stax.Server
