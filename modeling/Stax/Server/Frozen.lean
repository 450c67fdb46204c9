/-
# Stax.Server.Frozen — when a stopped run stays as it is.

A run is frozen when it is stopped: its summary does not change, and nothing is written to the
stores until the next run begins.  The events of a run are checked by its id alone, so this is so
when nothing is between its check and its write at the moment a run ends, and nothing of the run is
checked, discarded or stopped again once it is stopped.
-/
import Stax.Server.RunRegistry

namespace Stax.Server

open Stax.Lib Stax.Lib.Machine

/-! ## Stopped runs in the registry -/

namespace Inner

/-- Some run is active, and it has not been stopped. -/
def recording (inner : Inner) : Bool := inner.active.any fun active => active.state = .recording

/-- The summary is that of the active run, or in the history. -/
def Holds (inner : Inner) (summary : RunSummary) : Prop :=
  inner.active = some summary ∨ summary ∈ inner.history

/-- A stopped run that is still active was stopped by `stop_active`. -/
def UserStopped (inner : Inner) : Prop :=
  ∀ active, inner.active = some active → active.state = .stopped →
    active.stopReason = some .userStop

variable {inner : Inner} {begun : List RunId} {summary : RunSummary}

theorem recording_eq_true :
    inner.recording = true ↔ ∃ active, inner.active = some active ∧ active.state = .recording := by
  simp [recording, Option.any_eq_true]

theorem recording_eq_false :
    inner.recording = false ↔ ∀ active, inner.active = some active → active.state = .stopped := by
  rw [← Bool.not_eq_true, recording_eq_true]
  constructor
  · intro h active hactive
    cases hstate : active.state with
    | recording => exact absurd ⟨active, hactive, hstate⟩ h
    | stopped => rfl
  · rintro h ⟨active, hactive, hstate⟩
    rw [h active hactive] at hstate
    exact absurd hstate (by simp)

end Inner

/-- The section leaves the active run as it is when that run has this summary and is stopped. -/
def Section.Spares (summary : RunSummary) : Section → Prop
  | .discardStartFailed run _ _ => summary.id ≠ run
  | .stopActive now => summary.stop .userStop now = summary
  | .countEvent run tally => summary.id = run → tally = .nothing
  | .attachTarget run _ => summary.id ≠ run
  | _ => True

namespace Section

variable {part : Section} {summary active' past : RunSummary}

theorem eq_of_changes (h : part.Changes summary active') (hspares : part.Spares summary) :
    active' = summary := by
  cases part with
  | stopActive now => exact h.trans hspares
  | countEvent run tally =>
      obtain ⟨hid, rfl⟩ := h
      rw [hspares hid]
      rfl
  | attachTarget run pid => exact absurd h.1 hspares
  | _ => exact absurd h id

theorem eq_of_ends (h : part.Ends summary past) (hspares : part.Spares summary)
    (hstopped : summary.state = .stopped) : past = summary := by
  cases part with
  | clearStale => exact h.2
  | discardStartFailed run message now => exact absurd h.1 hspares
  | finalizeRun run reason now => exact h.2.trans (if_pos hstopped)
  | _ => exact absurd h id

end Section

namespace Inner

variable {inner : Inner} {begun : List RunId} {summary : RunSummary}

theorem mem_history_run {past : RunSummary} (h : past ∈ inner.history) (part : Section) :
    past ∈ (part.run inner).history := by
  rcases part.run_cases inner with ⟨-, hhistory⟩ | ⟨_, _, -, -, -, hhistory⟩ |
    ⟨_, other, -, -, -, hhistory | ⟨-, hhistory, -⟩⟩
  · rwa [hhistory]
  · rwa [hhistory]
  · rw [hhistory]
    exact List.mem_append_left _ h
  · rwa [hhistory]

/-- A stopped summary is held on by every section that spares it. -/
theorem Holds.run (hheld : inner.Holds summary) (hvalid : inner.Valid begun)
    (hstopped : summary.state = .stopped) {part : Section}
    (hspares : inner.active = some summary → part.Spares summary) :
    (part.run inner).Holds summary := by
  rcases hheld with hactive | hpast
  · rcases part.run_cases inner with ⟨hsame, -⟩ | ⟨active, active', hactive', hchanges, hnow, -⟩ |
      ⟨active, past, hactive', hends, -, hhistory | ⟨-, -, hlisted⟩⟩
    · exact Or.inl (hsame.trans hactive)
    · obtain rfl : summary = active := Option.some_inj.mp (hactive.symm.trans hactive')
      rw [Section.eq_of_changes hchanges (hspares hactive)] at hnow
      exact Or.inl hnow
    · obtain rfl : summary = active := Option.some_inj.mp (hactive.symm.trans hactive')
      refine Or.inr ?_
      rw [hhistory, Section.eq_of_ends hends (hspares hactive) hstopped]
      exact List.mem_append_right _ (List.mem_singleton_self _)
    · -- the history has no run that is active
      obtain rfl : summary = active := Option.some_inj.mp (hactive.symm.trans hactive')
      obtain ⟨other, hother, hid⟩ := hlisted
      exact absurd hid (hvalid.apart summary.id ⟨summary, hactive, rfl⟩ other hother)
  · exact Or.inr (mem_history_run hpast part)

/-- A run that is active and stopped was stopped by the user, whatever section runs. -/
theorem UserStopped.run (h : inner.UserStopped) (part : Section) :
    (part.run inner).UserStopped := by
  intro active hactive hstopped
  rcases part.run_cases inner with ⟨hsame, -⟩ | ⟨before, active', hbefore, hchanges, hnow, -⟩ |
    ⟨_, _, -, -, hnone, -⟩
  · exact h active (hsame.symm.trans hactive) hstopped
  · obtain rfl : active' = active := Option.some_inj.mp (hnow.symm.trans hactive)
    have hcount (tally : Tally) (heq : active' = before.count tally) :
        active'.stopReason = some .userStop := by
      rw [heq, RunSummary.count_state] at hstopped
      rw [heq, RunSummary.count_stopReason]
      exact h before hbefore hstopped
    cases part with
    | stopActive now =>
        rw [show active' = before.stop .userStop now from hchanges]
        rfl
    | countEvent run tally => exact hcount tally hchanges.2
    | attachTarget run pid => exact hcount (.target pid) hchanges.2
    | _ => exact absurd hchanges id
  · rw [hnone] at hactive
    exact absurd hactive (by simp)

/-- No section sets a run recording where none was. -/
theorem recording_run (h : inner.recording = false) (part : Section) :
    (part.run inner).recording = false := by
  rw [recording_eq_false] at h ⊢
  intro active hactive
  rcases part.run_cases inner with ⟨hsame, -⟩ | ⟨before, active', hbefore, hchanges, hnow, -⟩ |
    ⟨_, _, -, -, hnone, -⟩
  · exact h active (hsame.symm.trans hactive)
  · obtain rfl : active' = active := Option.some_inj.mp (hnow.symm.trans hactive)
    have hstate := h before hbefore
    cases part with
    | stopActive now =>
        rw [show active' = before.stop .userStop now from hchanges]
        rfl
    | countEvent run tally => rw [hchanges.2, RunSummary.count_state, hstate]
    | attachTarget run pid => rw [hchanges.2, RunSummary.count_state, hstate]
    | _ => exact absurd hchanges id
  · rw [hnone] at hactive
    exact absurd hactive (by simp)

end Inner

/-! ## What ends a run, and what disturbs a stopped one -/

instance (todo : Applying) : Decidable todo.Pending :=
  match todo with
  | .record w => isTrue (.record w)
  | .insert b => isTrue (.insert b)
  | .setTarget pid taskPort => isTrue (.setTarget pid taskPort)
  | .event _ | .load _ | .unload _ | .attachTarget _ _ | .bump => isFalse nofun

/-- A check that counts the event or lets it be written. -/
def Applying.admits : Applying → Bool
  | .event (.binaryLoaded _) | .event (.binaryUnloaded _) => false
  | .event _ | .load _ | .attachTarget _ _ => true
  | _ => false

namespace Job

/-- The job still writes to a store without another check: its event is checked and not yet written,
or its `begin_run` has published a run and not reset the stores or attached the shared cache. -/
def unsettled (cache : Option HostCache) : Job → Bool
  | .begin _ _ (.resetAggregator _) | .begin _ _ (.resetBinaries _) => true
  | .begin _ _ (.bump _) | .begin _ _ (.attachSharedCache _) => cache.isSome
  | .drainer _ _ (.applying todo _) | .publishing _ todo _ => todo.Pending
  | _ => false

/-- The job's section ends the active run. -/
def ends (inner : Inner) : Job → Bool
  | .markStopped => inner.active.isSome
  | .finalizeRun run _ | .discardRun run _ => inner.IsActive run
  | _ => false

/-- The job's step changes a stopped run that is active, or lets something of it be written. -/
def disturbs (inner : Inner) : Job → Choice → Bool
  | .drainer run _ (.applying todo _), _ | .publishing run todo _, _ =>
    inner.IsActive run && todo.admits
  | .discardRun run _, _ => inner.IsActive run
  | .markStopped, .go now => inner.active.any fun active => active.stoppedAtUnixNs ≠ some now
  | _, _ => false

theorem disturbs_of_applying {inner : Inner} {job : Job} {choice : Choice} {run : RunId}
    {todo : Applying} (h : job.applying = some (run, todo)) :
    job.disturbs inner choice = (decide (inner.IsActive run) && todo.admits) := by
  unfold applying at h
  split at h
  · obtain ⟨rfl, rfl⟩ := Prod.mk.inj (Option.some_inj.mp h)
    rfl
  · obtain ⟨rfl, rfl⟩ := Prod.mk.inj (Option.some_inj.mp h)
    rfl
  · simp at h

end Job

/-- A recording run is ended when no job is unsettled, and nothing disturbs a stopped one. -/
def Calm (cache : Option HostCache) (s : ServerState) : Action → Prop
  | .step t choice =>
    ∀ job ∈ s.jobs[t]?,
      if s.inner.recording then job.ends s.inner → ∀ other ∈ s.jobs, ¬ other.unsettled cache
      else ¬ job.disturbs s.inner choice
  | _ => True

instance (cache : Option HostCache) (s : ServerState) (action : Action) :
    Decidable (Calm cache s action) :=
  match action with
  | .step t choice =>
    inferInstanceAs (Decidable (∀ job ∈ s.jobs[t]?,
      if s.inner.recording then job.ends s.inner → ∀ other ∈ s.jobs, ¬ other.unsettled cache
      else ¬ job.disturbs s.inner choice))
  | .call _ | .registerShade _ _ | .shadeSessionClosed _ | .attachTerminal _ | .setPaused _ =>
    isTrue trivial

variable {cache : Option HostCache} {s s' : ServerState} {action : Action}

/-- A calm step takes no section that changes a stopped run. -/
theorem Calm.spares (hcalm : Calm cache s action) {part : Section} (htakes : s.Takes part action)
    {summary : RunSummary} (hactive : s.inner.active = some summary)
    (hstopped : summary.state = .stopped) (huser : s.inner.UserStopped) : part.Spares summary := by
  have hrecording : s.inner.recording = false := by
    rw [Inner.recording_eq_false]
    intro active hactive'
    rwa [← Option.some_inj.mp (hactive.symm.trans hactive')]
  have hisActive {run : RunId} : s.inner.IsActive run ↔ summary.id = run :=
    Inner.isActive_iff hactive run
  cases action with
  | step t choice =>
      obtain ⟨job, ht, hfrom⟩ := htakes
      have hquiet := hcalm job ht
      rw [if_neg (by simp [hrecording])] at hquiet
      cases part with
      | discardStartFailed run message now =>
          obtain ⟨rfl, rfl⟩ := hfrom
          intro hid
          exact hquiet (by simpa [Job.disturbs] using hisActive.mpr hid)
      | stopActive now =>
          obtain ⟨rfl, rfl⟩ := hfrom
          have hat : summary.stoppedAtUnixNs = some now := by
            simpa [Job.disturbs, hactive] using hquiet
          exact RunSummary.stop_eq_self hstopped (huser summary hactive hstopped) hat
      | countEvent run tally =>
          obtain ⟨hrun, e, happlying, rfl⟩ := hfrom
          intro _
          rw [Job.disturbs_of_applying happlying, decide_eq_true hrun, Bool.true_and] at hquiet
          cases e <;> first | rfl | exact absurd rfl hquiet
      | attachTarget run pid =>
          obtain ⟨hrun, taskPort, happlying⟩ := hfrom
          rw [Job.disturbs_of_applying happlying, decide_eq_true hrun] at hquiet
          exact absurd rfl hquiet
      | _ => trivial
  | registerShade info commands =>
      obtain rfl : part = .registerShade info commands := htakes
      trivial
  | shadeSessionClosed shadePid =>
      obtain rfl : part = .shadeSessionClosed shadePid := htakes
      trivial
  | _ => exact absurd htakes id

/-! ## Unsettled jobs -/

theorem Applying.admits_of_checks {todo todo' : Applying} (h : todo.Checks todo')
    (hpending : todo'.Pending) : todo.admits := by
  cases h with
  | event e =>
      cases e with
      | binaryLoaded b => cases hpending
      | binaryUnloaded b => cases hpending
      | _ => rfl
  | load b => rfl
  | attachTarget pid taskPort => rfl

namespace Job

variable {job : Job} {choice : Choice} {m : Move}

theorem unsettled_wake (cancel : RunId) (job : Job) :
    (job.wake cancel).unsettled cache = job.unsettled cache := by
  unfold wake
  split <;> rfl

theorem unsettled_of_applying {run : RunId} {todo : Applying}
    (h : job.applying = some (run, todo)) : job.unsettled cache = decide todo.Pending := by
  unfold applying at h
  split at h
  · obtain ⟨rfl, rfl⟩ := Prod.mk.inj (Option.some_inj.mp h)
    rfl
  · obtain ⟨rfl, rfl⟩ := Prod.mk.inj (Option.some_inj.mp h)
    rfl
  · simp at h

/-- A job is unsettled by publishing a run or by a check that lets an event through. -/
theorem unsettled_next (h : job.next cache s choice = some m) (hrest : job.RestUnchecked)
    (hunsettled : m.job.unsettled cache) :
    job.unsettled cache ∨ (∃ summary, m.effect = .publish summary) ∨
      ∃ run todo, job.applying = some (run, todo) ∧ todo.admits ∧ s.inner.IsActive run := by
  have happlies (run : RunId) (todo' : Applying) (happlying : m.job.applying = some (run, todo')) :
      ∃ run todo, job.applying = some (run, todo) ∧ todo.admits ∧ s.inner.IsActive run := by
    rw [unsettled_of_applying happlying, decide_eq_true_iff] at hunsettled
    obtain ⟨todo, hjob, hchecks, hactive⟩ := applying_next h hrest happlying hunsettled
    exact ⟨run, todo, hjob, Applying.admits_of_checks hchecks hunsettled, hactive⟩
  cases hjob : m.job with
  | drainer run cancel phase =>
      cases phase with
      | applying todo rest => exact Or.inr (Or.inr (happlies run todo (by rw [hjob]; rfl)))
      | _ => simp [hjob, unsettled] at hunsettled
  | publishing run todo rest => exact Or.inr (Or.inr (happlies run todo (by rw [hjob]; rfl)))
  | «begin» starter label phase' =>
      obtain ⟨phase, now, rfl, rfl⟩ := begin_of_next h hjob
      cases phase with
      | publish run =>
          simp only [BeginPhase.next] at hjob ⊢
          split_ifs at hjob ⊢
          exact Or.inr (Or.inl ⟨_, rfl⟩)
      | attachSharedCache run =>
          cases starter <;> simp [BeginPhase.next, Starter.afterBegin] at hjob
      | resetAggregator run => exact Or.inl rfl
      | resetBinaries run => exact Or.inl rfl
      | bump run => exact Or.inl hunsettled
      | clearStale =>
          simp only [BeginPhase.next] at hunsettled
          split at hunsettled <;> simp [unsettled] at hunsettled
      | reapStale child => simp [BeginPhase.next, unsettled] at hunsettled
      | fetchId => simp [BeginPhase.next, unsettled] at hunsettled
  | _ => simp [hjob, unsettled] at hunsettled

theorem unsettled_fork {job' : Job} (h : job.next cache s choice = some m)
    (hfork : m.fork = some job') : job'.unsettled cache = false := by
  fun_cases Job.next cache s job choice
  all_goals
    simp only [Job.next, reduceCtorEq, Option.some_inj, if_true, if_false, *] at h <;>
      grind [unsettled, BeginPhase.next_cases]

/-- A job that is settled leaves the stores as they are. -/
theorem stores_apply (h : job.next cache s choice = some m)
    (hsettled : job.unsettled cache = false) :
    (s.apply m.effect).aggregator = s.aggregator ∧ (s.apply m.effect).binaries = s.binaries := by
  have hfrom := effect_next h
  have hnot {run : RunId} {todo : Applying} (happlying : job.applying = some (run, todo))
      (hpending : todo.Pending) : False := by
    rw [unsettled_of_applying happlying, decide_eq_false_iff_not] at hsettled
    exact hsettled hpending
  cases heffect : m.effect with
  | record run w =>
      rw [heffect] at hfrom
      exact absurd (.record w) (hnot hfrom)
  | resetAggregator =>
      rw [heffect] at hfrom
      obtain ⟨starter, label, run, rfl⟩ := hfrom
      simp [unsettled] at hsettled
  | resetBinaries =>
      rw [heffect] at hfrom
      obtain ⟨starter, label, run, rfl⟩ := hfrom
      simp [unsettled] at hsettled
  | register run w =>
      rw [heffect] at hfrom
      rcases hfrom with ⟨starter, label, rfl, -⟩ | ⟨b, -, happlying⟩ |
        ⟨pid, taskPort, -, happlying⟩
      · -- without a shared cache there is nothing to attach
        obtain rfl : cache = none := by simpa [unsettled] using hsettled
        cases choice with
        | go now =>
            obtain rfl := Option.some_inj.mp h
            simp [BeginPhase.next] at heffect
        | _ => simp [next] at h
      · exact absurd (.insert b) (hnot happlying)
      · exact absurd (.setTarget pid taskPort) (hnot happlying)
  | _ => exact ⟨rfl, rfl⟩

end Job

/-- A call that has just come in is not in the middle of a change. -/
theorem Call.start_settled (c : Call) (inner : Inner) :
    (c.start inner).unsettled cache = false := by
  have hnot := (c.start_unchecked inner).2
  cases happlying : (c.start inner).applying with
  | some p =>
      rw [Job.unsettled_of_applying happlying, decide_eq_false_iff_not]
      exact hnot p.1 p.2 happlying
  | none =>
      cases c with
      | publishTargetAttached run pid taskPort => simp [Call.start, publishAll, Job.applying] at happlying
      | publishBinariesLoaded run binaries =>
          cases binaries with
          | nil => rfl
          | cons b rest => simp [Call.start, publishAll, Job.applying] at happlying
      | publishBinariesUnloaded run binaries =>
          cases binaries with
          | nil => rfl
          | cons b rest => simp [Call.start, publishAll, Job.applying] at happlying
      | _ => rfl

/-! ## Ending a run -/

theorem Inner.recording_of_active {inner other : Inner} (h : other.active = inner.active) :
    other.recording = inner.recording := by
  unfold Inner.recording
  rw [h]

/-- A run that is recording ends by the section of a job that ends it. -/
theorem ends_of_recording (hstep : ServerState.step cache s action = some s')
    (hbefore : s.inner.recording = true) (hafter : s'.inner.recording = false) :
    ∃ t choice job, action = .step t choice ∧ s.jobs[t]? = some job ∧ job.ends s.inner := by
  obtain ⟨active, hactive, hstate⟩ := Inner.recording_eq_true.mp hbefore
  have hisActive {run : RunId} : s.inner.IsActive run ↔ active.id = run :=
    Inner.isActive_iff hactive run
  rcases ServerState.inner_step hstep with ⟨-, hinner | ⟨part, htakes, hinner⟩⟩ |
    ⟨summary, t, choice, job, -, -, hfrom, -, -⟩
  · rw [hinner, hbefore] at hafter
    exact absurd hafter (by simp)
  · rw [hinner] at hafter
    -- counting an event stops nothing
    have hcount (tally : Tally)
        (hnow : (part.run s.inner).active = some (active.count tally)) : False := by
      have hstopped := Inner.recording_eq_false.mp hafter _ hnow
      rw [RunSummary.count_state, hstate] at hstopped
      exact absurd hstopped (by simp)
    rcases part.run_cases s.inner with ⟨hsame, -⟩ | ⟨before, active', hbefore', hchanges, hnow, -⟩ |
      ⟨before, past, hbefore', hends, -, -⟩
    · rw [Inner.recording_of_active hsame, hbefore] at hafter
      exact absurd hafter (by simp)
    · obtain rfl : active = before := Option.some_inj.mp (hactive.symm.trans hbefore')
      -- of the sections that change the active run only a stop changes its state
      cases part with
      | stopActive now =>
          cases action with
          | step t choice =>
              obtain ⟨job, ht, rfl, -⟩ := htakes
              exact ⟨t, choice, _, rfl, ht, by simp [Job.ends, hactive]⟩
          | _ => simp [ServerState.Takes] at htakes
      | countEvent run tally =>
          obtain ⟨-, rfl⟩ := hchanges
          exact absurd hnow (hcount tally)
      | attachTarget run pid =>
          obtain ⟨-, rfl⟩ := hchanges
          exact absurd hnow (hcount (.target pid))
      | _ => exact absurd hchanges id
    · obtain rfl : active = before := Option.some_inj.mp (hactive.symm.trans hbefore')
      -- of the sections that put it away, clearing a stale run needs one that is over already
      cases part with
      | clearStale =>
          have hstopped : active.state = .stopped := hends.1
          rw [hstate] at hstopped
          exact absurd hstopped (by simp)
      | discardStartFailed run message now =>
          cases action with
          | step t choice =>
              obtain ⟨job, ht, rfl, -⟩ := htakes
              exact ⟨t, choice, _, rfl, ht, by simpa [Job.ends] using hisActive.mpr hends.1⟩
          | _ => simp [ServerState.Takes] at htakes
      | finalizeRun run reason now =>
          cases action with
          | step t choice =>
              obtain ⟨job, ht, rfl, -⟩ := htakes
              exact ⟨t, choice, _, rfl, ht, by simpa [Job.ends] using hisActive.mpr hends.1⟩
          | _ => simp [ServerState.Takes] at htakes
      | _ => exact absurd hends id
  · rw [hfrom.1] at hactive
    exact absurd hactive (by simp)

theorem Job.settled_of_ends {job : Job} (h : job.ends s.inner) :
    job.unsettled cache = false ∧ job.applying = none := by
  cases job with
  | markStopped => exact ⟨rfl, rfl⟩
  | finalizeRun run reason => exact ⟨rfl, rfl⟩
  | discardRun run message => exact ⟨rfl, rfl⟩
  | _ => simp [Job.ends] at h

/-! ## The snapshots of `stop_active` -/

/-- The summary that a call of `stop_active` has taken and will return, or has returned. -/
def Job.snapshot : Job → Option RunSummary
  | .sendStop snapshot _ _ | .notify snapshot _ | .takeChild (.stopActive snapshot)
  | .reap (.stopActive snapshot) _ | .stopped snapshot => some snapshot
  | _ => none

namespace Job

variable {job : Job} {choice : Choice} {m : Move}

theorem snapshot_wake (cancel : RunId) (job : Job) : (job.wake cancel).snapshot = job.snapshot := by
  unfold wake
  split <;> rfl

theorem snapshot_reap (reaper : Reaper) (child : ShadeChild) :
    (Job.reap reaper child).snapshot = (Job.takeChild reaper).snapshot := by
  cases reaper <;> rfl

/-- A snapshot is taken in the section that stops the run. -/
theorem snapshot_next {snap : RunSummary} (h : job.next cache s choice = some m)
    (hsnapshot : m.job.snapshot = some snap) :
    job.snapshot = some snap ∨
      ∃ active now, job = .markStopped ∧ choice = .go now ∧ s.inner.active = some active ∧
        snap = active.stop .userStop now ∧ m.effect = .section (.stopActive now) ∧
        m.job = .sendStop snap s.inner.cancel s.inner.activeShadeCommands := by
  fun_cases Job.next cache s job choice
  all_goals
    simp only [Job.next, reduceCtorEq, Option.some_inj, if_true, if_false, *] at h <;>
      grind [Job.snapshot, snapshot_reap, drain_cases, Reaper.done_cases, Wait.poll_cases, Wait.orTimeout_cases,
        BeginPhase.next_cases, Starter.afterBegin_cases]

theorem snapshot_fork {job' : Job} (h : job.next cache s choice = some m)
    (hfork : m.fork = some job') : job'.snapshot = none := by
  fun_cases Job.next cache s job choice
  all_goals
    simp only [Job.next, reduceCtorEq, Option.some_inj, if_true, if_false, *] at h <;>
      grind [Job.snapshot, BeginPhase.next_cases]

end Job

theorem Call.start_snapshot (c : Call) (inner : Inner) : (c.start inner).snapshot = none := by
  cases c with
  | publishBinariesLoaded run binaries => cases binaries <;> rfl
  | publishBinariesUnloaded run binaries => cases binaries <;> rfl
  | _ => rfl

/-! ## Calm runs -/

/-- What calm runs keep: nothing is unsettled while no run is recording, and the registry has the
snapshots of `stop_active`. -/
structure Settled (cache : Option HostCache) (s : ServerState) : Prop where
  tracked : s.Tracked
  rest : ∀ job ∈ s.jobs, job.RestUnchecked
  user : s.inner.UserStopped
  quiet : s.inner.recording = false → ∀ job ∈ s.jobs, job.unsettled cache = false
  snapshots : ∀ job ∈ s.jobs, ∀ snapshot, job.snapshot = some snapshot →
    snapshot.state = .stopped ∧ s.inner.Holds snapshot

theorem settled_initial : Settled cache ServerState.initial where
  tracked := ServerState.tracked_initial
  rest := fun _ hjob => absurd hjob List.not_mem_nil
  user := fun _ hactive => absurd hactive (by simp [ServerState.initial])
  quiet := fun _ _ hjob => absurd hjob List.not_mem_nil
  snapshots := fun _ hjob => absurd hjob List.not_mem_nil

namespace Settled

theorem holds_step (h : Settled cache s) (hcalm : Calm cache s action)
    (hstep : ServerState.step cache s action = some s') {summary : RunSummary}
    (hheld : s.inner.Holds summary) (hstopped : summary.state = .stopped) :
    s'.inner.Holds summary := by
  rcases ServerState.inner_step hstep with ⟨-, hinner | ⟨part, htakes, hinner⟩⟩ |
    ⟨published, t, choice, job, -, -, hfrom, hinner, -⟩
  · rwa [hinner]
  · rw [hinner]
    exact hheld.run h.tracked.inner hstopped fun hactive =>
      hcalm.spares htakes hactive hstopped h.user
  · rw [hinner]
    rcases hheld with hactive | hpast
    · rw [hfrom.1] at hactive
      exact absurd hactive (by simp)
    · exact Or.inr hpast

theorem user_step (h : Settled cache s) (hstep : ServerState.step cache s action = some s') :
    s'.inner.UserStopped := by
  rcases ServerState.inner_step hstep with ⟨-, hinner | ⟨part, -, hinner⟩⟩ |
    ⟨published, t, choice, job, -, -, hfrom, hinner, -⟩
  · rw [hinner]
    exact h.user
  · rw [hinner]
    exact h.user.run part
  · intro active hactive hstate
    rw [hinner] at hactive
    obtain rfl : published = active := Option.some_inj.mp hactive
    rw [hfrom.2.1] at hstate
    exact absurd hstate (by simp)

/-- The job that moves is settled afterwards unless it publishes or a run records. -/
theorem settled_move (h : Settled cache s) {t : ℕ} {choice : Choice} {job : Job} {m : Move}
    (hcalm : Calm cache s (.step t choice)) (ht : s.jobs[t]? = some job)
    (hm : job.next cache s choice = some m)
    (hafter : (s.move t m).inner.recording = false) :
    (∀ other ∈ s.jobs, other.unsettled cache = false) ∧ m.job.unsettled cache = false := by
  have hmem : job ∈ s.jobs := List.mem_of_getElem? ht
  have hstep : ServerState.step cache s (.step t choice) = some (s.move t m) := by
    simp [ServerState.step, ht, hm]
  -- a run that is published records
  have hnotPublish : ∀ summary, m.effect ≠ .publish summary := by
    intro summary heffect
    obtain ⟨-, -, -, hrecording, -⟩ := Job.publish_next hm heffect
    have hactive : (s.move t m).inner.active = some summary := by
      change (s.apply m.effect).inner.active = some summary
      rw [heffect]
      rfl
    rw [Inner.recording_eq_false] at hafter
    rw [hafter summary hactive] at hrecording
    exact absurd hrecording (by simp)
  cases hbefore : s.inner.recording with
  | false =>
      -- nothing recorded before: only a job that is admitted by the check could be unsettled now
      have hquiet := h.quiet hbefore
      refine ⟨hquiet, ?_⟩
      by_contra hunsettled
      rw [Bool.not_eq_false] at hunsettled
      rcases Job.unsettled_next hm (h.rest job hmem) hunsettled with hold | ⟨summary, heffect⟩ |
        ⟨run, todo, happlying, hadmits, hactive⟩
      · rw [hquiet job hmem] at hold
        exact absurd hold (by simp)
      · exact hnotPublish summary heffect
      · have hcalm := hcalm job ht
        rw [if_neg (by simp [hbefore]), Job.disturbs_of_applying happlying] at hcalm
        exact hcalm (by simp [hactive, hadmits])
  | true =>
      -- this very job has ended the recording, and the condition is on that step
      obtain ⟨t', choice', ender, haction, ht', hends⟩ := ends_of_recording hstep hbefore hafter
      obtain ⟨rfl, rfl⟩ := Action.step.inj haction
      obtain rfl : job = ender := Option.some_inj.mp (ht.symm.trans ht')
      have hcalm := hcalm job ht
      rw [if_pos hbefore] at hcalm
      refine ⟨fun other hother => by simpa using hcalm hends other hother, ?_⟩
      obtain ⟨hsettled, hnone⟩ := Job.settled_of_ends hends
      by_contra hunsettled
      rw [Bool.not_eq_false] at hunsettled
      rcases Job.unsettled_next hm (h.rest job hmem) hunsettled with hold | ⟨summary, heffect⟩ |
        ⟨run, todo, happlying, -, -⟩
      · rw [hsettled] at hold
        exact absurd hold (by simp)
      · exact hnotPublish summary heffect
      · rw [hnone] at happlying
        exact absurd happlying (by simp)

/-- Once no run records, no job is in the middle of a change. -/
theorem quiet_step (h : Settled cache s) (hcalm : Calm cache s action)
    (hstep : ServerState.step cache s action = some s') :
    s'.inner.recording = false → ∀ job ∈ s'.jobs, job.unsettled cache = false := by
  intro hafter
  rcases ServerState.step_cases hstep with ⟨c, rfl, rfl⟩ | ⟨t, choice, job, m, rfl, ht, hm, rfl⟩ |
    ⟨effect, heffect, rfl⟩
  · intro job hjob
    rcases List.mem_append.mp hjob with hjob | hjob
    · exact h.quiet hafter job hjob
    · rw [List.mem_singleton.mp hjob]
      exact c.start_settled s.inner
  · obtain ⟨hothers, hjob⟩ := h.settled_move hcalm ht hm hafter
    exact ServerState.forall_jobs_move
      (fun cancel job _ hsettled => (Job.unsettled_wake cancel job).trans hsettled) hothers hjob
      fun job' hfork => Job.unsettled_fork hm hfork
  · have hbefore : s.inner.recording = false := by
      by_contra hrecording
      rw [Bool.not_eq_false] at hrecording
      obtain ⟨t, choice, job, rfl, -, -⟩ := ends_of_recording hstep hrecording hafter
      simp [ServerState.effectOf] at heffect
    exact ServerState.forall_jobs_apply
      (fun cancel job _ hsettled => (Job.unsettled_wake cancel job).trans hsettled)
      (h.quiet hbefore)

/-- What a stop has answered is a stopped run that the registry holds unchanged. -/
theorem snapshots_step (h : Settled cache s) (hcalm : Calm cache s action)
    (hstep : ServerState.step cache s action = some s') :
    ∀ job ∈ s'.jobs, ∀ snapshot, job.snapshot = some snapshot →
      snapshot.state = .stopped ∧ s'.inner.Holds snapshot := by
  have hold : ∀ job ∈ s.jobs, ∀ snapshot, job.snapshot = some snapshot →
      snapshot.state = .stopped ∧ s'.inner.Holds snapshot := by
    intro job hjob snapshot hsnapshot
    obtain ⟨hstopped, hheld⟩ := h.snapshots job hjob snapshot hsnapshot
    exact ⟨hstopped, h.holds_step hcalm hstep hheld hstopped⟩
  have hwake (cancel : RunId) (job : Job)
      (hjob : ∀ snapshot, job.snapshot = some snapshot →
        snapshot.state = .stopped ∧ s'.inner.Holds snapshot) :
      ∀ snapshot, (job.wake cancel).snapshot = some snapshot →
        snapshot.state = .stopped ∧ s'.inner.Holds snapshot := by
    rw [Job.snapshot_wake]
    exact hjob
  rcases ServerState.step_cases hstep with ⟨c, -, rfl⟩ | ⟨t, choice, job, m, -, ht, hm, rfl⟩ |
    ⟨effect, -, rfl⟩
  · intro job hjob snapshot hsnapshot
    rcases List.mem_append.mp hjob with hjob | hjob
    · exact hold job hjob snapshot hsnapshot
    · rw [List.mem_singleton.mp hjob, Call.start_snapshot] at hsnapshot
      exact absurd hsnapshot (by simp)
  · refine ServerState.forall_jobs_move (fun cancel job _ => hwake cancel job) hold ?_ ?_
    · intro snapshot hsnapshot
      rcases Job.snapshot_next hm hsnapshot with hsame | ⟨active, now, -, -, hactive, rfl, heffect, -⟩
      · exact hold job (List.mem_of_getElem? ht) snapshot hsame
      · refine ⟨rfl, Or.inl ?_⟩
        change (s.apply m.effect).inner.active = _
        rw [heffect]
        simp [ServerState.apply, Section.run, Inner.stopActive, hactive]
    · intro job' hfork snapshot hsnapshot
      rw [Job.snapshot_fork hm hfork] at hsnapshot
      exact absurd hsnapshot (by simp)
  · exact ServerState.forall_jobs_apply (fun cancel job _ => hwake cancel job) hold

theorem step (h : Settled cache s) (hcalm : Calm cache s action)
    (hstep : ServerState.step cache s action = some s') : Settled cache s' where
  tracked := h.tracked.step hstep
  rest := ServerState.restUnchecked_step h.rest hstep
  user := h.user_step hstep
  quiet := h.quiet_step hcalm hstep
  snapshots := h.snapshots_step hcalm hstep

/-- While no run is recording and none begins, a calm step leaves the stores as they are. -/
theorem stores_step (h : Settled cache s) (hcalm : Calm cache s action)
    (hstep : ServerState.step cache s action = some s') (hnone : s.inner.recording = false)
    (hbegun : s'.begun = s.begun) :
    s'.aggregator = s.aggregator ∧ s'.binaries = s.binaries ∧ s'.inner.recording = false := by
  have hafter : s'.inner.recording = false := by
    rcases ServerState.inner_step hstep with ⟨-, hinner | ⟨part, -, hinner⟩⟩ |
      ⟨published, t, choice, job, -, -, -, -, hmore⟩
    · rwa [hinner]
    · rw [hinner]
      exact Inner.recording_run hnone part
    · rw [hbegun] at hmore
      exact absurd hmore (by simp)
  rcases ServerState.step_cases hstep with ⟨c, rfl, rfl⟩ | ⟨t, choice, job, m, rfl, ht, hm, rfl⟩ |
    ⟨effect, heffect, rfl⟩
  · exact ⟨rfl, rfl, hafter⟩
  · obtain ⟨haggregator, hbinaries⟩ :=
      Job.stores_apply hm (h.quiet hnone job (List.mem_of_getElem? ht))
    exact ⟨haggregator, hbinaries, hafter⟩
  · cases action with
    | registerShade info commands =>
        obtain rfl := Option.some_inj.mp heffect
        exact ⟨rfl, rfl, hafter⟩
    | shadeSessionClosed shadePid =>
        obtain rfl := Option.some_inj.mp heffect
        exact ⟨rfl, rfl, hafter⟩
    | attachTerminal run =>
        obtain rfl := Option.some_inj.mp heffect
        exact ⟨rfl, rfl, hafter⟩
    | setPaused paused =>
        obtain rfl := Option.some_inj.mp heffect
        exact ⟨rfl, rfl, hafter⟩
    | _ => simp [ServerState.effectOf] at heffect

end Settled

theorem begun_suffix_step (hstep : ServerState.step cache s action = some s') :
    s.begun <:+ s'.begun := by
  rcases ServerState.inner_step hstep with ⟨hbegun, -⟩ | ⟨summary, t, choice, job, -, -, -, -, hbegun⟩
  · rw [hbegun]
  · rw [hbegun]
    exact List.suffix_cons _ _

theorem settled_of_runs {actions : List Action}
    (h : Runs (ServerState.step cache) (Calm cache) .initial actions s) : Settled cache s :=
  h.invariant (fun _ _ _ hinv hcalm hstep => hinv.step hcalm hstep) settled_initial

/-- Until the next run begins, calm steps leave the stores as they are once no run is recording. -/
theorem Settled.stores_of_runs (h : Settled cache s) {actions : List Action}
    (hruns : Runs (ServerState.step cache) (Calm cache) s actions s')
    (hnone : s.inner.recording = false) (hbegun : s'.begun = s.begun) :
    s'.aggregator = s.aggregator ∧ s'.binaries = s.binaries := by
  have hinv := hruns.invariant
    (p := fun x => Settled cache x ∧ s.begun <:+ x.begun ∧ (x.begun = s.begun →
      x.aggregator = s.aggregator ∧ x.binaries = s.binaries ∧ x.inner.recording = false))
    (fun x a x' hx hcalm hstep => by
      obtain ⟨hsettled, hsuffix, hsame⟩ := hx
      have hgrows := begun_suffix_step hstep
      refine ⟨hsettled.step hcalm hstep, hsuffix.trans hgrows, fun hnow => ?_⟩
      -- a run that began on the way would still be listed
      have hthen : x.begun = s.begun :=
        (hsuffix.eq_of_length_le (hnow ▸ hgrows).length_le).symm
      obtain ⟨haggregator, hbinaries, hquiet⟩ := hsame hthen
      obtain ⟨haggregator', hbinaries', hquiet'⟩ :=
        hsettled.stores_step hcalm hstep hquiet (hnow.trans hthen.symm)
      exact ⟨haggregator'.trans haggregator, hbinaries'.trans hbinaries, hquiet'⟩)
    ⟨h, List.suffix_refl _, fun _ => ⟨rfl, rfl, hnone⟩⟩
  obtain ⟨haggregator, hbinaries, -⟩ := hinv.2.2 hbegun
  exact ⟨haggregator, hbinaries⟩

/-- In calm runs a stopped run keeps its summary, the stores keep what they have until the next run
begins, and what `stop_active` returns is what the history has of the run. -/
theorem stopped_frozen {earlier later : List Action}
    (hearlier : Runs (ServerState.step cache) (Calm cache) .initial earlier s)
    (hlater : Runs (ServerState.step cache) (Calm cache) s later s') :
    (∀ summary : RunSummary, summary.state = .stopped →
        s.inner.active = some summary ∨ summary ∈ s.inner.history →
        s'.inner.active = some summary ∨ summary ∈ s'.inner.history) ∧
      ((∀ active, s.inner.active = some active → active.state = .stopped) →
        s'.begun = s.begun → s'.aggregator = s.aggregator ∧ s'.binaries = s.binaries) ∧
      ∀ snapshot, Job.stopped snapshot ∈ s'.jobs →
        (s'.inner.active = some snapshot ∨ snapshot ∈ s'.inner.history) ∧
          ∀ past ∈ s'.inner.history, past.id = snapshot.id → past = snapshot := by
  have hsettled := settled_of_runs hearlier
  have hsettled' := settled_of_runs (hearlier.append hlater)
  refine ⟨?_, ?_, ?_⟩
  · intro summary hstopped hheld
    have hinv := hlater.invariant (p := fun x => Settled cache x ∧ x.inner.Holds summary)
      (fun x a x' hx hcalm hstep =>
        ⟨hx.1.step hcalm hstep, hx.1.holds_step hcalm hstep hx.2 hstopped⟩) ⟨hsettled, hheld⟩
    exact hinv.2
  · intro hstopped hbegun
    exact hsettled.stores_of_runs hlater (Inner.recording_eq_false.mpr hstopped) hbegun
  · intro snapshot hjob
    obtain ⟨-, hheld⟩ := hsettled'.snapshots _ hjob snapshot rfl
    refine ⟨hheld, fun past hpast hid => ?_⟩
    have hvalid := hsettled'.tracked.inner
    rcases hheld with hactive | hmem
    · exact absurd hid (hvalid.apart snapshot.id ⟨snapshot, hactive, rfl⟩ past hpast)
    · exact List.inj_on_of_nodup_map hvalid.nodup hpast hmem hid

/-! ## A stop between batches, and one within -/

/-- What a call of `stop_active` has returned. -/
def Job.returned : Job → Option RunSummary
  | .stopped snapshot => some snapshot
  | _ => none

theorem mem_jobs_of_returned {t : ℕ} {snapshot : RunSummary}
    (h : s.jobs[t]?.bind Job.returned = some snapshot) : Job.stopped snapshot ∈ s.jobs := by
  obtain ⟨job, ht, hreturned⟩ := Option.bind_eq_some_iff.mp h
  have hmem := List.mem_of_getElem? ht
  cases job with
  | stopped other =>
      obtain rfl := Option.some_inj.mp hreturned
      exact hmem
  | _ => simp [Job.returned] at hreturned

/-- A recorder's run whose drainer has received a batch of one sample. -/
def oneSampleReceived : List Action :=
  [.call (.startRun "a")] ++ ServerState.goes 0 8 ++ [.step 1 (.go 0), .step 1 (.received
    [.sample { timestampNs := 5, tid := 7, kernelBacktrace := [], userBacktrace := [16], pmc := {} }])]

/-- The sample is counted and recorded, and the run is stopped. -/
def stoppedBetween : List Action :=
  oneSampleReceived ++ ServerState.goes 1 3 ++ [.call .stopActive] ++ ServerState.goes 2 1

/-- `stop_active` returns, and the drainer it has woken finalizes the run. -/
def finalized : List Action :=
  ServerState.goes 2 3 ++ [.step 1 .cancelled] ++ ServerState.goes 1 2

theorem stopped_frozen_stoppedBetween :
    ∃ s s', Runs (ServerState.step none) (Calm none) .initial stoppedBetween s ∧
      Runs (ServerState.step none) (Calm none) s finalized s' ∧
      ∃ snapshot, s.inner.active = some snapshot ∧ snapshot.petSamples = 1 ∧
        Job.stopped snapshot ∈ s'.jobs ∧ s'.inner.history.map RunSummary.id = [snapshot.id] ∧
        snapshot ∈ s'.inner.history ∧ s'.aggregator = s.aggregator := by
  obtain ⟨s, s', hearlier, hlater, hactive, hbegun, hnone, hhistory, hreturned⟩ :=
    exists_runs_of_runIf_later
      (p := fun s s' =>
        s.inner.active = some (((RunSummary.recording 1 "a" 0).count .sample).stop .userStop 0) ∧
        s'.begun = s.begun ∧ s'.inner.active = none ∧ s'.inner.history.map RunSummary.id = [1] ∧
        s'.jobs[2]?.bind Job.returned =
          some (((RunSummary.recording 1 "a" 0).count .sample).stop .userStop 0))
      (show (runIf (ServerState.step none) (Calm none) .initial stoppedBetween).any (fun s =>
        (runIf (ServerState.step none) (Calm none) s finalized).any _) = true by decide +kernel)
  obtain ⟨hkept, hstores, -⟩ := stopped_frozen hearlier hlater
  have hstopped : ∀ active, s.inner.active = some active → active.state = .stopped := by
    intro active hactive'
    rw [← Option.some_inj.mp (hactive.symm.trans hactive')]
    rfl
  refine ⟨s, s', hearlier, hlater, _, hactive, rfl, mem_jobs_of_returned hreturned, hhistory, ?_,
    (hstores hstopped hbegun).1⟩
  rcases hkept _ rfl (Or.inl hactive) with hstill | hpast
  · rw [hnone] at hstill
    exact absurd hstill (by simp)
  · exact hpast

/-- The run is stopped before the batch that was received is applied. -/
def stoppedWithin : List Action :=
  oneSampleReceived ++ [.call .stopActive] ++ ServerState.goes 2 1

/-- The batch is applied, `stop_active` returns, and the next start puts the stopped run away. -/
def appliedAfterwards : List Action :=
  ServerState.goes 1 3 ++ ServerState.goes 2 3 ++ [.call (.startAttach "b")] ++
    ServerState.goes 3 1

theorem stopped_not_frozen :
    ∃ s s', Runs (ServerState.step none) Any .initial stoppedWithin s ∧
      Runs (ServerState.step none) Any s appliedAfterwards s' ∧ s'.begun = s.begun ∧
      ∃ snapshot past, s.inner.active = some snapshot ∧ snapshot.state = .stopped ∧
        Job.stopped snapshot ∈ s'.jobs ∧ s'.inner.active = none ∧ s'.inner.history = [past] ∧
        past.id = snapshot.id ∧ past.petSamples ≠ snapshot.petSamples ∧
        s'.aggregator ≠ s.aggregator := by
  obtain ⟨s, s', hearlier, hlater, hactive, hbegun, hnone, hhistory, hreturned, hempty, hone⟩ :=
    exists_runs_of_runIf_later
      (p := fun s s' =>
        s.inner.active = some ((RunSummary.recording 1 "a" 0).stop .userStop 0) ∧
        s'.begun = s.begun ∧ s'.inner.active = none ∧
        s'.inner.history = [((RunSummary.recording 1 "a" 0).count .sample).stop .userStop 0] ∧
        s'.jobs[2]?.bind Job.returned = some ((RunSummary.recording 1 "a" 0).stop .userStop 0) ∧
        s.aggregator.entries.length = 0 ∧ s'.aggregator.entries.length = 1)
      (show (runIf (ServerState.step none) Any .initial stoppedWithin).any (fun s =>
        (runIf (ServerState.step none) Any s appliedAfterwards).any _) = true by decide +kernel)
  refine ⟨s, s', hearlier, hlater, hbegun, _, _, hactive, rfl, mem_jobs_of_returned hreturned, hnone,
    hhistory, rfl, by decide, ?_⟩
  intro hsame
  rw [hsame, hempty] at hone
  exact absurd hone (by decide)

end Stax.Server
