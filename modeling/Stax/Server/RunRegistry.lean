/-
# Stax.Server.RunRegistry — every run is in the registry once, and what belongs to it with it.

Each section keeps the registry valid: a run that has begun is active or in the history and not
both, the history has every run once and stopped, and the shade's slots are filled together and for
the active run.  A run is published under an id that no other call of `begin_run` has, so publishing
keeps the registry valid too, and the registry is valid in every state the server can reach.
-/
import Stax.Server.Steps

namespace Stax.Server

open Stax.Lib Stax.Lib.Machine

/-! ## Valid registries -/

namespace Inner

/-- What the registry is to be like when these runs have begun. -/
structure Valid (begun : List RunId) (inner : Inner) : Prop where
  listed : ∀ run, run ∈ begun ↔ inner.IsActive run ∨ ∃ past ∈ inner.history, past.id = run
  apart : ∀ run, inner.IsActive run → ∀ past ∈ inner.history, past.id ≠ run
  nodup : (inner.history.map RunSummary.id).Nodup
  ended : ∀ past ∈ inner.history, past.Ended
  stopped : ∀ active, inner.active = some active → active.state = .stopped → active.Ended
  shade : ∀ info, inner.activeShade = some info → inner.IsActive info.runId
  commands : inner.activeShadeCommands.isSome = inner.activeShade.isSome

variable {begun : List RunId} {self : Inner}

theorem isActive_iff {active : RunSummary} (h : self.active = some active) (run : RunId) :
    self.IsActive run ↔ active.id = run := by
  constructor
  · rintro ⟨other, hother, rfl⟩
    rw [h, Option.some_inj] at hother
    rw [hother]
  · exact fun hid => ⟨active, h, hid⟩

theorem not_isActive (h : self.active = none) (run : RunId) : ¬ self.IsActive run := by
  rintro ⟨active, hactive, -⟩
  simp [h] at hactive

/-! ## The active run after each section -/

section Active

variable {other : Inner} {run ended : RunId}

theorem isActive_congr (h : other.active = self.active) :
    other.IsActive run ↔ self.IsActive run := by
  rw [IsActive, IsActive, h]

/-- The active run is put away if it is this one. -/
theorem isActive_of_ended (hother : ¬ self.IsActive ended → other = self)
    (hnone : self.IsActive ended → other.active = none) :
    other.IsActive run ↔ self.IsActive run ∧ run ≠ ended := by
  by_cases hended : self.IsActive ended
  · obtain ⟨active, hactive, rfl⟩ := hended
    have hnot : ¬ other.IsActive run := not_isActive (hnone ⟨active, hactive, rfl⟩) run
    rw [iff_false_left hnot, isActive_iff hactive]
    rintro ⟨hid, hne⟩
    exact hne hid.symm
  · rw [hother hended]
    refine ⟨fun h => ⟨h, ?_⟩, And.left⟩
    rintro rfl
    exact hended h

theorem discardStartFailed_of_not_isActive {message : String} {now : ℕ}
    (h : ¬ self.IsActive ended) : self.discardStartFailed ended message now = self := by
  grind [discardStartFailed, IsActive]

theorem finalizeRun_of_not_isActive {reason : StopReason} {now : ℕ} (h : ¬ self.IsActive ended) :
    self.finalizeRun ended reason now = self := by
  grind [finalizeRun, IsActive]

@[simp] theorem isActive_discardStartFailed {message : String} {now : ℕ} :
    (self.discardStartFailed ended message now).IsActive run ↔
      self.IsActive run ∧ run ≠ ended := by
  refine isActive_of_ended discardStartFailed_of_not_isActive ?_
  rintro ⟨active, hactive, hid⟩
  simp [discardStartFailed, hactive, hid, cleared]

@[simp] theorem isActive_finalizeRun {reason : StopReason} {now : ℕ} :
    (self.finalizeRun ended reason now).IsActive run ↔ self.IsActive run ∧ run ≠ ended := by
  refine isActive_of_ended finalizeRun_of_not_isActive ?_
  rintro ⟨active, hactive, hid⟩
  simp [finalizeRun, hactive, hid, cleared]

theorem not_isActive_finalizeRun {reason : StopReason} {now : ℕ} :
    ¬ (self.finalizeRun ended reason now).IsActive ended :=
  fun h => (isActive_finalizeRun.mp h).2 rfl

@[simp] theorem isActive_stopActive {now : ℕ} :
    (self.stopActive now).IsActive run ↔ self.IsActive run := by
  cases hactive : self.active with
  | none => rw [stopActive, hactive]
  | some active =>
      rw [isActive_iff hactive, isActive_iff (show _ = some (active.stop .userStop now) by
        rw [stopActive, hactive]), RunSummary.stop_id]

@[simp] theorem isActive_publish {summary : RunSummary} :
    (self.publish summary).IsActive run ↔ summary.id = run :=
  isActive_iff (show (self.publish summary).active = some summary from rfl) run

@[simp] theorem isActive_takeChild : self.takeChild.IsActive run ↔ self.IsActive run :=
  isActive_congr rfl

@[simp] theorem isActive_storeChild {child : ShadeChild} :
    (self.storeChild child).IsActive run ↔ self.IsActive run :=
  isActive_congr rfl

@[simp] theorem isActive_setIngestAttached :
    self.setIngestAttached.IsActive run ↔ self.IsActive run :=
  isActive_congr rfl

@[simp] theorem isActive_detachIngest {detached : RunId} :
    (self.detachIngest detached).IsActive run ↔ self.IsActive run := by
  refine isActive_congr ?_
  rw [detachIngest]
  split_ifs <;> rfl

@[simp] theorem isActive_shadeChildExited {shadePid : Pid} :
    (self.shadeChildExited shadePid).IsActive run ↔ self.IsActive run := by
  refine isActive_congr ?_
  grind [shadeChildExited]

end Active

/-! ## What keeps a registry valid -/

/-- A registry of the same runs is valid if its slots for a shade are. -/
theorem Valid.of_eq {other : Inner} (h : self.Valid begun) (hactive : other.active = self.active)
    (hhistory : other.history = self.history)
    (hshade : ∀ info, other.activeShade = some info → other.IsActive info.runId)
    (hcommands : other.activeShadeCommands.isSome = other.activeShade.isSome) :
    other.Valid begun := by
  have hrun (run : RunId) : other.IsActive run ↔ self.IsActive run := by
    unfold IsActive
    rw [hactive]
  refine ⟨?_, ?_, ?_, ?_, ?_, hshade, hcommands⟩
  · intro run
    rw [hrun, hhistory]
    exact h.listed run
  · intro run hactive'
    rw [hhistory]
    exact h.apart run ((hrun run).mp hactive')
  · rw [hhistory]
    exact h.nodup
  · rw [hhistory]
    exact h.ended
  · rw [hactive]
    exact h.stopped

/-- The active run changes and stays the run it is. -/
theorem Valid.of_active {other : Inner} {active active' : RunSummary} (h : self.Valid begun)
    (hactive : self.active = some active) (hactive' : other.active = some active')
    (hid : active'.id = active.id) (hended : active'.state = .stopped → active'.Ended)
    (hhistory : other.history = self.history)
    (hshade : ∀ info, other.activeShade = some info → info.runId = active.id)
    (hcommands : other.activeShadeCommands.isSome = other.activeShade.isSome) :
    other.Valid begun := by
  have hrun (run : RunId) : other.IsActive run ↔ self.IsActive run := by
    rw [isActive_iff hactive', isActive_iff hactive, hid]
  refine ⟨?_, ?_, ?_, ?_, ?_, ?_, hcommands⟩
  · intro run
    rw [hrun, hhistory]
    exact h.listed run
  · intro run hrun'
    rw [hhistory]
    exact h.apart run ((hrun run).mp hrun')
  · rw [hhistory]
    exact h.nodup
  · rw [hhistory]
    exact h.ended
  · intro run hrun' hstopped
    rw [hactive', Option.some_inj] at hrun'
    subst hrun'
    exact hended hstopped
  · intro info hinfo
    rw [isActive_iff hactive', hid]
    exact (hshade info hinfo).symm

/-- The active run is put away. -/
theorem Valid.of_ended {other : Inner} {active past : RunSummary} (h : self.Valid begun)
    (hactive : self.active = some active) (hnone : other.active = none) (hid : past.id = active.id)
    (hended : past.Ended) (hhistory : other.history = self.history ++ [past])
    (hshade : other.activeShade = none) (hcommands : other.activeShadeCommands = none) :
    other.Valid begun := by
  have hrun (run : RunId) : self.IsActive run ↔ past.id = run := by
    rw [isActive_iff hactive, hid]
  have hpast (p : RunSummary → Prop) :
      (∃ run ∈ other.history, p run) ↔ (∃ run ∈ self.history, p run) ∨ p past := by
    rw [hhistory]
    simp [or_and_right, exists_or]
  refine ⟨?_, ?_, ?_, ?_, ?_, ?_, ?_⟩
  · intro run
    rw [h.listed, hrun, hpast, or_iff_right (not_isActive hnone run), or_comm]
  · intro run hrun'
    exact absurd hrun' (not_isActive hnone run)
  · rw [hhistory, List.map_append, List.nodup_append]
    refine ⟨h.nodup, List.nodup_singleton _, ?_⟩
    intro id hmem id' hmem'
    obtain ⟨run, hrun', rfl⟩ := List.mem_map.mp hmem
    obtain rfl := List.mem_singleton.mp hmem'
    exact h.apart past.id ((hrun past.id).mpr rfl) run hrun'
  · intro run hmem
    rw [hhistory, List.mem_append, List.mem_singleton] at hmem
    rcases hmem with hmem | rfl
    · exact h.ended run hmem
    · exact hended
  · intro run hrun'
    rw [hnone] at hrun'
    exact absurd hrun' (by simp)
  · intro info hinfo
    rw [hshade] at hinfo
    exact absurd hinfo (by simp)
  · rw [hshade, hcommands]
    rfl

theorem Valid.clearShade (h : self.Valid begun) (pid : Pid) : (self.clearShade pid).Valid begun := by
  unfold Inner.clearShade
  split
  · split_ifs
    · exact h.of_eq rfl rfl (fun info hinfo => by simp at hinfo) rfl
    · exact h
  · exact h

/-- A section for another pid leaves the slots of the shade. -/
theorem clearShade_of_ne {info : ShadeInfo} {pid : Pid} (h : self.activeShade = some info)
    (hne : info.shadePid ≠ pid) : self.clearShade pid = self := by
  simp only [Inner.clearShade, h]
  exact if_neg hne

theorem ended_finalSummary {active : RunSummary} (h : active.state = .stopped → active.Ended)
    (reason : StopReason) (now : ℕ) : (finalSummary active reason now).Ended := by
  unfold finalSummary
  split_ifs with hstopped
  · exact h hstopped
  · exact RunSummary.ended_stop active reason now

theorem finalSummary_id (active : RunSummary) (reason : StopReason) (now : ℕ) :
    (finalSummary active reason now).id = active.id := by
  unfold finalSummary
  split_ifs <;> rfl

theorem Valid.countEvent (h : self.Valid begun) (run : RunId) (tally : Tally) :
    (self.countEvent run tally).Valid begun := by
  unfold Inner.countEvent
  split
  · rename_i active hactive
    split_ifs
    · refine h.of_active hactive rfl (active.count_id tally) (fun hstopped => ?_) rfl ?_ h.commands
      · rw [RunSummary.count_state] at hstopped
        exact (h.stopped active hactive hstopped).count tally
      · intro info hinfo
        exact ((isActive_iff hactive _).mp (h.shade info hinfo)).symm
    · exact h
  · exact h

/-- Every section keeps the registry valid. -/
theorem Valid.run (h : self.Valid begun) (part : Section) : (part.run self).Valid begun := by
  cases part with
  | registerShade info commands =>
      simp only [Section.run, tryRegisterShade]
      split
      · exact h
      · rename_i active hactive
        split_ifs with hid hshade
        · exact h
        · exact h
        · refine h.of_eq rfl rfl (fun other hother => ?_) rfl
          obtain rfl : info = other := by simpa using hother
          exact ⟨active, hactive, not_not.mp hid⟩
  | shadeSessionClosed shadePid => exact h.clearShade shadePid
  | watchdogClear pid => exact h.clearShade pid
  | shadeChildExited shadePid =>
      simp only [Section.run, Inner.shadeChildExited]
      split
      · split_ifs
        · exact h.of_eq rfl rfl h.shade h.commands
        · exact h
      · exact h
  | detachIngest run =>
      simp only [Section.run, Inner.detachIngest]
      split_ifs
      · exact h.of_eq rfl rfl h.shade h.commands
      · exact h
  | clearStale =>
      simp only [Section.run, Inner.clearStale]
      split
      · rename_i active hactive
        split_ifs with hstopped hpast
        · -- a run of the history is not active
          obtain ⟨past, hmem, hid⟩ := hpast
          exact absurd hid (h.apart _ ⟨active, hactive, rfl⟩ past hmem)
        · exact h.of_ended hactive rfl rfl (h.stopped active hactive hstopped) rfl rfl rfl
        · exact h
      · exact h
  | discardStartFailed run message now =>
      simp only [Section.run, Inner.discardStartFailed]
      split
      · rename_i active hactive
        split_ifs
        · exact h.of_ended hactive rfl (active.stop_id (.recorderError message) now)
            (active.ended_stop _ now) rfl rfl rfl
        · exact h
      · exact h
  | stopActive now =>
      simp only [Section.run, Inner.stopActive]
      split
      · rename_i active hactive
        exact h.of_active hactive rfl rfl (fun _ => active.ended_stop _ now) rfl
          (fun info hinfo => by simp at hinfo) rfl
      · exact h
  | finalizeRun run reason now =>
      simp only [Section.run, Inner.finalizeRun]
      split
      · rename_i active hactive
        split_ifs
        · exact h.of_ended hactive rfl (finalSummary_id active reason now)
            (ended_finalSummary (h.stopped active hactive) reason now) rfl rfl rfl
        · exact h
      · exact h
  | countEvent run tally => exact h.countEvent run tally
  | attachTarget run pid => exact h.countEvent run (.target pid)
  | setIngestAttached => exact h.of_eq rfl rfl h.shade h.commands
  | storeChild child => exact h.of_eq rfl rfl h.shade h.commands
  | takeChild => exact h.of_eq rfl rfl h.shade h.commands

/-- Publishing a run under a new id keeps the registry valid when no run is active. -/
theorem Valid.publish (h : self.Valid begun) {summary : RunSummary} (hnone : self.active = none)
    (hnew : summary.id ∉ begun) (hrecording : summary.state = .recording) :
    (self.publish summary).Valid (summary.id :: begun) := by
  have hrun (run : RunId) : (self.publish summary).IsActive run ↔ summary.id = run :=
    isActive_iff rfl run
  have hnoshade : self.activeShade = none := by
    cases hshade : self.activeShade with
    | none => rfl
    | some info => exact absurd (h.shade info hshade) (not_isActive hnone _)
  refine ⟨?_, ?_, h.nodup, h.ended, ?_, ?_, h.commands⟩
  · intro run
    have hpast : run ∈ begun ↔ ∃ past ∈ self.history, past.id = run := by
      rw [h.listed, or_iff_right (not_isActive hnone run)]
    rw [hrun, List.mem_cons, hpast, eq_comm]
    rfl
  · rintro run hactive past hpast rfl
    refine hnew ((h.listed _).mpr (Or.inr ⟨past, hpast, ?_⟩))
    exact ((hrun _).mp hactive).symm
  · intro active hactive hstopped
    obtain rfl : summary = active := Option.some_inj.mp hactive
    rw [hrecording] at hstopped
    exact absurd hstopped (by simp)
  · intro info hinfo
    have hsome : self.activeShade = some info := hinfo
    rw [hnoshade] at hsome
    exact absurd hsome (by simp)

end Inner

/-! ## Runs and the calls that begin them -/

namespace Job

/-- The run that a call of `begin_run` has fetched the id of. -/
def claims : Job → Option RunId
  | .begin _ _ (.publish run) | .begin _ _ (.resetAggregator run) | .begin _ _ (.resetBinaries run)
  | .begin _ _ (.bump run) | .begin _ _ (.attachSharedCache run) => some run
  | .pendTerminal run | .spawnShade run | .discardTerminal run _ | .discardRun run _
  | .startIngest run | .started run | .startFailed run _ => some run
  | _ => none

/-- The run that a call of `begin_run` has published. -/
def begunRun : Job → Option RunId
  | .begin _ _ (.publish _) => none
  | job => job.claims

variable {cache : Option HostCache} {s : ServerState} {job : Job} {choice : Choice} {m : Move}
  {run : RunId}

theorem claims_of_begunRun (h : job.begunRun = some run) : job.claims = some run := by
  unfold begunRun at h
  split at h
  · simp at h
  · exact h

theorem claims_wake (cancel : RunId) (job : Job) : (job.wake cancel).claims = job.claims := by
  unfold wake
  split <;> rfl

theorem begunRun_wake (cancel : RunId) (job : Job) :
    (job.wake cancel).begunRun = job.begunRun := by
  unfold wake
  split <;> rfl

/-- A step of `begin_run` keeps the run, fetches one, or is refused before it has published one. -/
theorem claims_begin (starter : Starter) (label : String) (phase : BeginPhase) (now : ℕ)
    (hm : m = phase.next cache s starter label now) :
    m.job.claims = (Job.begin starter label phase).claims ∨
      ((Job.begin starter label phase).claims = none ∧ m.job.claims = some s.nextRunId ∧
        m.effect = .fetchRunId) ∨
      (m.job.claims = none ∧ (Job.begin starter label phase).begunRun = none) := by
  subst hm
  cases phase with
  | clearStale =>
      simp only [BeginPhase.next]
      split <;> exact Or.inl rfl
  | fetchId => exact Or.inr (Or.inl ⟨rfl, rfl, rfl⟩)
  | publish run =>
      simp only [BeginPhase.next]
      split_ifs
      · exact Or.inr (Or.inr ⟨rfl, rfl⟩)
      · exact Or.inl rfl
  | attachSharedCache run => cases starter <;> exact Or.inl rfl
  | _ => exact Or.inl rfl

theorem claims_next (h : job.next cache s choice = some m) :
    m.job.claims = job.claims ∨
      (job.claims = none ∧ m.job.claims = some s.nextRunId ∧ m.effect = .fetchRunId) ∨
      (m.job.claims = none ∧ job.begunRun = none) := by
  fun_cases Job.next cache s job choice
  case case1 starter label phase now =>
    exact claims_begin starter label phase now (Option.some_inj.mp h).symm
  all_goals
    simp only [Job.next, reduceCtorEq, Option.some_inj, if_true, if_false, *] at h <;>
      grind [claims, drain_cases, Reaper.done_cases, Wait.poll_cases, Wait.orTimeout_cases]

/-- What a job spawns has not called `begin_run`. -/
theorem claims_fork (h : job.next cache s choice = some m) : m.fork.bind claims = none := by
  fun_cases Job.next cache s job choice
  case case1 starter label phase now =>
    obtain rfl := Option.some_inj.mp h
    cases phase with
    | publish run =>
        simp only [BeginPhase.next]
        split_ifs <;> rfl
    | _ => rfl
  all_goals
    simp only [Job.next, reduceCtorEq, Option.some_inj, if_true, if_false, *] at h <;>
      grind [claims]

/-- A run that was published stays so. -/
theorem begunRun_next (h : job.next cache s choice = some m) (hrun : job.begunRun = some run) :
    m.job.begunRun = some run := by
  fun_cases Job.next cache s job choice
  case case1 starter label phase now =>
    obtain rfl := Option.some_inj.mp h
    cases phase with
    | attachSharedCache run => cases starter <;> exact hrun
    | resetAggregator run => exact hrun
    | resetBinaries run => exact hrun
    | bump run => exact hrun
    | _ => simp [begunRun, claims] at hrun
  all_goals
    simp only [Job.next, reduceCtorEq, Option.some_inj, if_true, if_false, *] at h <;>
      grind [claims, begunRun]

/-- Only `begin_run` publishes, under the id it has fetched and when no run is active. -/
theorem publish_next {summary : RunSummary} (h : job.next cache s choice = some m)
    (heffect : m.effect = .publish summary) :
    job.claims = some summary.id ∧ job.begunRun = none ∧ m.job.begunRun = some summary.id ∧
      summary.state = .recording ∧ s.inner.active = none := by
  have hfrom : (Effect.publish summary).From s job choice := heffect ▸ effect_next h
  obtain ⟨hactive, hrecording, starter, label, rfl⟩ := hfrom
  refine ⟨rfl, rfl, ?_, hrecording, hactive⟩
  cases choice with
  | go now =>
      obtain rfl := Option.some_inj.mp h
      simp only [BeginPhase.next] at heffect ⊢
      split_ifs at heffect ⊢
      rfl
  | _ => simp [next] at h

end Job

/-- A call starts without a run. -/
theorem Call.start_claims (c : Call) (inner : Inner) : (c.start inner).claims = none := by
  cases c with
  | publishBinariesLoaded run binaries => cases binaries <;> rfl
  | publishBinariesUnloaded run binaries => cases binaries <;> rfl
  | _ => rfl

/-! ## The invariant -/

namespace ServerState

/-- The registry is valid, and every run that has begun has one call of `begin_run` to it. -/
structure Tracked (s : ServerState) : Prop where
  inner : s.inner.Valid s.begun
  fresh : ∀ run ∈ s.jobs.filterMap Job.claims, run < s.nextRunId
  unique : (s.jobs.filterMap Job.claims).Nodup
  begun : ∀ run ∈ s.begun, run ∈ s.jobs.filterMap Job.begunRun

variable {cache : Option HostCache} {s s' : ServerState}

theorem tracked_initial : Tracked initial where
  inner := by
    refine ⟨fun run => ?_, ?_, List.nodup_nil, ?_, ?_, ?_, rfl⟩
    · refine iff_of_false List.not_mem_nil ?_
      rintro (⟨active, hactive, -⟩ | ⟨past, hpast, -⟩)
      · exact absurd hactive (by simp [initial])
      · exact absurd hpast List.not_mem_nil
    · rintro run ⟨active, hactive, -⟩
      exact absurd hactive (by simp [initial])
    · exact fun past hpast => absurd hpast List.not_mem_nil
    · exact fun active hactive => absurd hactive (by simp [initial])
    · exact fun info hinfo => absurd hinfo (by simp [initial])
  fresh := fun _ h => absurd h List.not_mem_nil
  unique := List.nodup_nil
  begun := fun _ h => absurd h List.not_mem_nil

/-- A job that claims a run is the only one. -/
theorem Tracked.eq_of_claims (h : Tracked s) {job job' : Job} {run : RunId} (hjob : job ∈ s.jobs)
    (hjob' : job' ∈ s.jobs) (hclaims : job.claims = some run) (hclaims' : job'.claims = some run) :
    job = job' := by
  obtain ⟨before, after, hsplit⟩ := List.append_of_mem hjob
  have hunique := h.unique
  rw [hsplit, List.filterMap_append, List.filterMap_cons_some hclaims, List.nodup_middle,
    List.nodup_cons, List.mem_append] at hunique
  have hnot (l : List Job) (hl : run ∉ l.filterMap Job.claims) : job' ∉ l := fun hmem =>
    hl (List.mem_filterMap.mpr ⟨job', hmem, hclaims'⟩)
  rw [hsplit, List.mem_append, List.mem_cons] at hjob'
  rcases hjob' with hjob' | heq | hjob'
  · exact absurd hjob' (hnot before fun hmem => hunique.1 (Or.inl hmem))
  · exact heq.symm
  · exact absurd hjob' (hnot after fun hmem => hunique.1 (Or.inr hmem))

/-- What a call of `begin_run` is about to publish has not begun. -/
theorem Tracked.not_begun (h : Tracked s) {job : Job} {run : RunId} (hjob : job ∈ s.jobs)
    (hclaims : job.claims = some run) (hbegun : job.begunRun = none) : run ∉ s.begun := by
  intro hmem
  obtain ⟨other, hother, hrun⟩ := List.mem_filterMap.mp (h.begun run hmem)
  obtain rfl := h.eq_of_claims hjob hother hclaims (Job.claims_of_begunRun hrun)
  rw [hbegun] at hrun
  exact absurd hrun (by simp)

theorem Tracked.publish_takes (h : s.Tracked) {t : ℕ} {choice : Choice} {job : Job}
    {summary : RunSummary} (ht : s.jobs[t]? = some job)
    (hfrom : (Effect.publish summary).From s job choice) : summary.id ∉ s.begun := by
  obtain ⟨-, -, starter, label, rfl⟩ := hfrom
  exact h.not_begun (List.mem_of_getElem? ht) rfl rfl

/-- Sections and other effects that are not a publication. -/
theorem Tracked.apply (h : Tracked s) (effect : Effect)
    (hpublish : ∀ summary, effect ≠ .publish summary) : Tracked (s.apply effect) := by
  have hwoken {f : Job → Option RunId} (cancel : RunId)
      (hwake : ∀ job, f (Job.wake cancel job) = f job) :
      (s.jobs.map (Job.wake cancel)).filterMap f = s.jobs.filterMap f := by
    rw [List.filterMap_map]
    exact List.filterMap_congr fun job _ => hwake job
  cases effect with
  | «section» part => exact ⟨h.inner.run part, h.fresh, h.unique, h.begun⟩
  | fetchRunId =>
      exact ⟨h.inner, fun run hrun => (h.fresh run hrun).trans (Nat.lt_succ_self _), h.unique,
        h.begun⟩
  | publish summary => exact absurd rfl (hpublish summary)
  | notifyWaiters cancel =>
      refine ⟨h.inner, ?_, ?_, ?_⟩
      · change ∀ run ∈ (s.jobs.map (Job.wake cancel)).filterMap Job.claims, _
        rw [hwoken cancel (Job.claims_wake cancel)]
        exact h.fresh
      · change ((s.jobs.map (Job.wake cancel)).filterMap Job.claims).Nodup
        rw [hwoken cancel (Job.claims_wake cancel)]
        exact h.unique
      · change ∀ run ∈ s.begun, run ∈ (s.jobs.map (Job.wake cancel)).filterMap Job.begunRun
        rw [hwoken cancel (Job.begunRun_wake cancel)]
        exact h.begun
  | storeChild pid run =>
      exact ⟨h.inner.run (.storeChild { pid := pid, child := s.nextCell run }), h.fresh, h.unique,
        h.begun⟩
  | _ => exact ⟨h.inner, h.fresh, h.unique, h.begun⟩

theorem Tracked.call (h : Tracked s) (c : Call) :
    Tracked { s with jobs := s.jobs ++ [c.start s.inner] } := by
  have hnone := c.start_claims s.inner
  have hclaims : (s.jobs ++ [c.start s.inner]).filterMap Job.claims =
      s.jobs.filterMap Job.claims := by
    simp [hnone]
  refine ⟨h.inner, ?_, ?_, ?_⟩
  · change ∀ run ∈ (s.jobs ++ [c.start s.inner]).filterMap Job.claims, _
    rw [hclaims]
    exact h.fresh
  · change ((s.jobs ++ [c.start s.inner]).filterMap Job.claims).Nodup
    rw [hclaims]
    exact h.unique
  · intro run hrun
    rw [List.filterMap_append]
    exact List.mem_append_left _ (h.begun run hrun)

theorem nextRunId_apply_le (s : ServerState) (effect : Effect) :
    s.nextRunId ≤ (s.apply effect).nextRunId := by
  cases effect with
  | fetchRunId => exact Nat.le_succ _
  | _ => exact Nat.le_refl _

/-- The runs with a call of `begin_run` after a move: those before it, or a fresh one in addition. -/
theorem claims_move {t : ℕ} {job : Job} {choice : Choice} {m : Move} (ht : s.jobs[t]? = some job)
    (hm : job.next cache s choice = some m) :
    ((s.move t m).jobs.filterMap Job.claims).Sublist (s.jobs.filterMap Job.claims) ∨
      (m.effect = .fetchRunId ∧ ((s.move t m).jobs.filterMap Job.claims).Perm
        (s.nextRunId :: s.jobs.filterMap Job.claims)) := by
  obtain ⟨before, after, hold, hnew⟩ := filterMap_jobs_move (m := m) Job.claims_wake ht
  rw [Job.claims_fork hm, Option.toList_none, List.append_nil] at hnew
  rw [hold, hnew]
  rcases Job.claims_next hm with heq | ⟨hnone, hsome, heffect⟩ | ⟨hnone, -⟩
  · rw [heq]
    exact Or.inl (List.Sublist.refl _)
  · refine Or.inr ⟨heffect, ?_⟩
    rw [hnone, hsome, Option.toList_none, Option.toList_some, List.append_nil, List.append_assoc]
    exact List.perm_middle
  · rw [hnone, Option.toList_none, List.append_nil]
    exact Or.inl ((List.sublist_append_left before _).append_right after)

/-- A run that was begun keeps its call of `begin_run`. -/
theorem mem_begunRun_move {t : ℕ} {job : Job} {choice : Choice} {m : Move} {run : RunId}
    (ht : s.jobs[t]? = some job) (hm : job.next cache s choice = some m)
    (hrun : run ∈ s.jobs.filterMap Job.begunRun) :
    run ∈ (s.move t m).jobs.filterMap Job.begunRun := by
  obtain ⟨before, after, hold, hnew⟩ := filterMap_jobs_move (m := m) Job.begunRun_wake ht
  rw [hold, List.mem_append, List.mem_append, Option.mem_toList] at hrun
  rw [hnew, List.mem_append, List.mem_append, List.mem_append, Option.mem_toList]
  rcases hrun with (hrun | hrun) | hrun
  · exact Or.inl (Or.inl (Or.inl hrun))
  · exact Or.inl (Or.inl (Or.inr (Job.begunRun_next hm hrun)))
  · exact Or.inl (Or.inr hrun)

/-- A job's move keeps the registry in order, and the numbers of runs given out once. -/
theorem Tracked.move (h : Tracked s) {t : ℕ} {job : Job} {choice : Choice} {m : Move}
    (ht : s.jobs[t]? = some job) (hm : job.next cache s choice = some m) :
    Tracked (s.move t m) := by
  have hmem : job ∈ s.jobs := List.mem_of_getElem? ht
  -- a number that a job claims was given out, now or before
  have hfresh : ∀ run ∈ (s.move t m).jobs.filterMap Job.claims, run < (s.move t m).nextRunId := by
    intro run hrun
    rcases claims_move ht hm with hsub | ⟨heffect, hperm⟩
    · exact (h.fresh run (hsub.subset hrun)).trans_le (nextRunId_apply_le s m.effect)
    · change run < (s.apply m.effect).nextRunId
      rw [heffect]
      rcases List.mem_cons.mp (hperm.mem_iff.mp hrun) with rfl | hrun
      · exact Nat.lt_succ_self _
      · exact (h.fresh run hrun).trans (Nat.lt_succ_self _)
  -- a number is given out once, and claimed by the job that fetched it
  have hunique : ((s.move t m).jobs.filterMap Job.claims).Nodup := by
    rcases claims_move ht hm with hsub | ⟨-, hperm⟩
    · exact h.unique.sublist hsub
    · rw [hperm.nodup_iff, List.nodup_cons]
      exact ⟨fun hrun => absurd (h.fresh _ hrun) (lt_irrefl _), h.unique⟩
  -- only publishing a run changes what has begun
  by_cases hpublish : ∃ summary, m.effect = .publish summary
  · obtain ⟨summary, heffect⟩ := hpublish
    obtain ⟨hclaims, hnot, hnow, hrecording, hactive⟩ := Job.publish_next hm heffect
    have hinner : (s.move t m).inner = s.inner.publish summary := by
      change (s.apply m.effect).inner = _
      rw [heffect]
      rfl
    have hbegun : (s.move t m).begun = summary.id :: s.begun := by
      change (s.apply m.effect).begun = _
      rw [heffect]
      rfl
    refine ⟨?_, hfresh, hunique, ?_⟩
    · rw [hinner, hbegun]
      exact h.inner.publish hactive (h.not_begun hmem hclaims hnot) hrecording
    · intro run hrun
      rw [hbegun, List.mem_cons] at hrun
      rcases hrun with rfl | hrun
      · obtain ⟨before, after, -, hnew⟩ := filterMap_jobs_move (m := m) Job.begunRun_wake ht
        rw [hnew, hnow]
        simp
      · exact mem_begunRun_move ht hm (h.begun run hrun)
  · have happly : Tracked (s.apply m.effect) := h.apply m.effect fun summary heq =>
      hpublish ⟨summary, heq⟩
    have hbegun : (s.move t m).begun = s.begun := by
      change (s.apply m.effect).begun = _
      cases heffect : m.effect with
      | publish summary => exact absurd ⟨summary, heffect⟩ hpublish
      | _ => rfl
    refine ⟨happly.inner, hfresh, hunique, ?_⟩
    intro run hrun
    rw [hbegun] at hrun
    exact mem_begunRun_move ht hm (h.begun run hrun)

/-- Every state the server can reach is tracked. -/
theorem Tracked.step {action : Action} (h : Tracked s)
    (hstep : ServerState.step cache s action = some s') : Tracked s' := by
  rcases step_cases hstep with ⟨c, -, rfl⟩ | ⟨t, choice, job, m, -, ht, hm, rfl⟩ |
    ⟨effect, heffect, rfl⟩
  · exact h.call c
  · exact h.move ht hm
  · refine h.apply effect ?_
    rintro summary rfl
    cases action <;> simp [effectOf] at heffect

theorem tracked_of_runs {cond : ServerState → Action → Prop} {actions : List Action}
    (h : Runs (ServerState.step cache) cond initial actions s) : Tracked s :=
  h.invariant (fun _ _ _ hinv _ hstep => hinv.step hstep) tracked_initial

/-! ## Closing a shade's session -/

/-- The action is a shade's session closing, or the watchdog's tick, for this pid. -/
def ClosesShade (s : ServerState) (pid : Pid) (action : Action) : Prop :=
  action = .shadeSessionClosed pid ∨
    ∃ t choice, action = .step t choice ∧ s.jobs[t]? = some (.watchdog (some pid))

/-- A session that closes for another shade than the registered one changes nothing. -/
theorem inner_of_closesShade {action : Action} {pid : Pid} {info : ShadeInfo}
    (hcloses : s.ClosesShade pid action) (hstep : ServerState.step cache s action = some s')
    (hinfo : s.inner.activeShade = some info) (hne : info.shadePid ≠ pid) : s'.inner = s.inner := by
  rcases hcloses with rfl | ⟨t, choice, rfl, ht⟩
  · obtain rfl := Option.some_inj.mp hstep
    exact Inner.clearShade_of_ne hinfo hne
  · rcases step_cases hstep with ⟨c, hc, -⟩ | ⟨t', choice', job, m, heq, ht', hm, rfl⟩ | ⟨_, heq, -⟩
    · exact absurd hc (by simp)
    · obtain ⟨rfl, rfl⟩ := Action.step.inj heq
      obtain rfl := Option.some_inj.mp (ht.symm.trans ht')
      cases choice with
      | pidAlive =>
          obtain rfl := Option.some_inj.mp hm
          rfl
      | pidDead =>
          obtain rfl := Option.some_inj.mp hm
          exact Inner.clearShade_of_ne hinfo hne
      | _ => simp [Job.next] at hm
    · simp [effectOf] at heq

/-! ## Every reachable state -/

/-- Every run that has begun is active or in the history and not both, the history has every run
once and ended, the slots for a shade are filled together and for the active run, and a session's
close or a tick of the watchdog leaves the slots of other shades. -/
theorem registry_wellFormed {actions : List Action}
    (h : Runs (ServerState.step cache) Any initial actions s) :
    (∀ run ∈ s.begun, Xor (s.inner.IsActive run) (∃ past ∈ s.inner.history, past.id = run)) ∧
      (s.inner.history.map RunSummary.id).Nodup ∧
      (∀ past ∈ s.inner.history,
        past.state = .stopped ∧ past.stopReason.isSome ∧ past.stoppedAtUnixNs.isSome) ∧
      (∀ info, s.inner.activeShade = some info →
        ∃ active, s.inner.active = some active ∧ active.id = info.runId) ∧
      s.inner.activeShadeCommands.isSome = s.inner.activeShade.isSome ∧
      ∀ pid action s' info, s.ClosesShade pid action → ServerState.step cache s action = some s' →
        s.inner.activeShade = some info → info.shadePid ≠ pid →
        s'.inner.activeShade = some info ∧
          s'.inner.activeShadeCommands = s.inner.activeShadeCommands := by
  have hvalid : s.inner.Valid s.begun := (tracked_of_runs h).inner
  refine ⟨?_, hvalid.nodup, ?_, hvalid.shade, hvalid.commands, ?_⟩
  · intro run hrun
    rcases (hvalid.listed run).mp hrun with hactive | hpast
    · refine Or.inl ⟨hactive, ?_⟩
      rintro ⟨past, hpast, hid⟩
      exact hvalid.apart run hactive past hpast hid
    · refine Or.inr ⟨hpast, fun hactive => ?_⟩
      obtain ⟨past, hpast, hid⟩ := hpast
      exact hvalid.apart run hactive past hpast hid
  · intro past hpast
    exact ⟨(hvalid.ended past hpast).state, (hvalid.ended past hpast).reason,
      (hvalid.ended past hpast).stoppedAt⟩
  · intro pid action s' info hcloses hstep hinfo hne
    rw [inner_of_closesShade hcloses hstep hinfo hne]
    exact ⟨hinfo, rfl⟩

/-- Taking `n` steps of the `t`-th job, one after the other. -/
def goes (t n : ℕ) : List Action := List.replicate n (.step t (.go 0))

/-- A run is stopped while its shade is attached, and the next run's shade attaches and outlives the
close of the first one's session. -/
def twoShades : List Action :=
  [.call (.startAttach "a")] ++ goes 0 7 ++ [.step 0 (.spawnOk 10),
    .registerShade { runId := 1, targetPid := 5, shadePid := 10 } 0, .call .stopActive] ++
  goes 2 4 ++ [.call (.startAttach "b")] ++ goes 3 7 ++ [.step 3 (.spawnOk 11),
    .registerShade { runId := 2, targetPid := 5, shadePid := 11 } 1, .call .watchdog] ++
  goes 5 1

theorem registry_wellFormed_twoShades :
    ∃ s, Runs (ServerState.step none) Any initial twoShades s ∧
      s.inner.history.map RunSummary.id = [1] ∧
      Xor (s.inner.IsActive 2) (∃ past ∈ s.inner.history, past.id = 2) ∧
      ∃ s', ServerState.step none s (.shadeSessionClosed 10) = some s' ∧
        s'.inner.activeShade = some { runId := 2, targetPid := 5, shadePid := 11 } := by
  obtain ⟨s, hruns, hbegun, hhistory, hshade⟩ := exists_runs_of_runIf
    (p := fun s => s.begun = [2, 1] ∧ s.inner.history.map RunSummary.id = [1] ∧
      s.inner.activeShade = some { runId := 2, targetPid := 5, shadePid := 11 })
    (show (runIf (ServerState.step none) Any initial twoShades).any _ = true by decide +kernel)
  obtain ⟨hlisted, -, -, -, -, hcloses⟩ := registry_wellFormed hruns
  refine ⟨s, hruns, hhistory, hlisted 2 (by rw [hbegun]; decide), _, rfl, ?_⟩
  exact (hcloses 10 (.shadeSessionClosed 10) _ _ (Or.inl rfl) rfl hshade (by decide)).1

end ServerState

end Stax.Server
