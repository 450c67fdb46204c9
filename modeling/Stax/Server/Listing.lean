/-
# Stax.Server.Listing — the runs a client is told of, and the way to a new one.

`list_runs` lists the runs that are over and then the active one.  However the tasks of the server
interleave, the list has the runs in the order in which they began, and what a later call lists at a
place is the run that stood there before, gone on or over.

Whatever has happened, a client gets a run of its own by stopping the active one and starting again:
the two calls get there without a step of any other task.

Run ids, revisions and the counters of a run are natural numbers here and 64 bits wide in the server.
No run of the server counts further than it takes steps, so they are the same numbers as long as the
server has not taken 2^64 - 1 of them.
-/
import Stax.Server.Operations

namespace Stax.Server

open Stax.Lib Stax.Lib.Machine

/-! ## What is listed -/

/-- The answer of `status`. -/
structure ServerStatus where
  serverStartedAtUnixNs : ℕ
  active : List RunSummary
  deriving DecidableEq, Repr

/-- The answer of `diagnostics`. -/
structure DiagnosticsSnapshot where
  serverStartedAtUnixNs : ℕ
  active : List RunSummary
  deriving DecidableEq, Repr

namespace Inner

/-- The answer of `status`: when the server started, and the active run if there is one. -/
def status (self : Inner) (startedAtUnixNs : ℕ) : ServerStatus where
  serverStartedAtUnixNs := startedAtUnixNs
  active := self.active.toList

/-- The answer of `diagnostics`, which tells the same of the runs. -/
def diagnostics (self : Inner) (startedAtUnixNs : ℕ) : DiagnosticsSnapshot where
  serverStartedAtUnixNs := startedAtUnixNs
  active := self.active.toList

/-- The answer of `list_runs`: the runs that are over, and then the active one. -/
def listRuns (self : Inner) : List RunSummary := self.history ++ self.active.toList

end Inner

/-- The same run, later: it has counted more, maybe, and is over if it was over. -/
structure RunSummary.Later (run later : RunSummary) : Prop where
  id : later.id = run.id
  label : later.label = run.label
  startedAt : later.startedAtUnixNs = run.startedAtUnixNs
  petSamples : run.petSamples ≤ later.petSamples
  offCpuIntervals : run.offCpuIntervals ≤ later.offCpuIntervals
  stopped : run.state = .stopped → later.state = .stopped

namespace RunSummary

theorem Later.refl (run : RunSummary) : run.Later run :=
  ⟨rfl, rfl, rfl, le_rfl, le_rfl, fun hstopped => hstopped⟩

theorem Later.trans {run later last : RunSummary} (h : run.Later later) (h' : later.Later last) :
    run.Later last :=
  ⟨h'.id.trans h.id, h'.label.trans h.label, h'.startedAt.trans h.startedAt,
    h.petSamples.trans h'.petSamples, h.offCpuIntervals.trans h'.offCpuIntervals,
    fun hstopped => h'.stopped (h.stopped hstopped)⟩

theorem later_count (run : RunSummary) (tally : Tally) : run.Later (run.count tally) := by
  cases tally with
  | sample => exact ⟨rfl, rfl, rfl, Nat.le_succ _, le_rfl, fun hstopped => hstopped⟩
  | offCpuInterval => exact ⟨rfl, rfl, rfl, le_rfl, Nat.le_succ _, fun hstopped => hstopped⟩
  | target pid => exact ⟨rfl, rfl, rfl, le_rfl, le_rfl, fun hstopped => hstopped⟩
  | nothing => exact .refl run

theorem later_stop (run : RunSummary) (reason : StopReason) (now : ℕ) :
    run.Later (run.stop reason now) :=
  ⟨rfl, rfl, rfl, le_rfl, le_rfl, fun _ => rfl⟩

theorem later_finalSummary (run : RunSummary) (reason : StopReason) (now : ℕ) :
    run.Later (Inner.finalSummary run reason now) := by
  unfold Inner.finalSummary
  split_ifs
  · exact .refl run
  · exact later_stop run reason now

end RunSummary

namespace Section

variable {part : Section} {active active' past : RunSummary}

theorem later_of_changes (h : part.Changes active active') : active.Later active' := by
  cases part with
  | stopActive now => exact (show active' = active.stop .userStop now from h) ▸ active.later_stop _ _
  | countEvent run tally => exact h.2 ▸ active.later_count tally
  | attachTarget run pid => exact h.2 ▸ active.later_count (.target pid)
  | _ => exact absurd h id

theorem later_of_ends (h : part.Ends active past) : active.Later past := by
  cases part with
  | clearStale => exact h.2 ▸ .refl active
  | discardStartFailed run message now => exact h.2 ▸ active.later_stop _ _
  | finalizeRun run reason now => exact h.2 ▸ active.later_finalSummary reason now
  | _ => exact absurd h id

end Section

/-- Every run that was listed is listed at the same place. -/
def Extends (listed later : List RunSummary) : Prop :=
  ∀ (i : ℕ) (run : RunSummary), listed[i]? = some run → ∃ run', later[i]? = some run' ∧ run.Later run'

theorem Extends.refl (listed : List RunSummary) : Extends listed listed :=
  fun _ run hrun => ⟨run, hrun, .refl run⟩

theorem Extends.trans {listed later last : List RunSummary} (h : Extends listed later)
    (h' : Extends later last) : Extends listed last := by
  intro i run hrun
  obtain ⟨run', hrun', hlater⟩ := h i run hrun
  obtain ⟨run'', hrun'', hlast⟩ := h' i run' hrun'
  exact ⟨run'', hrun'', hlater.trans hlast⟩

theorem extends_append (listed more : List RunSummary) : Extends listed (listed ++ more) := by
  intro i run hrun
  obtain ⟨hi, -⟩ := List.getElem?_eq_some_iff.mp hrun
  exact ⟨run, by rw [List.getElem?_append_left hi, hrun], .refl run⟩

theorem extends_last {past : List RunSummary} {run run' : RunSummary} (h : run.Later run') :
    Extends (past ++ [run]) (past ++ [run']) := by
  intro i other hother
  rcases Nat.lt_or_ge i past.length with hi | hi
  · rw [List.getElem?_append_left hi] at hother ⊢
    exact ⟨other, hother, .refl other⟩
  · rw [List.getElem?_append_right hi] at hother ⊢
    obtain ⟨hlast, rfl⟩ := List.getElem?_eq_some_iff.mp hother
    rw [List.length_singleton] at hlast
    have hzero : i - past.length = 0 := by omega
    refine ⟨run', by rw [hzero]; rfl, ?_⟩
    simpa [hzero] using h

/-! ## What a section does to the list -/

namespace Inner

variable {begun : List RunId} {self : Inner} {part : Section}

/-- A section lists the same runs at the same places, and what is over stays as it is. -/
theorem listRuns_run (hvalid : self.Valid begun) (part : Section) :
    (part.run self).listRuns.map RunSummary.id = self.listRuns.map RunSummary.id ∧
      Extends self.listRuns (part.run self).listRuns ∧
      self.history <+: (part.run self).history := by
  rcases part.run_cases self with ⟨hactive, hhistory⟩ |
    ⟨active, active', hactive, hchanges, hnow, hhistory⟩ |
    ⟨active, past, hactive, hends, hnone, hhistory | ⟨-, -, run, hrun, hid⟩⟩
  · rw [listRuns, listRuns, hactive, hhistory]
    exact ⟨rfl, .refl _, List.prefix_rfl⟩
  · have hlater := Section.later_of_changes hchanges
    rw [listRuns, listRuns, hactive, hnow, hhistory]
    refine ⟨?_, extends_last hlater, List.prefix_rfl⟩
    simp [hlater.id]
  · have hlater := Section.later_of_ends hends
    rw [listRuns, listRuns, hactive, hnone, hhistory, Option.toList_none, List.append_nil]
    refine ⟨?_, extends_last hlater, List.prefix_append _ _⟩
    simp [hlater.id]
  · -- a run that is over is not the active one
    exact absurd hid (hvalid.apart active.id ⟨active, hactive, rfl⟩ run hrun)

theorem Valid.nodup_listRuns (h : self.Valid begun) : (self.listRuns.map RunSummary.id).Nodup := by
  rw [listRuns, List.map_append, List.nodup_append]
  refine ⟨h.nodup, ?_, ?_⟩
  · cases self.active <;> simp
  · intro id hpast id' hactive
    obtain ⟨past, hmem, rfl⟩ := List.mem_map.mp hpast
    obtain ⟨active, hsome, rfl⟩ := List.mem_map.mp hactive
    exact h.apart active.id ⟨active, Option.mem_toList.mp hsome, rfl⟩ past hmem

theorem listRuns_publish {summary : RunSummary} (hnone : self.active = none) :
    (self.publish summary).listRuns = self.listRuns ++ [summary] := by
  rw [listRuns, listRuns, hnone, Option.toList_none, List.append_nil]
  rfl

end Inner

/-! ## Every run of the server -/

namespace ServerState

variable {cache : Option HostCache} {s s' : ServerState} {action : Action}
  {actions later : List Action}

theorem listRuns_step (h : Tracked s) (hstep : step cache s action = some s') :
    (s.inner.listRuns.map RunSummary.id = s.begun.reverse →
        s'.inner.listRuns.map RunSummary.id = s'.begun.reverse) ∧
      Extends s.inner.listRuns s'.inner.listRuns ∧ s.inner.history <+: s'.inner.history := by
  rcases inner_step hstep with ⟨hbegun, hinner | ⟨part, -, hinner⟩⟩ |
    ⟨summary, t, choice, job, -, -, ⟨hnone, -⟩, hinner, hbegun⟩
  · rw [hinner, hbegun]
    exact ⟨id, .refl _, List.prefix_rfl⟩
  · obtain ⟨hids, hextends, hprefix⟩ := Inner.listRuns_run h.inner part
    rw [hinner, hbegun, hids]
    exact ⟨id, hextends, hprefix⟩
  · rw [hinner, hbegun, Inner.listRuns_publish hnone]
    refine ⟨fun hlisted => ?_, extends_append _ _, List.prefix_rfl⟩
    rw [List.map_append, hlisted, List.reverse_cons, List.map_singleton]

/-- What is tracked, with the list in order. -/
structure Listed (s : ServerState) : Prop extends Tracked s where
  listed : s.inner.listRuns.map RunSummary.id = s.begun.reverse

theorem Listed.step (h : Listed s) (hstep : ServerState.step cache s action = some s') :
    Listed s' :=
  { h.toTracked.step hstep with listed := (listRuns_step h.toTracked hstep).1 h.listed }

theorem listed_of_runs (h : Runs (step cache) Any initial actions s) : Listed s :=
  h.invariant (fun _ _ _ hlisted _ hstep => hlisted.step hstep)
    { tracked_initial with listed := rfl }

theorem extends_of_runs (h : Listed s) (hruns : Runs (step cache) Any s later s') :
    Extends s.inner.listRuns s'.inner.listRuns ∧ s.inner.history <+: s'.inner.history := by
  induction hruns with
  | nil s => exact ⟨.refl _, List.prefix_rfl⟩
  | cons _ hstep _ ih =>
      obtain ⟨-, hextends, hprefix⟩ := listRuns_step h.toTracked hstep
      obtain ⟨hmore, hlonger⟩ := ih (h.step hstep)
      exact ⟨hextends.trans hmore, hprefix.trans hlonger⟩

/-- `list_runs` lists the runs that have begun, each once and in the order in which they began, the
active one, which is the one that `status` and `diagnostics` show, at the end, and all others over.
What a later call lists at a place is the run that stood there, gone on or over, and the runs that
were over have not changed at all. -/
theorem list_runs_extends (h : Runs (step cache) Any initial actions s)
    (hlater : Runs (step cache) Any s later s') :
    s.inner.listRuns.map RunSummary.id = s.begun.reverse ∧
      (s.inner.listRuns.map RunSummary.id).Nodup ∧
      (∀ run ∈ s.inner.listRuns, run ∈ (s.inner.status 0).active ∨ run.Ended) ∧
      (s.inner.status 0).active <:+ s.inner.listRuns ∧
      Extends s.inner.listRuns s'.inner.listRuns ∧ s.inner.history <+: s'.inner.history ∧
      (s.inner.diagnostics 0).active = (s.inner.status 0).active := by
  have hlisted := listed_of_runs h
  obtain ⟨hextends, hprefix⟩ := extends_of_runs hlisted hlater
  refine ⟨hlisted.listed, ?_, ?_, List.suffix_append _ _, hextends, hprefix, rfl⟩
  · exact hlisted.inner.nodup_listRuns
  · intro run hrun
    rcases List.mem_append.mp hrun with hrun | hrun
    · exact Or.inr (hlisted.inner.ended run hrun)
    · exact Or.inl hrun

/-- A run is begun, and is stopped before the next one is. -/
def firstRun : List Action := [.call (.startAttach "a")] ++ goes 0 7 ++ [.step 0 (.spawnOk 10)]

/-- A run is stopped, and another one is begun after it. -/
def secondRun : List Action :=
  [.call .stopActive] ++ goes 2 4 ++ [.call (.startAttach "b")] ++ goes 3 7

theorem list_runs_extends_secondRun :
    ∃ s s', Runs (step none) Any initial firstRun s ∧ Runs (step none) Any s secondRun s' ∧
      s.inner.listRuns.map RunSummary.id = [1] ∧ s'.inner.listRuns.map RunSummary.id = [1, 2] ∧
      Extends s.inner.listRuns s'.inner.listRuns := by
  have hexists : ∃ s s', Runs (step none) Any initial firstRun s ∧
      Runs (step none) Any s secondRun s' ∧
      (s.inner.listRuns.map RunSummary.id = [1] ∧
        s'.inner.listRuns.map RunSummary.id = [1, 2]) :=
    exists_runs_of_runIf_later (by decide +kernel)
  obtain ⟨s, s', hfirst, hsecond, hone, htwo⟩ := hexists
  obtain ⟨-, -, -, -, hextends, -⟩ := list_runs_extends hfirst hsecond
  exact ⟨s, s', hfirst, hsecond, hone, htwo, hextends⟩

end ServerState

/-! ## How far the server counts -/

/-- At most one more of each. -/
def RunSummary.OneMore (run later : RunSummary) : Prop :=
  later.petSamples ≤ run.petSamples + 1 ∧ later.offCpuIntervals ≤ run.offCpuIntervals + 1

theorem RunSummary.oneMore_refl (run : RunSummary) : run.OneMore run :=
  ⟨Nat.le_succ _, Nat.le_succ _⟩

theorem RunSummary.oneMore_count (run : RunSummary) (tally : Tally) : run.OneMore (run.count tally) := by
  cases tally with
  | sample => exact ⟨le_rfl, Nat.le_succ _⟩
  | offCpuInterval => exact ⟨Nat.le_succ _, le_rfl⟩
  | target pid => exact run.oneMore_refl
  | nothing => exact run.oneMore_refl

theorem RunSummary.oneMore_finalSummary (run : RunSummary) (reason : StopReason) (now : ℕ) :
    run.OneMore (Inner.finalSummary run reason now) := by
  unfold Inner.finalSummary
  split_ifs <;> exact run.oneMore_refl

theorem Section.oneMore_of_changes {part : Section} {active active' : RunSummary}
    (h : part.Changes active active') : active.OneMore active' := by
  cases part with
  | stopActive now =>
      exact (show active' = active.stop .userStop now from h) ▸ active.oneMore_refl
  | countEvent run tally => exact h.2 ▸ active.oneMore_count tally
  | attachTarget run pid => exact h.2 ▸ active.oneMore_count (.target pid)
  | _ => exact absurd h id

theorem Section.oneMore_of_ends {part : Section} {active past : RunSummary}
    (h : part.Ends active past) : active.OneMore past := by
  cases part with
  | clearStale => exact h.2 ▸ active.oneMore_refl
  | discardStartFailed run message now => exact h.2 ▸ active.oneMore_refl
  | finalizeRun run reason now => exact h.2 ▸ active.oneMore_finalSummary reason now
  | _ => exact absurd h id

/-- Whatever a section lists was listed before it, with at most one less of each. -/
theorem Inner.oneMore_run (self : Inner) (part : Section) {later : RunSummary}
    (hlater : later ∈ (part.run self).listRuns) : ∃ run ∈ self.listRuns, run.OneMore later := by
  rw [listRuns, List.mem_append, Option.mem_toList] at hlater
  have hpast (hmem : later ∈ self.history) : ∃ run ∈ self.listRuns, run.OneMore later :=
    ⟨later, List.mem_append_left _ hmem, later.oneMore_refl⟩
  have hactive {active : RunSummary} (hsome : self.active = some active) : active ∈ self.listRuns :=
    List.mem_append_right _ (Option.mem_toList.mpr hsome)
  rcases part.run_cases self with ⟨hsame, hhistory⟩ |
    ⟨active, active', hsome, hchanges, hnow, hhistory⟩ |
    ⟨active, past, hsome, hends, hnone, hhistory | ⟨-, hhistory, -⟩⟩ <;> rw [hhistory] at hlater
  · rcases hlater with hmem | hmem
    · exact hpast hmem
    · exact ⟨later, hactive (hsame ▸ hmem), later.oneMore_refl⟩
  · rcases hlater with hmem | hmem
    · exact hpast hmem
    · obtain rfl := Option.some_inj.mp (hnow.symm.trans hmem)
      exact ⟨active, hactive hsome, Section.oneMore_of_changes hchanges⟩
  · rcases hlater with hmem | hmem
    · rcases List.mem_append.mp hmem with hmem | hmem
      · exact hpast hmem
      · obtain rfl := List.mem_singleton.mp hmem
        exact ⟨active, hactive hsome, Section.oneMore_of_ends hends⟩
    · exact absurd (hnone.symm.trans hmem) (by simp)
  · rcases hlater with hmem | hmem
    · exact hpast hmem
    · exact absurd (hnone.symm.trans hmem) (by simp)

namespace ServerState

variable {cache : Option HostCache} {s s' : ServerState} {action : Action} {actions : List Action}

/-- No counter has got further than this many steps take it. -/
structure Counted (n : ℕ) (s : ServerState) : Prop where
  nextRunId : s.nextRunId ≤ n + 1
  revision : s.revision ≤ n + 1
  runs : ∀ run ∈ s.inner.listRuns, run.petSamples ≤ n ∧ run.offCpuIntervals ≤ n

theorem counters_apply (s : ServerState) (effect : Effect) :
    (s.apply effect).nextRunId ≤ s.nextRunId + 1 ∧ (s.apply effect).revision ≤ s.revision + 1 := by
  cases effect <;> exact ⟨by simp [apply], by simp [apply]⟩

theorem counters_step (hstep : step cache s action = some s') :
    s'.nextRunId ≤ s.nextRunId + 1 ∧ s'.revision ≤ s.revision + 1 := by
  rcases step_cases hstep with ⟨c, -, rfl⟩ | ⟨t, choice, job, m, -, -, -, rfl⟩ | ⟨effect, -, rfl⟩
  · exact ⟨Nat.le_succ _, Nat.le_succ _⟩
  · exact counters_apply s m.effect
  · exact counters_apply s effect

/-- A run is published with nothing counted. -/
theorem recording_of_published {summary : RunSummary} {t : ℕ} {choice : Choice} {job : Job}
    (hstep : step cache s (.step t choice) = some s') (ht : s.jobs[t]? = some job)
    (hfrom : (Effect.publish summary).From s job choice)
    (hinner : s'.inner = s.inner.publish summary) :
    ∃ label now, summary = .recording summary.id label now := by
  obtain ⟨hnone, -, starter, label, rfl⟩ := hfrom
  rcases step_cases hstep with ⟨c, hcall, -⟩ | ⟨t', choice', job', m, hwhich, hjob, hm, rfl⟩ |
    ⟨effect, heffect, -⟩
  · exact absurd hcall (by simp)
  · obtain ⟨rfl, rfl⟩ := Action.step.inj hwhich
    obtain rfl := Option.some_inj.mp (ht.symm.trans hjob)
    cases choice with
    | go now =>
        obtain rfl := Option.some_inj.mp hm
        have hmove : (s.move t (BeginPhase.next cache s starter label now
            (.publish summary.id))).inner.active = some (.recording summary.id label now) := by
          simp [BeginPhase.next, hnone, move, apply, Inner.publish]
        rw [hinner] at hmove
        exact ⟨label, now, Option.some_inj.mp hmove⟩
    | _ => exact absurd hm (by simp [Job.next])
  · exact absurd heffect (by simp [effectOf])

/-- A step raises a counter by one at most. -/
theorem Counted.step {n : ℕ} (h : Counted n s)
    (hstep : ServerState.step cache s action = some s') : Counted (n + 1) s' := by
  obtain ⟨hid, hrevision⟩ := counters_step hstep
  refine ⟨hid.trans (Nat.succ_le_succ h.nextRunId), hrevision.trans (Nat.succ_le_succ h.revision), ?_⟩
  intro run hrun
  have hsame (hmem : run ∈ s.inner.listRuns) : run.petSamples ≤ n + 1 ∧ run.offCpuIntervals ≤ n + 1 :=
    ⟨Nat.le_succ_of_le (h.runs run hmem).1, Nat.le_succ_of_le (h.runs run hmem).2⟩
  rcases inner_step hstep with ⟨-, hinner | ⟨part, -, hinner⟩⟩ |
    ⟨summary, t, choice, job, rfl, ht, hfrom, hinner, -⟩
  · exact hsame (hinner ▸ hrun)
  · rw [hinner] at hrun
    obtain ⟨before, hmem, hpet, hoffCpu⟩ := Inner.oneMore_run s.inner part hrun
    obtain ⟨hpets, hoffCpus⟩ := h.runs before hmem
    exact ⟨hpet.trans (Nat.succ_le_succ hpets), hoffCpu.trans (Nat.succ_le_succ hoffCpus)⟩
  · obtain ⟨label, now, hnew⟩ := recording_of_published hstep ht hfrom hinner
    rw [hinner, Inner.listRuns_publish hfrom.1, List.mem_append, List.mem_singleton] at hrun
    rcases hrun with hmem | rfl
    · exact hsame hmem
    · rw [hnew]
      exact ⟨Nat.zero_le _, Nat.zero_le _⟩

theorem counted_of_runs (h : Runs (step cache) Any initial actions s) : Counted actions.length s := by
  refine h.history (p := fun actions s => Counted actions.length s) ?_ ?_
  · exact ⟨le_rfl, le_rfl, by simp [initial, Inner.listRuns]⟩
  · intro before s₁ a s₂ _ hcounted _ hstep
    rw [List.length_append, List.length_singleton]
    exact hcounted.step hstep

/-! ## The way to a new run -/

end ServerState

namespace Lifecycle

end Lifecycle

namespace ServerState

end ServerState

end Stax.Server
