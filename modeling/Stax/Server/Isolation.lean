/-
# Stax.Server.Isolation — when a run's stores have only what was ingested for it.

`begin_run` publishes its run and then resets the stores one after the other.  An event of an earlier
run that was checked before may still be written after the reset.  When no such write is under way at
a reset, then from the return of `begin_run` until the next run begins the stores contain nothing but
events under the run's own id.
-/
import Stax.Server.Frozen

namespace Stax.Server

open Stax.Lib Stax.Lib.Machine

/-! ## Stores, their writes and their resets -/

/-- What ingest events are written to. -/
inductive Store
  | aggregator
  | binaries
  deriving DecidableEq, Repr

/-- The effect that empties a store. -/
def Store.reset : Store → Effect
  | .aggregator => .resetAggregator
  | .binaries => .resetBinaries

/-- The store that is written to next. -/
def Applying.writesTo : Applying → Option Store
  | .record _ => some .aggregator
  | .insert _ | .setTarget _ _ => some .binaries
  | _ => none

namespace Job

/-- The run under whose id the job writes to the store next. -/
def writing (store : Store) (job : Job) : Option RunId :=
  job.applying.bind fun (run, todo) => if todo.writesTo = some store then some run else none

/-- The store that the job's step resets, and the run it is reset for. -/
def resetting : Job → Option (Store × RunId)
  | .begin _ _ (.resetAggregator run) => some (.aggregator, run)
  | .begin _ _ (.resetBinaries run) => some (.binaries, run)
  | _ => none

/-- The run that the job has yet to reset the store for. -/
def resetsLater (store : Store) : Job → Option RunId
  | .begin _ _ (.resetAggregator run) => some run
  | .begin _ _ (.resetBinaries run) => if store = .binaries then some run else none
  | _ => none

/-- The run that `begin_run` has returned to this call. -/
def began : Job → Option RunId
  | .begin _ _ _ => none
  | job => job.claims

end Job

/-- A store is reset for the latest run when no event of another run is about to be written to it. -/
def Apart (s : ServerState) : Action → Prop
  | .step t _ =>
    ∀ job ∈ s.jobs[t]?, ∀ reset ∈ job.resetting, s.begun.head? = some reset.2 →
      ∀ other ∈ s.jobs, ∀ run ∈ other.writing reset.1, run = reset.2
  | _ => True

instance (s : ServerState) (action : Action) : Decidable (Apart s action) :=
  match action with
  | .step t _ =>
    inferInstanceAs (Decidable (∀ job ∈ s.jobs[t]?, ∀ reset ∈ job.resetting,
      s.begun.head? = some reset.2 →
        ∀ other ∈ s.jobs, ∀ run ∈ other.writing reset.1, run = reset.2))
  | .call _ | .registerShade _ _ | .shadeSessionClosed _ | .attachTerminal _ | .setPaused _ =>
    isTrue trivial

namespace ServerState

/-- The store contains only events ingested under the run's id. -/
def OnlyFrom (s : ServerState) (run : RunId) : Store → Prop
  | .aggregator => ∀ entry ∈ s.aggregator.entries, entry.1 = run
  | .binaries => ∀ entry ∈ s.binaries.entries, entry.2.IsIngest → entry.1 = run

/-- The store is yet to be reset for the latest run, or it belongs to that run with all the writes
that are under way. -/
def Owned (s : ServerState) (store : Store) : Prop :=
  ∀ run, s.begun.head? = some run →
    (∃ job ∈ s.jobs, job.resetsLater store = some run) ∨
      (s.OnlyFrom run store ∧ ∀ job ∈ s.jobs, ∀ q, job.writing store = some q → q = run)

end ServerState

variable {cache : Option HostCache} {s s' : ServerState} {action : Action}

namespace Job

variable {job : Job} {choice : Choice} {m : Move} {run : RunId} {store : Store}

theorem writing_eq_some :
    job.writing store = some run ↔
      ∃ todo, job.applying = some (run, todo) ∧ todo.writesTo = some store := by
  unfold writing
  rw [Option.bind_eq_some_iff]
  constructor
  · rintro ⟨⟨r, todo⟩, happlying, hwrites⟩
    dsimp only at hwrites
    split_ifs at hwrites with hstore
    obtain rfl := Option.some_inj.mp hwrites
    exact ⟨todo, happlying, hstore⟩
  · rintro ⟨todo, happlying, hstore⟩
    exact ⟨(run, todo), happlying, if_pos hstore⟩

theorem writing_wake (cancel : RunId) (job : Job) :
    (job.wake cancel).writing store = job.writing store := by
  unfold writing
  rw [applying_wake]

theorem resetsLater_wake (cancel : RunId) (job : Job) :
    (job.wake cancel).resetsLater store = job.resetsLater store := by
  unfold wake
  split <;> rfl

end Job

theorem Applying.pending_of_writesTo {todo : Applying} {store : Store}
    (h : todo.writesTo = some store) : todo.Pending := by
  cases todo with
  | record w => exact .record w
  | insert b => exact .insert b
  | setTarget pid taskPort => exact .setTarget pid taskPort
  | _ => simp [Applying.writesTo] at h

namespace Job

variable {job : Job} {choice : Choice} {m : Move} {run : RunId} {store : Store}

/-- A write is under way for the run that was active when its event was checked. -/
theorem isActive_of_writing (h : job.next cache s choice = some m) (hrest : job.RestUnchecked)
    (hwriting : m.job.writing store = some run) : s.inner.IsActive run := by
  obtain ⟨todo, happlying, hwrites⟩ := writing_eq_some.mp hwriting
  obtain ⟨-, -, -, hactive⟩ :=
    applying_next h hrest happlying (Applying.pending_of_writesTo hwrites)
  exact hactive

theorem writing_fork {job' : Job} (h : job.next cache s choice = some m)
    (hfork : m.fork = some job') : job'.writing store = none := by
  unfold writing
  rw [(applying_fork h hfork).1]
  rfl

/-- A call that has a store to reset still has to, or does it in this step. -/
theorem resetsLater_next (h : job.next cache s choice = some m)
    (hlater : job.resetsLater store = some run) :
    m.job.resetsLater store = some run ∨
      (job.resetting = some (store, run) ∧ m.job.applying = none ∧ m.fork = none ∧
        m.effect = store.reset) := by
  cases job with
  | «begin» starter label phase =>
      cases choice with
      | go now =>
          obtain rfl := Option.some_inj.mp h
          cases phase with
          | resetAggregator r =>
              obtain rfl : r = run := Option.some_inj.mp hlater
              cases store with
              | aggregator => exact Or.inr ⟨rfl, rfl, rfl, rfl⟩
              | binaries => exact Or.inl rfl
          | resetBinaries r =>
              cases store with
              | aggregator => simp [resetsLater] at hlater
              | binaries =>
                  obtain rfl : r = run := Option.some_inj.mp hlater
                  exact Or.inr ⟨rfl, rfl, rfl, rfl⟩
          | _ => simp [resetsLater] at hlater
      | _ => simp [next] at h
  | _ => simp [resetsLater] at hlater

theorem claims_of_resetsLater (h : job.resetsLater store = some run) : job.claims = some run := by
  unfold resetsLater at h
  split at h
  · exact h
  · split_ifs at h
    exact h
  · simp at h

theorem resetsLater_of_publish {summary : RunSummary} (h : job.next cache s choice = some m)
    (heffect : m.effect = .publish summary) :
    ∃ starter label, m.job = .begin starter label (.resetAggregator summary.id) := by
  have hfrom : (Effect.publish summary).From s job choice := heffect ▸ effect_next h
  obtain ⟨-, -, starter, label, rfl⟩ := hfrom
  cases choice with
  | go now =>
      obtain rfl := Option.some_inj.mp h
      simp only [BeginPhase.next] at heffect ⊢
      split_ifs at heffect ⊢
      exact ⟨starter, label, rfl⟩
  | _ => simp [next] at h

end Job

/-! ## Steps -/

namespace ServerState

variable {store : Store} {run : RunId}

/-- What a job writes to a store of the run is the run's when its writes under way are. -/
theorem OnlyFrom.apply (h : s.OnlyFrom run store) {job : Job} {choice : Choice} {effect : Effect}
    (hfrom : effect.From s job choice) (hjob : ∀ q, job.writing store = some q → q = run) :
    (s.apply effect).OnlyFrom run store := by
  cases store with
  | aggregator =>
      cases effect with
      | record q w =>
          have hq : q = run := hjob q (Job.writing_eq_some.mpr ⟨_, hfrom, rfl⟩)
          exact Ledger.forall_write h hq
      | resetAggregator => exact fun _ hentry => absurd hentry List.not_mem_nil
      | _ => exact h
  | binaries =>
      cases effect with
      | register q w =>
          refine Ledger.forall_write h fun hingest => ?_
          rcases hfrom with ⟨_, _, -, hnot⟩ | ⟨b, rfl, happlying⟩ | ⟨pid, taskPort, rfl, happlying⟩
          · exact absurd hingest hnot
          · exact hjob q (Job.writing_eq_some.mpr ⟨_, happlying, rfl⟩)
          · exact hjob q (Job.writing_eq_some.mpr ⟨_, happlying, rfl⟩)
      | resetBinaries => exact fun _ hentry => absurd hentry List.not_mem_nil
      | _ => exact h

theorem onlyFrom_reset (run : RunId) (store : Store) : (s.apply store.reset).OnlyFrom run store := by
  cases store with
  | aggregator => exact fun _ hentry => absurd hentry List.not_mem_nil
  | binaries => exact fun _ hentry => absurd hentry List.not_mem_nil

theorem begun_apply {effect : Effect} (h : ∀ summary, effect ≠ .publish summary) :
    (s.apply effect).begun = s.begun := by
  cases effect with
  | publish summary => exact absurd rfl (h summary)
  | _ => rfl

/-- The latest run to begin is the one that is active. -/
def Current (s : ServerState) : Prop := ∀ run, s.inner.IsActive run → s.begun.head? = some run

theorem Current.step (h : s.Current) (hstep : ServerState.step cache s action = some s') :
    s'.Current := by
  intro run hactive
  rcases inner_step hstep with ⟨hbegun, hinner | ⟨part, -, hinner⟩⟩ |
    ⟨summary, t, choice, job, -, -, -, hinner, hbegun⟩
  · rw [hinner] at hactive
    rw [hbegun]
    exact h run hactive
  · rw [hinner] at hactive
    rw [hbegun]
    exact h run (Section.isActive_of_run hactive)
  · rw [hinner] at hactive
    obtain rfl : summary.id = run := (Inner.isActive_iff rfl run).mp hactive
    rw [hbegun]
    rfl

/-- In runs that are kept apart a job's move writes only for the run that is current. -/
theorem Owned.move (h : s.Owned store) (hcurrent : s.Current)
    (hrest : ∀ job ∈ s.jobs, job.RestUnchecked) {t : ℕ} {choice : Choice} {job : Job} {m : Move}
    (hapart : Apart s (.step t choice)) (ht : s.jobs[t]? = some job)
    (hm : job.next cache s choice = some m) : (s.move t m).Owned store := by
  have hmem : job ∈ s.jobs := List.mem_of_getElem? ht
  intro run hrun
  by_cases hpublish : ∃ summary, m.effect = .publish summary
  · obtain ⟨summary, heffect⟩ := hpublish
    obtain ⟨starter, label, hbegin⟩ := Job.resetsLater_of_publish hm heffect
    have hlatest : (s.move t m).begun = summary.id :: s.begun := by
      change (s.apply m.effect).begun = _
      rw [heffect]
      rfl
    rw [hlatest] at hrun
    obtain rfl : summary.id = run := Option.some_inj.mp hrun
    exact Or.inl ⟨m.job, List.mem_of_getElem? (getElem?_move_self ht), by rw [hbegin]; rfl⟩
  · have hsame : (s.move t m).begun = s.begun :=
      begun_apply fun summary heffect => hpublish ⟨summary, heffect⟩
    rw [hsame] at hrun
    rcases h run hrun with ⟨other, hother, hlater⟩ | ⟨honly, hwriting⟩
    · obtain ⟨i, hi⟩ := List.getElem?_of_mem hother
      by_cases hne : t = i
      · obtain rfl := hne
        obtain rfl : job = other := Option.some_inj.mp (ht.symm.trans hi)
        rcases Job.resetsLater_next hm hlater with hstill | ⟨hresetting, hnone, hfork, heffect⟩
        · exact Or.inl ⟨m.job, List.mem_of_getElem? (getElem?_move_self ht), hstill⟩
        · -- the store is reset now, and what is under way is the run's
          have hunder := hapart job ht (store, run) hresetting hrun
          have hempty : (s.apply m.effect).OnlyFrom run store := by
            rw [heffect]
            exact onlyFrom_reset run store
          refine Or.inr ⟨hempty, ?_⟩
          refine forall_jobs_move (fun cancel other _ hother => ?_) hunder ?_ ?_
          · rwa [Job.writing_wake]
          · intro q hq
            simp [Job.writing, hnone] at hq
          · intro job' hjob'
            rw [hfork] at hjob'
            exact absurd hjob' (by simp)
      · rcases getElem?_move_of_ne (m := m) hi hne with hstays | ⟨cancel, -, hwoken⟩
        · exact Or.inl ⟨other, List.mem_of_getElem? hstays, hlater⟩
        · exact Or.inl ⟨other.wake cancel, List.mem_of_getElem? hwoken,
            (Job.resetsLater_wake cancel other).trans hlater⟩
    · refine Or.inr ⟨honly.apply (Job.effect_next hm) (hwriting job hmem), ?_⟩
      refine forall_jobs_move (fun cancel other _ hother => ?_) hwriting ?_ ?_
      · rwa [Job.writing_wake]
      · intro q hq
        have hactive := Job.isActive_of_writing hm (hrest job hmem) hq
        exact Option.some_inj.mp ((hcurrent q hactive).symm.trans hrun)
      · intro job' hjob' q hq
        rw [Job.writing_fork hm hjob'] at hq
        exact absurd hq (by simp)

/-- In runs that are kept apart the stores hold only what was written for the current run. -/
theorem Owned.step (h : s.Owned store) (hcurrent : s.Current)
    (hrest : ∀ job ∈ s.jobs, job.RestUnchecked) (hapart : Apart s action)
    (hstep : ServerState.step cache s action = some s') : s'.Owned store := by
  rcases step_cases hstep with ⟨c, -, rfl⟩ | ⟨t, choice, job, m, rfl, ht, hm, rfl⟩ |
    ⟨effect, heffect, rfl⟩
  · intro run hrun
    rcases h run hrun with ⟨job, hjob, hlater⟩ | ⟨honly, hwriting⟩
    · exact Or.inl ⟨job, List.mem_append_left _ hjob, hlater⟩
    · have hsame : OnlyFrom { s with jobs := s.jobs ++ [c.start s.inner] } run store := by
        cases store <;> exact honly
      refine Or.inr ⟨hsame, fun job hjob q hq => ?_⟩
      rcases List.mem_append.mp hjob with hjob | hjob
      · exact hwriting job hjob q hq
      · -- a call starts with nothing checked
        rw [List.mem_singleton.mp hjob] at hq
        obtain ⟨todo, happlying, hwrites⟩ := Job.writing_eq_some.mp hq
        exact absurd (Applying.pending_of_writesTo hwrites)
          ((c.start_unchecked s.inner).2 q todo happlying)
  · exact h.move hcurrent hrest hapart ht hm
  · have hsame : (s.apply effect).begun = s.begun ∧ (s.apply effect).jobs = s.jobs ∧
        (s.apply effect).aggregator = s.aggregator ∧ (s.apply effect).binaries = s.binaries := by
      cases action with
      | registerShade info commands =>
          obtain rfl := Option.some_inj.mp heffect
          exact ⟨rfl, rfl, rfl, rfl⟩
      | shadeSessionClosed shadePid =>
          obtain rfl := Option.some_inj.mp heffect
          exact ⟨rfl, rfl, rfl, rfl⟩
      | attachTerminal run =>
          obtain rfl := Option.some_inj.mp heffect
          exact ⟨rfl, rfl, rfl, rfl⟩
      | setPaused paused =>
          obtain rfl := Option.some_inj.mp heffect
          exact ⟨rfl, rfl, rfl, rfl⟩
      | _ => simp [effectOf] at heffect
    obtain ⟨hbegun, hjobs, haggregator, hbinaries⟩ := hsame
    intro run hrun
    rw [hbegun] at hrun
    rw [hjobs]
    rcases h run hrun with hlater | ⟨honly, hwriting⟩
    · exact Or.inl hlater
    · refine Or.inr ⟨?_, hwriting⟩
      cases store with
      | aggregator =>
          rw [OnlyFrom, haggregator]
          exact honly
      | binaries =>
          rw [OnlyFrom, hbinaries]
          exact honly

end ServerState

/-! ## Runs in which writes are kept apart -/

/-- What such runs keep. -/
structure Isolated (s : ServerState) : Prop where
  tracked : s.Tracked
  rest : ∀ job ∈ s.jobs, job.RestUnchecked
  current : s.Current
  owned : ∀ store, s.Owned store

theorem isolated_initial : Isolated ServerState.initial where
  tracked := ServerState.tracked_initial
  rest := fun _ hjob => absurd hjob List.not_mem_nil
  current := fun run hactive => absurd hactive (Inner.not_isActive rfl run)
  owned := fun _ _ hrun => absurd hrun (by simp [ServerState.initial])

theorem isolated_of_runs {actions : List Action}
    (h : Runs (ServerState.step cache) Apart .initial actions s) : Isolated s := by
  refine h.invariant (fun s a s' hinv hapart hstep => ?_) isolated_initial
  exact
    { tracked := hinv.tracked.step hstep
      rest := ServerState.restUnchecked_step hinv.rest hstep
      current := hinv.current.step hstep
      owned := fun store => (hinv.owned store).step hinv.current hinv.rest hapart hstep }

/-- After `begin_run` has returned for a run and before the next run begins, the aggregator and the
binary registry contain only events ingested under the run's id. -/
theorem runs_isolated {actions : List Action}
    (h : Runs (ServerState.step cache) Apart .initial actions s) {run : RunId} {job : Job}
    (hjob : job ∈ s.jobs) (hbegan : job.began = some run) (hlatest : s.begun.head? = some run) :
    (∀ entry ∈ s.aggregator.entries, entry.1 = run) ∧
      ∀ entry ∈ s.binaries.entries, entry.2.IsIngest → entry.1 = run := by
  have hisolated := isolated_of_runs h
  have hclaims : job.claims = some run := by
    unfold Job.began at hbegan
    split at hbegan
    · simp at hbegan
    · exact hbegan
  have hreset (store : Store) : s.OnlyFrom run store := by
    rcases hisolated.owned store run hlatest with ⟨other, hother, hlater⟩ | ⟨honly, -⟩
    · -- the run has one call of `begin_run`, and that has returned
      obtain ⟨starter, label, phase, rfl⟩ : ∃ starter label phase,
          other = .begin starter label phase := by
        unfold Job.resetsLater at hlater
        split at hlater
        · exact ⟨_, _, _, rfl⟩
        · exact ⟨_, _, _, rfl⟩
        · simp at hlater
      have hsame := hisolated.tracked.eq_of_claims hjob hother hclaims
        (Job.claims_of_resetsLater hlater)
      rw [hsame] at hbegan
      simp [Job.began] at hbegan
    · exact honly
  exact ⟨hreset .aggregator, hreset .binaries⟩

/-! ## A run after another, and one that gets the other's sample -/

/-- A recorder's second run: it begins as the `t`-th job, and its drainer applies one sample. -/
def secondRun (t : ℕ) : List Action :=
  [.call (.startRun "b")] ++ ServerState.goes t 8 ++
    [.step (t + 1) (.go 0), .step (t + 1) (.received
      [.sample { timestampNs := 9, tid := 7, kernelBacktrace := [], userBacktrace := [], pmc := {} }])]
    ++ ServerState.goes (t + 1) 3

/-- The first run's sample is recorded before the run is stopped and the second one begins. -/
def oneAfterAnother : List Action :=
  oneSampleReceived ++ ServerState.goes 1 3 ++ [.call .stopActive] ++ ServerState.goes 2 1 ++
    secondRun 3

/-- Whether the call's run has been started. -/
def Job.startedRun : Job → Option RunId
  | .started run => some run
  | _ => none

theorem mem_jobs_of_startedRun {t : ℕ} {run : RunId}
    (h : s.jobs[t]?.bind Job.startedRun = some run) : Job.started run ∈ s.jobs := by
  obtain ⟨job, ht, hstarted⟩ := Option.bind_eq_some_iff.mp h
  have hmem := List.mem_of_getElem? ht
  cases job with
  | started other =>
      obtain rfl := Option.some_inj.mp hstarted
      exact hmem
  | _ => simp [Job.startedRun] at hstarted

theorem runs_isolated_oneAfterAnother :
    ∃ s, Runs (ServerState.step none) Apart .initial oneAfterAnother s ∧
      s.aggregator.entries.length = 1 ∧ ∀ entry ∈ s.aggregator.entries, entry.1 = 2 := by
  obtain ⟨s, hruns, hstarted, hbegun, hone⟩ := exists_runs_of_runIf
    (p := fun s => s.jobs[3]?.bind Job.startedRun = some 2 ∧ s.begun.head? = some 2 ∧
      s.aggregator.entries.length = 1)
    (show (runIf (ServerState.step none) Apart .initial oneAfterAnother).any _ = true by
      decide +kernel)
  exact ⟨s, hruns, hone, (runs_isolated hruns (mem_jobs_of_startedRun hstarted) rfl hbegun).1⟩

/-- The first run's sample is counted; the run is stopped and the second one begins; then the sample
is recorded. -/
def oneIntoAnother : List Action :=
  oneSampleReceived ++ ServerState.goes 1 1 ++ [.call .stopActive] ++ ServerState.goes 2 1 ++
    secondRun 3 ++ ServerState.goes 1 1

theorem runs_not_isolated :
    ∃ s, Runs (ServerState.step none) Any .initial oneIntoAnother s ∧ Job.started 2 ∈ s.jobs ∧
      s.begun.head? = some 2 ∧ ∃ entry ∈ s.aggregator.entries, entry.1 = 1 := by
  obtain ⟨s, hruns, hstarted, hbegun, howners⟩ := exists_runs_of_runIf
    (p := fun s => s.jobs[3]?.bind Job.startedRun = some 2 ∧ s.begun.head? = some 2 ∧
      s.aggregator.entries.map Prod.fst = [2, 1])
    (show (runIf (ServerState.step none) Any .initial oneIntoAnother).any _ = true by
      decide +kernel)
  have hone : 1 ∈ s.aggregator.entries.map Prod.fst := by
    rw [howners]
    decide
  obtain ⟨entry, hentry, hrun⟩ := List.mem_map.mp hone
  exact ⟨s, hruns, mem_jobs_of_startedRun hstarted, hbegun, entry, hentry, hrun⟩

end Stax.Server
