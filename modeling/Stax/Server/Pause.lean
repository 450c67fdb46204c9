/-
# Stax.Server.Pause — what the views show while the server is paused.

Setting the flag is all that `set_paused` does, and applying an event does not look at it: an event
that is checked while the flag is set is recorded like any other.  What keeps the samples and the
wakeups as they were is that none comes in.  Then they stay through the whole pause, until a run
begins and the log starts anew.
-/
import Stax.Server.Isolation

namespace Stax.Server

open Stax.Live (Tid PetSample RawWakeup)
open Stax.Lib Stax.Lib.Machine

/-! ## Samples and wakeups -/

/-- A thread's samples and its wakeups. -/
def LiveAggregator.sampled (self : LiveAggregator) (tid : Tid) : List PetSample × List RawWakeup :=
  let stats := (self.log.threads.lookup tid).getD {}
  (stats.petSamples, stats.wakeups)

/-- A new sample or wakeup edge. -/
def IngestEvent.isSampled : IngestEvent → Bool
  | .sample _ | .wakeup _ => true
  | _ => false

/-- Samples and wakeups, the events that a pause is documented to drop. -/
def AggregatorWrite.isSampled : AggregatorWrite → Bool
  | .event (.petSample _ _) | .event (.wakeup _ _) => true
  | _ => false

/-- A sample or wakeup is to be checked next. -/
def Applying.arrives : Applying → Bool
  | .event e => e.isSampled
  | _ => false

/-- A sample or wakeup is checked and not yet recorded. -/
def Applying.samples : Applying → Bool
  | .record w => w.isSampled
  | _ => false

/-- While the flag is set no sample or wakeup of the active run comes in, and the flag is not set
between the check and the record of one. -/
def Silent (s : ServerState) : Action → Prop
  | .step t _ =>
    s.paused = true → ∀ job ∈ s.jobs[t]?, ∀ applying ∈ job.applying,
      applying.2.arrives → ¬ s.inner.IsActive applying.1
  | .setPaused true => ∀ job ∈ s.jobs, ∀ applying ∈ job.applying, ¬ applying.2.samples
  | _ => True

instance (s : ServerState) (action : Action) : Decidable (Silent s action) :=
  match action with
  | .step t _ =>
    inferInstanceAs (Decidable (s.paused = true → ∀ job ∈ s.jobs[t]?, ∀ applying ∈ job.applying,
      applying.2.arrives → ¬ s.inner.IsActive applying.1))
  | .setPaused true =>
    inferInstanceAs (Decidable (∀ job ∈ s.jobs, ∀ applying ∈ job.applying, ¬ applying.2.samples))
  | .setPaused false | .call _ | .registerShade _ _ | .shadeSessionClosed _ | .attachTerminal _ =>
    isTrue trivial

/-- The step is where `begin_run` makes the aggregator a new one. -/
def ResetsAggregator (s : ServerState) : Action → Prop
  | .step t _ => ∃ job ∈ s.jobs[t]?, ∃ reset ∈ job.resetting, reset.1 = .aggregator
  | _ => False

instance (s : ServerState) (action : Action) : Decidable (ResetsAggregator s action) :=
  match action with
  | .step t _ =>
    inferInstanceAs (Decidable (∃ job ∈ s.jobs[t]?, ∃ reset ∈ job.resetting, reset.1 = .aggregator))
  | .call _ | .registerShade _ _ | .shadeSessionClosed _ | .attachTerminal _ | .setPaused _ =>
    isFalse id

variable {cache : Option HostCache} {s s' : ServerState} {action : Action}

/-! ## What a write leaves -/

namespace LiveAggregator

theorem threads_noteTimestamp (self : Live.Aggregator) (ts : ℕ) :
    (self.noteTimestamp ts).threads = self.threads := by
  unfold Live.Aggregator.noteTimestamp
  split_ifs <;> rfl

/-- An interval leaves every thread's samples and wakeups. -/
theorem sampled_interval (self : LiveAggregator) (tid : Tid) (interval : Live.RawInterval) :
    (self.apply (.event (.interval tid interval))).sampled = self.sampled := by
  funext other
  have hthreads : (self.apply (.event (.interval tid interval))).log.threads =
      self.log.threads.insert tid
        { (self.log.threads.lookup tid).getD {} with
          intervals := Live.pushBounded ((self.log.threads.lookup tid).getD {}).intervals
            interval } := by
    simp only [apply, Live.Aggregator.record, Live.Aggregator.recordInterval,
      Live.Aggregator.modifyThread, threads_noteTimestamp]
  unfold sampled
  rw [hthreads]
  by_cases heq : other = tid
  · subst heq
    rw [AList.lookup_insert]
    rfl
  · rw [AList.lookup_insert_ne heq]

theorem sampled_apply (self : LiveAggregator) {w : AggregatorWrite} (h : w.isSampled = false) :
    (self.apply w).sampled = self.sampled := by
  cases w with
  | event e =>
      cases e with
      | interval tid interval => exact self.sampled_interval tid interval
      | _ => simp [AggregatorWrite.isSampled] at h
  | threadName tid name => rfl

end LiveAggregator

/-! ## A silent pause -/

/-- What an event is recorded as is sampled exactly when the event is. -/
theorem IngestEvent.samples_afterCheck (e : IngestEvent) : e.afterCheck.samples = e.isSampled := by
  cases e <;> rfl

theorem Applying.arrives_of_checks {todo todo' : Applying} (h : todo.Checks todo')
    (hsamples : todo'.samples) : todo.arrives := by
  cases h with
  | event e =>
      rw [e.samples_afterCheck] at hsamples
      exact hsamples
  | load b => simp [samples] at hsamples
  | attachTarget pid taskPort => simp [samples] at hsamples

theorem Applying.pending_of_samples {todo : Applying} (h : todo.samples) : todo.Pending := by
  cases todo with
  | record w => exact .record w
  | _ => simp [samples] at h

namespace ServerState

/-- While the flag is set, no sample or wakeup is between its check and its record. -/
structure Paused (s : ServerState) : Prop where
  rest : ∀ job ∈ s.jobs, job.RestUnchecked
  quiet : s.paused = true → ∀ job ∈ s.jobs, ∀ run todo, job.applying = some (run, todo) →
    ¬ todo.samples

theorem paused_initial : Paused initial where
  rest := fun _ h => absurd h List.not_mem_nil
  quiet := fun _ _ h => absurd h List.not_mem_nil

/-- No job sets the flag. -/
theorem paused_move {t : ℕ} {job : Job} {choice : Choice} {m : Move}
    (hm : job.next cache s choice = some m) : (s.move t m).paused = s.paused := by
  have hfrom := Job.effect_next hm
  change (s.apply m.effect).paused = s.paused
  cases heffect : m.effect with
  | setPaused paused =>
      rw [heffect] at hfrom
      exact absurd hfrom id
  | _ => rfl

/-- Where no sample or wakeup is let through, none is on its way through a pause. -/
theorem Paused.step (h : s.Paused) (hsilent : Silent s action)
    (hstep : ServerState.step cache s action = some s') : s'.Paused where
  rest := restUnchecked_step h.rest hstep
  quiet := by
    rcases step_cases hstep with ⟨c, -, rfl⟩ | ⟨t, choice, job, m, rfl, ht, hm, rfl⟩ |
      ⟨effect, heffect, rfl⟩
    · intro hpaused job hjob run todo happlying hsamples
      rcases List.mem_append.mp hjob with hjob | hjob
      · exact h.quiet hpaused job hjob run todo happlying hsamples
      · rw [List.mem_singleton.mp hjob] at happlying
        exact (c.start_unchecked s.inner).2 run todo happlying
          (Applying.pending_of_samples hsamples)
    · intro hpaused
      rw [paused_move hm] at hpaused
      refine forall_jobs_move (fun cancel job _ hjob => ?_) (h.quiet hpaused) ?_ ?_
      · rwa [Job.applying_wake]
      · -- the event was checked in this step, for the run that is active
        intro run todo' happlying hsamples
        have hmem : job ∈ s.jobs := List.mem_of_getElem? ht
        obtain ⟨todo, hjob, hchecks, hactive⟩ := Job.applying_next hm (h.rest job hmem) happlying
          (Applying.pending_of_samples hsamples)
        exact hsilent hpaused job ht (run, todo) hjob
          (Applying.arrives_of_checks hchecks hsamples) hactive
      · intro job' hfork run todo happlying
        rw [(Job.applying_fork hm hfork).1] at happlying
        exact absurd happlying (by simp)
    · cases action with
      | registerShade info commands =>
          obtain rfl := Option.some_inj.mp heffect
          exact h.quiet
      | shadeSessionClosed shadePid =>
          obtain rfl := Option.some_inj.mp heffect
          exact h.quiet
      | attachTerminal run =>
          obtain rfl := Option.some_inj.mp heffect
          exact h.quiet
      | setPaused paused =>
          obtain rfl := Option.some_inj.mp heffect
          intro hpaused job hjob run todo happlying
          obtain rfl : paused = true := hpaused
          exact hsilent job hjob (run, todo) happlying
      | _ => simp [effectOf] at heffect

/-- A step in a pause keeps the samples and wakeups, or is the one that resets the aggregator. -/
theorem Paused.sampled_step (h : s.Paused) (hpaused : s.paused = true)
    (hstep : ServerState.step cache s action = some s') :
    s'.aggregator.contents.sampled = s.aggregator.contents.sampled ∨
      (ResetsAggregator s action ∧ s'.aggregator.contents.sampled = fun _ => ([], [])) := by
  rcases step_cases hstep with ⟨c, -, rfl⟩ | ⟨t, choice, job, m, rfl, ht, hm, rfl⟩ |
    ⟨effect, heffect, rfl⟩
  · exact Or.inl rfl
  · have hfrom := Job.effect_next hm
    have hmem : job ∈ s.jobs := List.mem_of_getElem? ht
    change (s.apply m.effect).aggregator.contents.sampled = _ ∨
      (_ ∧ (s.apply m.effect).aggregator.contents.sampled = _)
    cases heffect : m.effect with
    | record run w =>
        rw [heffect] at hfrom
        -- under the condition no sample or wakeup is between its check and its record
        have hw : w.isSampled = false := by
          simpa [Applying.samples] using h.quiet hpaused job hmem run (.record w) hfrom
        exact Or.inl (s.aggregator.contents.sampled_apply hw)
    | resetAggregator =>
        rw [heffect] at hfrom
        obtain ⟨starter, label, run, rfl⟩ := hfrom
        exact Or.inr ⟨⟨_, ht, _, rfl, rfl⟩, rfl⟩
    | _ => exact Or.inl rfl
  · cases action with
    | registerShade info commands =>
        obtain rfl := Option.some_inj.mp heffect
        exact Or.inl rfl
    | shadeSessionClosed shadePid =>
        obtain rfl := Option.some_inj.mp heffect
        exact Or.inl rfl
    | attachTerminal run =>
        obtain rfl := Option.some_inj.mp heffect
        exact Or.inl rfl
    | setPaused paused =>
        obtain rfl := Option.some_inj.mp heffect
        exact Or.inl rfl
    | _ => simp [effectOf] at heffect

theorem paused_of_runs {earlier : List Action}
    (h : Runs (ServerState.step cache) Silent .initial earlier s) : s.Paused :=
  h.invariant (fun _ _ _ hinv hsilent hstep => hinv.step hsilent hstep) paused_initial

/-- A sample or wakeup of the active run is recorded by the next two steps of its drainer. -/
theorem records_of_arrives {t : ℕ} {run cancel : RunId} {e : IngestEvent} {rest : List IngestEvent}
    (ht : s.jobs[t]? = some (.drainer run cancel (.applying (.event e) rest)))
    (hactive : s.inner.IsActive run) (harrives : e.isSampled) :
    ∃ w, e.afterCheck = .record w ∧ ∃ s', Runs (ServerState.step cache) Any s
      [.step t (.go 0), .step t (.go 0)] s' ∧ s'.aggregator = s.aggregator.write run w := by
  have hstep (s : ServerState) {job : Job} {m : Move} (ht : s.jobs[t]? = some job)
      (hm : job.next cache s (.go 0) = some m) :
      ServerState.step cache s (.step t (.go 0)) = some (s.move t m) := by
    simp [ServerState.step, ht, hm]
  obtain ⟨w, hw⟩ : ∃ w, e.afterCheck = .record w := by
    cases e with
    | sample sample => exact ⟨_, rfl⟩
    | wakeup wakeup => exact ⟨_, rfl⟩
    | _ => simp [IngestEvent.isSampled] at harrives
  have hcheck : Job.next cache s (.drainer run cancel (.applying (.event e) rest)) (.go 0) =
      some { effect := .section (.countEvent run e.tally)
             job := .drainer run cancel (.applying (.record w) rest) } := by
    simp only [Job.next, Applying.next, if_pos hactive, hw]
  have hchecked := getElem?_move_self
    (m := { effect := .section (.countEvent run e.tally)
            job := .drainer run cancel (.applying (.record w) rest) }) ht
  have hfirst := hstep s ht hcheck
  have hsecond := hstep _ hchecked rfl
  exact ⟨w, hw, _, .cons trivial hfirst (.cons trivial hsecond (.nil _)), rfl⟩

end ServerState

/-- In silent runs the samples and wakeups stay through a pause as they were at any moment of it, but
for the begin of a run, which leaves none. -/
theorem sampled_of_paused {earlier later : List Action}
    (hearlier : Runs (ServerState.step cache) Silent .initial earlier s)
    (hlater : Runs (ServerState.step cache) (fun x a => Silent x a ∧ x.paused = true) s later s') :
    s'.aggregator.contents.sampled = s.aggregator.contents.sampled ∨
      s'.aggregator.contents.sampled = fun _ => ([], []) := by
  have hpaused := ServerState.paused_of_runs hearlier
  have hinv := hlater.invariant
    (p := fun x => x.Paused ∧ (x.aggregator.contents.sampled = s.aggregator.contents.sampled ∨
      x.aggregator.contents.sampled = fun _ => ([], [])))
    (fun x a x' hx hcond hstep => by
      refine ⟨hx.1.step hcond.1 hstep, ?_⟩
      rcases hx.1.sampled_step hcond.2 hstep with hsame | ⟨-, hblank⟩
      · rw [hsame]
        exact hx.2
      · exact Or.inr hblank)
    ⟨hpaused, Or.inl rfl⟩
  exact hinv.2

/-- The step is silent, and no run begins with it during a pause. -/
def Undisturbed (s : ServerState) (a : Action) : Prop :=
  Silent s a ∧ (s.paused = true → ¬ ResetsAggregator s a)

instance decidableUndisturbed (s : ServerState) (a : Action) : Decidable (Undisturbed s a) :=
  inferInstanceAs (Decidable (_ ∧ _))

/-- In undisturbed runs the samples and wakeups stay through a pause as they were at any moment of
it; and in every state, the flag set or not, a sample or wakeup of the active run that is next in its
drainer's batch is recorded. -/
theorem pause_freezes {earlier later : List Action}
    (hearlier : Runs (ServerState.step cache) Silent .initial earlier s)
    (hlater : Runs (ServerState.step cache) (fun x a => Undisturbed x a ∧ x.paused = true) s later
      s') :
    s'.aggregator.contents.sampled = s.aggregator.contents.sampled ∧
      ∀ (x : ServerState) t run cancel e rest,
        x.jobs[t]? = some (.drainer run cancel (.applying (.event e) rest)) →
        x.inner.IsActive run → e.isSampled →
        ∃ w, e.afterCheck = .record w ∧ ∃ x', Runs (ServerState.step cache) Any x
          [.step t (.go 0), .step t (.go 0)] x' ∧ x'.aggregator = x.aggregator.write run w := by
  refine ⟨?_, fun x t run cancel e rest ht hactive harrives =>
    ServerState.records_of_arrives ht hactive harrives⟩
  have hinv := hlater.invariant
    (p := fun x => x.Paused ∧ x.aggregator.contents.sampled = s.aggregator.contents.sampled)
    (fun x a x' hx hcond hstep => by
      obtain ⟨⟨hsilent, hkept⟩, hpaused⟩ := hcond
      refine ⟨hx.1.step hsilent hstep, ?_⟩
      rcases hx.1.sampled_step hpaused hstep with hsame | ⟨hresets, -⟩
      · rw [hsame]
        exact hx.2
      · exact absurd hresets (hkept hpaused))
    ⟨ServerState.paused_of_runs hearlier, rfl⟩
  exact hinv.2

/-! ## A pause without samples, and one with a sample -/

/-- A sample is recorded, the server is paused, and a batch comes in. -/
def pausedThenReceived (batch : List IngestEvent) : List Action :=
  oneSampleReceived ++ ServerState.goes 1 3 ++ [.setPaused true, .step 1 (.received batch)]

/-- A thread's name and a stretch it ran. -/
def nameAndInterval : List IngestEvent :=
  [.threadName 1 7 "main", .onCpuInterval { tid := 7, startNs := 4, endNs := 6 }]

/-- The sample of `oneSampleReceived` as it is recorded. -/
def firstSample : PetSample := { timestampNs := 5, stack := [16], kernelStack := [], pmc := {} }

theorem pause_freezes_nameAndInterval :
    ∃ s s', Runs (ServerState.step none) Silent .initial (pausedThenReceived nameAndInterval) s ∧
      Runs (ServerState.step none) (fun x a => Undisturbed x a ∧ x.paused = true) s
        (ServerState.goes 1 6) s' ∧
      s.aggregator.entries.length = 1 ∧ s'.aggregator.entries.length = 3 ∧
      s'.aggregator.contents.sampled 7 = ([firstSample], []) := by
  obtain ⟨s, s', hearlier, hlater, hbefore, hafter, hsampled⟩ := exists_runs_of_runIf_later
    (p := fun (s s' : ServerState) => s.aggregator.entries.length = 1 ∧
      s'.aggregator.entries.length = 3 ∧ s.aggregator.contents.sampled 7 = ([firstSample], []))
    (show (runIf (ServerState.step none) Silent .initial
      (pausedThenReceived nameAndInterval)).any (fun s =>
        (runIf (ServerState.step none) (fun x a => Undisturbed x a ∧ x.paused = true) s
          (ServerState.goes 1 6)).any _) = true by decide +kernel)
  have hfrozen := (pause_freezes hearlier hlater).1
  exact ⟨s, s', hearlier, hlater, hbefore, hafter, hfrozen ▸ hsampled⟩

/-- A second sample of the thread. -/
def anotherSample : IngestEvent :=
  .sample { timestampNs := 9, tid := 7, kernelBacktrace := [], userBacktrace := [32], pmc := {} }

/-- A pause in which a sample comes in, and is recorded. -/
theorem paused_records :
    ∃ s s', Runs (ServerState.step none) Any .initial (pausedThenReceived [anotherSample]) s ∧
      Runs (ServerState.step none) (fun x a => x.paused = true ∧ ¬ ResetsAggregator x a) s
        (ServerState.goes 1 2) s' ∧
      s'.paused = true ∧ s.aggregator.contents.sampled 7 = ([firstSample], []) ∧
      s'.aggregator.contents.sampled 7 =
        ([firstSample, { timestampNs := 9, stack := [32], kernelStack := [], pmc := {} }], []) := by
  obtain ⟨s, s', hearlier, hruns, hpaused, hbefore, hafter⟩ := exists_runs_of_runIf_later
    (p := fun (s s' : ServerState) => s'.paused = true ∧
      s.aggregator.contents.sampled 7 = ([firstSample], []) ∧
      s'.aggregator.contents.sampled 7 =
        ([firstSample, { timestampNs := 9, stack := [32], kernelStack := [], pmc := {} }], []))
    (show (runIf (ServerState.step none) Any .initial
      (pausedThenReceived [anotherSample])).any (fun s =>
        (runIf (ServerState.step none) (fun x a => x.paused = true ∧ ¬ ResetsAggregator x a) s
          (ServerState.goes 1 2)).any _) = true by decide +kernel)
  exact ⟨s, s', hearlier, hruns, hpaused, hbefore, hafter⟩

end Stax.Server
