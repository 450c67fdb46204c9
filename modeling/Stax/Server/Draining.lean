/-
# Stax.Server.Draining — what a run's drainer makes of the events it receives.

As long as its run is the active one, the aggregator has what the drainer has been through of the
events it received, in their order and nothing else, and the run's counters count them.  Everything
else may happen meanwhile, but for a second drainer for the run.
-/
import Stax.Server.StopRequest

namespace Stax.Server

open Stax.Lib Stax.Lib.Machine

/-! ## Events on their way through a job -/

/-- What an event writes into the aggregator. -/
def IngestEvent.aggregatorWrite (e : IngestEvent) : Option AggregatorWrite :=
  match e.afterCheck with
  | .record w => some w
  | _ => none

/-- What is not checked against a run, and not about to be written into the aggregator. -/
def Applying.Aside (todo : Applying) : Prop :=
  (∀ e, todo ≠ .event e) ∧ ∀ w, todo ≠ .record w

namespace Job

/-- The events that the job has yet to check. -/
def remaining : Job → List IngestEvent
  | .drainer _ _ (.applying (.event e) rest) => e :: rest
  | .drainer _ _ (.applying _ rest) => rest
  | _ => []

/-- What was checked and is not written yet. -/
def unwritten : Job → List AggregatorWrite
  | .drainer _ _ (.applying (.record w) _) => [w]
  | _ => []

theorem length_unwritten_le (job : Job) : job.unwritten.length ≤ 1 := by
  unfold unwritten
  split <;> simp

/-- The run's drainer, or what comes after it. -/
inductive Drains (run : RunId) : Job → Prop
  | drainer (cancel : RunId) (phase : DrainerPhase) : Drains run (.drainer run cancel phase)
  | finalizeTerminal (reason : StopReason) : Drains run (.finalizeTerminal run reason)
  | finalizeRun (reason : StopReason) : Drains run (.finalizeRun run reason)
  | takeChild : Drains run (.takeChild (.finalizeRun run))
  | reap (child : ShadeChild) : Drains run (.reap (.finalizeRun run) child)
  | finished : Drains run .finished

/-- The job has nothing to do with what is ingested for the run. -/
def Aside (run : RunId) : Job → Prop
  | .drainer other _ (.applying todo _) => other ≠ run ∧ ∀ w, todo ≠ .record w
  | .drainer other _ _ | .cancelForRun other | .attachIngest other _ | .startIngest other =>
    other ≠ run
  | .publishing _ todo rest => todo.Aside ∧ ∀ later ∈ rest, later.Aside
  | .begin _ _ phase => phase.published = none
  | _ => True

end Job

/-- The effect touches neither the aggregator nor what the active run has counted. -/
def Effect.SparesIngest : Effect → Prop
  | .record _ _ | .resetAggregator | .publish _ | .section (.countEvent _ _) => False
  | _ => True

/-! ## The other jobs -/

theorem Inner.IsActive.unique {inner : Inner} {run other : RunId} (h : inner.IsActive run)
    (h' : inner.IsActive other) : other = run := by
  obtain ⟨active, hactive, rfl⟩ := h
  exact ((Inner.isActive_iff hactive other).mp h').symm

section Jobs

variable {cache : Option HostCache} {s s' : ServerState} {job : Job} {choice : Choice} {m : Move}
  {run other : RunId} {todo : Applying}

/-- An event of another run is not applied. -/
theorem Applying.next_other (hactive : s.inner.IsActive run) (hother : other ≠ run)
    (htodo : ∀ w, todo ≠ .record w) :
    (todo.next s.inner other).1.SparesIngest ∧
      ∀ todo', (todo.next s.inner other).2 = .more todo' → ∀ w, todo' ≠ .record w := by
  cases todo with
  | event e =>
      have hnot : ¬ s.inner.IsActive other := fun h => hother (hactive.unique h)
      rw [Applying.next, if_neg hnot]
      exact ⟨trivial, by simp⟩
  | record w => exact absurd rfl (htodo w)
  | load b =>
      simp only [Applying.next]
      split
      · exact ⟨trivial, by simp⟩
      · exact ⟨trivial, by simp⟩
  | attachTarget pid taskPort =>
      simp only [Applying.next]
      split
      · exact ⟨trivial, by simp⟩
      · exact ⟨trivial, by simp⟩
  | unload baseAvma =>
      simp only [Applying.next]
      split
      · exact ⟨trivial, by simp⟩
      · exact ⟨trivial, by simp⟩
  | insert b => exact ⟨trivial, by simp [Applying.next]⟩
  | setTarget pid taskPort => exact ⟨trivial, by simp [Applying.next]⟩
  | bump => exact ⟨trivial, by simp [Applying.next]⟩

theorem Applying.Aside.next (h : todo.Aside) (inner : Inner) (other : RunId) :
    (todo.next inner other).1.SparesIngest ∧
      ∀ todo', (todo.next inner other).2 = .more todo' → todo'.Aside := by
  cases todo with
  | event e => exact absurd rfl (h.1 e)
  | record w => exact absurd rfl (h.2 w)
  | load b | attachTarget pid taskPort | unload baseAvma =>
      simp only [Applying.next]
      split
      · exact ⟨trivial, by simp [Applying.Aside]⟩
      · exact ⟨trivial, by simp⟩
  | insert b | setTarget pid taskPort => exact ⟨trivial, by simp [Applying.next, Applying.Aside]⟩
  | bump => exact ⟨trivial, by simp [Applying.next]⟩

theorem Job.aside_drain (cancel : RunId) (events : List IngestEvent) (h : other ≠ run) :
    (drain other cancel events).Aside run := by
  cases events with
  | nil => exact h
  | cons e rest => exact ⟨h, by simp⟩

theorem Job.aside_begin (cache : Option HostCache) (starter : Starter) (label : String) (phase : BeginPhase) (now : ℕ)
    (hactive : s.inner.IsActive run) (h : phase.published = none) :
    (phase.next cache s starter label now).job.Aside run ∧
      (phase.next cache s starter label now).effect.SparesIngest := by
  obtain ⟨active, hsome, -⟩ := hactive
  cases phase with
  | clearStale => exact ⟨by simp only [BeginPhase.next]; split <;> rfl, trivial⟩
  | reapStale child => exact ⟨rfl, trivial⟩
  | fetchId => exact ⟨rfl, trivial⟩
  | publish q =>
      simp only [BeginPhase.next, hsome, Option.isSome_some, if_true]
      exact ⟨trivial, trivial⟩
  | resetAggregator q | resetBinaries q | bump q | attachSharedCache q =>
      simp [BeginPhase.published] at h

/-- While the run is active, a job that has nothing to do with it keeps away from what is ingested. -/
theorem Job.aside_next (hactive : s.inner.IsActive run) (haside : job.Aside run)
    (h : job.next cache s choice = some m) :
    m.job.Aside run ∧ (∀ job', m.fork = some job' → job'.Aside run) ∧ m.effect.SparesIngest := by
  fun_cases Job.next cache s job choice
  case case1 starter label phase now =>
    obtain rfl := Option.some_inj.mp h
    have hfork := (BeginPhase.next_cases cache s starter label now phase).1
    have hbegin := Job.aside_begin cache starter label phase now hactive haside
    refine ⟨hbegin.1, fun job' hjob' => ?_, hbegin.2⟩
    rw [hfork] at hjob'
    simp at hjob'
  all_goals
    simp only [Job.next, reduceCtorEq, Option.some_inj, if_true, if_false, *] at h <;>
      grind [Job.Aside, Effect.SparesIngest, Job.aside_drain, Applying.next_other,
        Applying.Aside.next, Reaper.done_cases, Wait.poll_cases, Wait.orTimeout_cases]

/-! ## The drainer -/

theorem Job.remaining_drain (run cancel : RunId) (events : List IngestEvent) :
    (drain run cancel events).remaining = events ∧ (drain run cancel events).unwritten = [] := by
  cases events <;> exact ⟨rfl, rfl⟩

/-- What the drainer's step does to the events: nothing, or the next one is checked and counted, or it
is written. -/
inductive Job.Advances (run : RunId) (job : Job) (m : Move) : Prop
  | keeps (hremaining : m.job.remaining = job.remaining) (hunwritten : m.job.unwritten = job.unwritten)
      (heffect : m.effect.SparesIngest)
  | checks (e : IngestEvent) (hremaining : job.remaining = e :: m.job.remaining)
      (hunwritten : job.unwritten = []) (hwrite : m.job.unwritten = e.aggregatorWrite.toList)
      (heffect : m.effect = .section (.countEvent run e.tally))
  | writes (w : AggregatorWrite) (hremaining : m.job.remaining = job.remaining)
      (hunwritten : job.unwritten = [w]) (hwritten : m.job.unwritten = [])
      (heffect : m.effect = .record run w)

theorem Job.remaining_afterCheck (run cancel : RunId) (e : IngestEvent) (rest : List IngestEvent) :
    (Job.drainer run cancel (.applying e.afterCheck rest)).remaining = rest ∧
      (Job.drainer run cancel (.applying e.afterCheck rest)).unwritten =
        e.aggregatorWrite.toList := by
  cases e <;> exact ⟨rfl, rfl⟩

theorem Job.remaining_applying (run cancel : RunId) (rest : List IngestEvent)
    (htodo : todo.Aside) :
    (Job.drainer run cancel (.applying todo rest)).remaining = rest ∧
      (Job.drainer run cancel (.applying todo rest)).unwritten = [] := by
  cases todo with
  | event e => exact absurd rfl (htodo.1 e)
  | record w => exact absurd rfl (htodo.2 w)
  | _ => exact ⟨rfl, rfl⟩

/-- A drainer in the middle of an event takes the event's next section. -/
theorem Job.drains_applying {cancel : RunId} {rest : List IngestEvent} {now : ℕ}
    (hactive : s.inner.IsActive run)
    (h : Job.next cache s (.drainer run cancel (.applying todo rest)) (.go now) = some m) :
    m.job.Drains run ∧ m.fork = none ∧
      (Job.drainer run cancel (.applying todo rest)).Advances run m := by
  have hdrain := Job.remaining_drain run cancel rest
  have hdrains : (drain run cancel rest).Drains run := by
    cases rest <;> exact .drainer _ _
  by_cases htodo : todo.Aside
  · obtain ⟨heffect, hmore⟩ := htodo.next s.inner run
    obtain ⟨hremaining, hunwritten⟩ := Job.remaining_applying run cancel rest htodo
    simp only [Job.next] at h
    split at h
    · rename_i effect todo' hnext
      rw [hnext] at heffect hmore
      obtain rfl := Option.some_inj.mp h
      obtain ⟨hremaining', hunwritten'⟩ :=
        Job.remaining_applying run cancel rest (hmore todo' rfl)
      exact ⟨.drainer _ _, rfl, .keeps (hremaining'.trans hremaining.symm)
        (hunwritten'.trans hunwritten.symm) heffect⟩
    · rename_i effect progress hnext hprogress
      rw [hprogress] at heffect
      obtain rfl := Option.some_inj.mp h
      exact ⟨hdrains, rfl, .keeps (hdrain.1.trans hremaining.symm)
        (hdrain.2.trans hunwritten.symm) heffect⟩
  · cases todo with
    | event e =>
        simp only [Job.next, Applying.next, if_pos hactive, Option.some_inj] at h
        subst h
        obtain ⟨hremaining, hwrite⟩ := Job.remaining_afterCheck run cancel e rest
        exact ⟨.drainer _ _, rfl, .checks e (by rw [hremaining]; rfl) rfl hwrite rfl⟩
    | record w =>
        obtain rfl := Option.some_inj.mp h
        exact ⟨.drainer _ _, rfl, .writes w rfl rfl rfl rfl⟩
    | _ => exact absurd ⟨by simp, by simp⟩ htodo

/-- While the run is active, its drainer checks and writes one event after the other. -/
theorem Job.drains_next (hactive : s.inner.IsActive run) (hdrains : job.Drains run)
    (h : job.next cache s choice = some m) (hchoice : ∀ events, choice ≠ .received events) :
    m.job.Drains run ∧ m.fork = none ∧ job.Advances run m := by
  cases hdrains with
  | drainer cancel phase =>
      cases phase with
      | spawned =>
          cases choice with
          | go now =>
              obtain rfl := Option.some_inj.mp h
              exact ⟨.drainer _ _, rfl, .keeps rfl rfl trivial⟩
          | _ => simp [Job.next] at h
      | waiting notified =>
          cases notified <;> cases choice <;> simp only [Job.next, reduceCtorEq, Option.some_inj] at h
          all_goals subst h
          · rename_i events
            -- receiving a batch is left to a lemma of its own
            exact absurd rfl (hchoice events)
          · exact ⟨.drainer _ _, rfl, .keeps rfl rfl trivial⟩
          · exact ⟨.drainer _ _, rfl, .keeps rfl rfl trivial⟩
          · exact ⟨.finalizeTerminal _, rfl, .keeps rfl rfl trivial⟩
      | detaching reason =>
          cases choice with
          | go now =>
              obtain rfl := Option.some_inj.mp h
              exact ⟨.finished, rfl, .keeps rfl rfl trivial⟩
          | _ => simp [Job.next] at h
      | applying todo rest =>
          cases choice with
          | go now => exact Job.drains_applying hactive h
          | _ => simp [Job.next] at h
  | finalizeTerminal reason =>
      cases choice with
      | go now =>
          obtain rfl := Option.some_inj.mp h
          exact ⟨.finalizeRun _, rfl, .keeps rfl rfl trivial⟩
      | _ => simp [Job.next] at h
  | finalizeRun reason =>
      cases choice with
      | go now =>
          obtain rfl := Option.some_inj.mp h
          refine ⟨?_, rfl, .keeps ?_ ?_ trivial⟩
          · show Job.Drains run (if s.inner.IsActive run then _ else _)
            -- the run is active, so its end goes on to the shade's child
            rw [if_pos hactive]
            exact .takeChild
          · show Job.remaining (if s.inner.IsActive run then _ else _) = _
            rw [if_pos hactive]
            rfl
          · show Job.unwritten (if s.inner.IsActive run then _ else _) = _
            rw [if_pos hactive]
            rfl
      | _ => simp [Job.next] at h
  | takeChild =>
      cases choice with
      | go now =>
          simp only [Job.next, Option.some_inj] at h
          subst h
          cases s.inner.shadeChild with
          | none => exact ⟨.finished, rfl, .keeps rfl rfl trivial⟩
          | some child => exact ⟨.reap child, rfl, .keeps rfl rfl trivial⟩
      | _ => simp [Job.next] at h
  | reap child =>
      cases choice with
      | go now =>
          obtain rfl := Option.some_inj.mp h
          exact ⟨.finished, rfl, .keeps rfl rfl trivial⟩
      | _ => simp [Job.next] at h
  | finished => simp [Job.next] at h

theorem Job.wake_drains (cancel : RunId) (h : job.Drains run) :
    (job.wake cancel).Drains run ∧ (job.wake cancel).remaining = job.remaining ∧
      (job.wake cancel).unwritten = job.unwritten := by
  cases h with
  | drainer handle phase => cases phase <;> exact ⟨.drainer _ _, rfl, rfl⟩
  | finalizeTerminal reason => exact ⟨.finalizeTerminal _, rfl, rfl⟩
  | finalizeRun reason => exact ⟨.finalizeRun _, rfl, rfl⟩
  | takeChild => exact ⟨.takeChild, rfl, rfl⟩
  | reap child => exact ⟨.reap child, rfl, rfl⟩
  | finished => exact ⟨.finished, rfl, rfl⟩

theorem Job.aside_wake (cancel : RunId) (h : job.Aside run) :
    (job.wake cancel).Aside run := by
  unfold Job.wake
  split
  · exact h
  · exact h

/-- A new call is not concerned with what is ingested for the run, unless it attaches a drainer. -/
theorem Job.aside_start (c : Call) (inner : Inner) (hattach : c ≠ .attachRun run) :
    (c.start inner).Aside run := by
  have hpublish (todos : List Applying) (htodos : ∀ todo ∈ todos, todo.Aside) (run' : RunId) :
      (publishAll run' todos).Aside run := by
    cases todos with
    | nil => trivial
    | cons todo rest =>
        exact ⟨htodos todo List.mem_cons_self, fun later h => htodos later (List.mem_cons_of_mem _ h)⟩
  cases c with
  | attachRun other =>
      show other ≠ run
      rintro rfl
      exact hattach rfl
  | publishTargetAttached run' pid taskPort =>
      exact hpublish [.attachTarget pid taskPort] (by simp [Applying.Aside]) run'
  | publishBinariesLoaded run' binaries =>
      exact hpublish (binaries.map .load) (by simp [Applying.Aside]) run'
  | publishBinariesUnloaded run' binaries =>
      exact hpublish (binaries.map fun b => .unload b.baseAvma) (by simp [Applying.Aside]) run'
  | startAttach label | startLaunch label | startRun label => exact rfl
  | stopActive | waitActive condition timeoutMs now | watchdog => trivial

end Jobs

/-! ## What the run has counted -/

/-- The summary has counted the events. -/
def RunSummary.Counted (summary : RunSummary) (events : List IngestEvent) : Prop :=
  summary.petSamples = events.countP (fun e => e.tally = .sample) ∧
    summary.offCpuIntervals = events.countP fun e => e.tally = .offCpuInterval

theorem RunSummary.Counted.count {summary : RunSummary} {events : List IngestEvent}
    (h : summary.Counted events) (e : IngestEvent) :
    (summary.count e.tally).Counted (events ++ [e]) := by
  obtain ⟨hsamples, hintervals⟩ := h
  cases htally : e.tally with
  | sample | offCpuInterval | target pid | nothing =>
      refine ⟨?_, ?_⟩
      · simp [RunSummary.count, hsamples, htally]
      · simp [RunSummary.count, hintervals, htally]

/-- The active run has counted the events. -/
def Inner.Counted (inner : Inner) (events : List IngestEvent) : Prop :=
  ∀ active, inner.active = some active → active.Counted events

/-- A section that has nothing to do with ingest leaves the counters of the run as they are. -/
theorem Inner.Counted.run {inner : Inner} {events : List IngestEvent} (h : inner.Counted events)
    {part : Section} (hspares : (Effect.section part).SparesIngest) :
    (part.run inner).Counted events := by
  intro active' hactive'
  rcases part.run_cases inner with ⟨hsame, -⟩ | ⟨active, changed, hactive, hchanges, hnow, -⟩ |
    ⟨_, _, -, -, hnone, -⟩
  · exact h active' (hsame ▸ hactive')
  · obtain rfl := Option.some_inj.mp (hnow.symm.trans hactive')
    have hcounted := h active hactive
    cases part with
    | stopActive now =>
        rw [show changed = active.stop .userStop now from hchanges]
        exact hcounted
    | attachTarget run pid =>
        rw [hchanges.2]
        exact hcounted
    | countEvent run tally => exact absurd hspares id
    | _ => exact absurd hchanges id
  · rw [hnone] at hactive'
    simp at hactive'

/-- The events that the action hands to the drainer. -/
def Action.receivedBy (t : ℕ) : Action → List IngestEvent
  | .step i (.received events) => if i = t then events else []
  | _ => []

namespace ServerState

variable {cache : Option HostCache} {s s' : ServerState} {action : Action} {run : RunId} {t : ℕ}
  {received processed : List IngestEvent} {effect : Effect}

theorem apply_spares (hspares : effect.SparesIngest) (hcounted : s.inner.Counted processed) :
    (s.apply effect).aggregator = s.aggregator ∧ (s.apply effect).inner.Counted processed := by
  cases effect with
  | «section» part => exact ⟨rfl, hcounted.run hspares⟩
  | record _ _ | resetAggregator | publish _ => exact absurd hspares id
  | storeChild pid run =>
      refine ⟨rfl, ?_⟩
      show (Section.run s.inner (.storeChild { pid := pid, child := s.nextCell run })).Counted _
      exact hcounted.run trivial
  | _ => exact ⟨rfl, hcounted⟩

/-- The run's drainer has been through these of the events it received; they are in the aggregator,
but for the one that is about to be written, and are counted.  No other job is concerned. -/
structure Fed (s : ServerState) (run : RunId) (t : ℕ) (received processed : List IngestEvent)
    (job : Job) : Prop where
  stands : s.jobs[t]? = some job
  drains : job.Drains run
  others : ∀ i other, i ≠ t → s.jobs[i]? = some other → other.Aside run
  received : received = processed ++ job.remaining
  written : s.aggregator.entries ++ job.unwritten.map (run, ·) =
    (processed.filterMap IngestEvent.aggregatorWrite).map (run, ·)
  counted : s.inner.Counted processed

/-! ## One step -/

/-- Where the jobs after a move come from. -/
theorem getElem?_move_cases {i k : ℕ} {m : Move} {other : Job}
    (h : (s.move i m).jobs[k]? = some other) :
    (k = i ∧ other = m.job) ∨ m.fork = some other ∨
      ∃ old, k ≠ i ∧ s.jobs[k]? = some old ∧ (other = old ∨ ∃ cancel, other = old.wake cancel) := by
  rw [move] at h
  rcases Nat.lt_or_ge k ((s.apply m.effect).jobs.set i m.job).length with hk | hk
  · rw [List.getElem?_append_left hk, List.getElem?_set] at h
    split_ifs at h with hi hlt
    · exact Or.inl ⟨hi.symm, (Option.some_inj.mp h).symm⟩
    · refine Or.inr (Or.inr ?_)
      rcases jobs_apply s m.effect with hjobs | ⟨cancel, -, hjobs⟩
      · rw [hjobs] at h
        exact ⟨other, Ne.symm hi, h, Or.inl rfl⟩
      · rw [hjobs, List.getElem?_map] at h
        obtain ⟨old, hold, rfl⟩ := Option.map_eq_some_iff.mp h
        exact ⟨old, Ne.symm hi, hold, Or.inr ⟨cancel, rfl⟩⟩
  · rw [List.getElem?_append_right hk] at h
    exact Or.inr (Or.inl (Option.mem_toList.mp (List.mem_of_getElem? h)))

/-- Another job moves. -/
theorem Fed.move_other {job other : Job} {choice : Choice} {m : Move} {i : ℕ}
    (h : Fed s run t received processed job) (hactive : s.inner.IsActive run) (hne : i ≠ t)
    (hi : s.jobs[i]? = some other) (hm : other.next cache s choice = some m) :
    ∃ job', Fed (s.move i m) run t received processed job' := by
  obtain ⟨haside, hfork, hspares⟩ := Job.aside_next hactive (h.others i other hne hi) hm
  obtain ⟨haggregator, hcounted⟩ := apply_spares hspares h.counted
  have hothers : ∀ k other', k ≠ t → (s.move i m).jobs[k]? = some other' → other'.Aside run := by
    intro k other' hk hother'
    rcases getElem?_move_cases hother' with ⟨-, rfl⟩ | hforked | ⟨old, -, hold, rfl | ⟨cancel, rfl⟩⟩
    · exact haside
    · exact hfork other' hforked
    · exact h.others k other' hk hold
    · exact Job.aside_wake cancel (h.others k old hk hold)
  have hwritten := h.written
  rw [← haggregator] at hwritten
  rcases getElem?_move_of_ne (m := m) h.stands hne with hstays | ⟨cancel, -, hwoken⟩
  · exact ⟨job, hstays, h.drains, hothers, h.received, hwritten, hcounted⟩
  · obtain ⟨hdrains, hremaining, hunwritten⟩ := Job.wake_drains cancel h.drains
    refine ⟨job.wake cancel, hwoken, hdrains, hothers, ?_, ?_, hcounted⟩
    · rw [hremaining]
      exact h.received
    · rw [hunwritten]
      exact hwritten

/-- The drainer moves. -/
theorem Fed.move_self {job : Job} {choice : Choice} {m : Move}
    (h : Fed s run t received processed job) (hactive : s.inner.IsActive run)
    (hm : job.next cache s choice = some m) (hchoice : ∀ events, choice ≠ .received events) :
    ∃ processed' job', Fed (s.move t m) run t received processed' job' := by
  obtain ⟨hdrains, hfork, hadvances⟩ := Job.drains_next hactive h.drains hm hchoice
  -- the other jobs are at most woken
  have hothers : ∀ k other, k ≠ t → (s.move t m).jobs[k]? = some other → other.Aside run := by
    intro k other hk hother
    rcases getElem?_move_cases hother with ⟨rfl, -⟩ | hforked | ⟨old, -, hold, rfl | ⟨cancel, rfl⟩⟩
    · exact absurd rfl hk
    · rw [hfork] at hforked
      simp at hforked
    · exact h.others k other hk hold
    · exact Job.aside_wake cancel (h.others k old hk hold)
  have hstands : (s.move t m).jobs[t]? = some m.job := getElem?_move_self h.stands
  have hreceived := h.received
  have hwritten := h.written
  cases hadvances with
  | keeps hremaining hunwritten hspares =>
      obtain ⟨haggregator, hcounted⟩ := apply_spares hspares h.counted
      refine ⟨processed, m.job, hstands, hdrains, hothers, ?_, ?_, hcounted⟩
      · rw [hremaining]
        exact hreceived
      · rw [hunwritten]
        show (s.apply m.effect).aggregator.entries ++ _ = _
        rw [haggregator]
        exact hwritten
  | checks e hremaining hunwritten hwrite heffect =>
      -- the event counts as processed from its check on; its write may still be to come
      refine ⟨processed ++ [e], m.job, hstands, hdrains, hothers, ?_, ?_, ?_⟩
      · rw [hreceived, hremaining, List.append_assoc, List.singleton_append]
      · rw [hunwritten, List.map_nil, List.append_nil] at hwritten
        show (s.apply m.effect).aggregator.entries ++ _ = _
        rw [heffect, hwrite]
        show s.aggregator.entries ++ _ = _
        rw [hwritten, List.filterMap_append, List.map_append]
        cases hsome : e.aggregatorWrite <;> simp [hsome]
      · show (s.apply m.effect).inner.Counted (processed ++ [e])
        rw [heffect]
        intro active' hactive'
        obtain ⟨active, hsome, hid⟩ := hactive
        -- the counters of the active run count it in the same section
        have hnow : (Section.run s.inner (.countEvent run e.tally)).active =
            some (active.count e.tally) := by
          simp [Section.run, Inner.countEvent, hsome, hid]
        obtain rfl := Option.some_inj.mp (hnow.symm.trans hactive')
        exact (h.counted active hsome).count e
  | writes w hremaining hunwritten hwrote heffect =>
      -- what was still to be written is written now
      refine ⟨processed, m.job, hstands, hdrains, hothers, ?_, ?_, ?_⟩
      · rw [hremaining]
        exact hreceived
      · rw [hunwritten] at hwritten
        show (s.apply m.effect).aggregator.entries ++ _ = _
        rw [heffect, hwrote, List.map_nil, List.append_nil]
        exact hwritten
      · show (s.apply m.effect).inner.Counted processed
        rw [heffect]
        exact h.counted

/-- The drainer receives a batch. -/
theorem Fed.receive {job : Job} {m : Move} {events : List IngestEvent}
    (h : Fed s run t received processed job) (hm : job.next cache s (.received events) = some m) :
    ∃ job', Fed (s.move t m) run t (received ++ events) processed job' := by
  obtain ⟨cancel, rfl, rfl⟩ : ∃ cancel, job = .drainer run cancel (.waiting false) ∧
      m = { job := drain run cancel events } := by
    cases h.drains with
    | drainer cancel phase =>
        cases phase with
        | waiting notified =>
            cases notified with
            | false => exact ⟨cancel, rfl, (Option.some_inj.mp hm).symm⟩
            | true => simp [Job.next] at hm
        | _ => simp [Job.next] at hm
    | _ => simp [Job.next] at hm
  obtain ⟨hremaining, hunwritten⟩ := Job.remaining_drain run cancel events
  refine ⟨drain run cancel events, getElem?_move_self h.stands, ?_, ?_, ?_, ?_, h.counted⟩
  · cases events <;> exact .drainer _ _
  · intro k other hk hother
    rcases getElem?_move_cases hother with ⟨rfl, -⟩ | hforked | ⟨old, -, hold, rfl | ⟨cancel, rfl⟩⟩
    · exact absurd rfl hk
    · simp at hforked
    · exact h.others k other hk hold
    · exact Job.aside_wake cancel (h.others k old hk hold)
  · have hreceived : received = processed ++ [] := h.received
    rw [hremaining, hreceived, List.append_nil]
  · rw [hunwritten]
    exact h.written

/-- Whatever the server does, the run's drainer has written what it has processed, in order, but for
one write. -/
theorem Fed.step {job : Job} (h : Fed s run t received processed job)
    (hactive : s.inner.IsActive run) (hattach : action ≠ .call (.attachRun run))
    (hstep : ServerState.step cache s action = some s') :
    ∃ processed' job', Fed s' run t (received ++ action.receivedBy t) processed' job' := by
  rcases step_cases hstep with ⟨c, rfl, rfl⟩ | ⟨i, choice, other, m, rfl, hi, hm, rfl⟩ |
    ⟨effect, heffect, rfl⟩
  · have hnone : (Action.call c).receivedBy t = [] := rfl
    rw [hnone, List.append_nil]
    refine ⟨processed, job, ?_, h.drains, ?_, h.received, h.written, h.counted⟩
    · rw [List.getElem?_append_left (List.getElem?_eq_some_iff.mp h.stands).1]
      exact h.stands
    · intro k other hk hother
      -- the new job is the call, which is not another drainer
      rcases Nat.lt_or_ge k s.jobs.length with hlt | hge
      · rw [List.getElem?_append_left hlt] at hother
        exact h.others k other hk hother
      · rw [List.getElem?_append_right hge] at hother
        rw [List.mem_singleton.mp (List.mem_of_getElem? hother)]
        exact Job.aside_start c s.inner fun hcall => hattach (by rw [hcall])
  · by_cases hne : i = t
    · subst hne
      obtain rfl := Option.some_inj.mp (hi.symm.trans h.stands)
      -- the drainer itself: it receives a batch, or goes on with one
      by_cases hchoice : ∃ events, choice = .received events
      · obtain ⟨events, rfl⟩ := hchoice
        obtain ⟨job', hfed⟩ := h.receive hm
        refine ⟨processed, job', ?_⟩
        rw [Action.receivedBy, if_pos rfl]
        exact hfed
      · have hnot : ∀ events, choice ≠ .received events :=
          fun events hevents => hchoice ⟨events, hevents⟩
        have hnone : (Action.step i choice).receivedBy i = [] := by
          cases choice <;> first | rfl | exact absurd rfl (hnot _)
        rw [hnone, List.append_nil]
        exact h.move_self hactive hm hnot
    · have hnone : (Action.step i choice).receivedBy t = [] := by
        cases choice <;> first | rfl | exact if_neg hne
      rw [hnone, List.append_nil]
      -- any other job leaves the run's aggregator and counters alone
      obtain ⟨job', hfed⟩ := h.move_other hactive hne hi hm
      exact ⟨processed, job', hfed⟩
  · have hspares : effect.SparesIngest ∧ action.receivedBy t = [] ∧ (s.apply effect).jobs = s.jobs := by
      cases action with
      | registerShade info commands | shadeSessionClosed shadePid | attachTerminal r | setPaused p =>
          obtain rfl := Option.some_inj.mp heffect
          exact ⟨trivial, rfl, rfl⟩
      | _ => simp [effectOf] at heffect
    obtain ⟨hspares, hnone, hjobs⟩ := hspares
    obtain ⟨haggregator, hcounted⟩ := apply_spares hspares h.counted
    rw [hnone, List.append_nil]
    refine ⟨processed, job, hjobs ▸ h.stands, h.drains, ?_, h.received, haggregator ▸ h.written,
      hcounted⟩
    rw [hjobs]
    exact h.others

end ServerState

end Stax.Server
