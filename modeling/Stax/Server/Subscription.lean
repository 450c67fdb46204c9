/-
# Stax.Server.Subscription — when what a subscriber was sent last is what there is.

A subscriber polls the revision, and makes a view of the stores if the revision is another one than
when it looked last.  Every writer bumps the revision after its write, so a write that a view misses
is followed by a revision that the subscriber has not seen.  The one write with no bump after it is
where `begin_run` attaches the shared cache.

A view is made in a section under both locks, and for some views of a second one under the lock of
the binaries; what a view does to their caches is left out.
-/
import Stax.Binaries.Labels
import Stax.Server.RunRegistry

namespace Stax.Server

open Stax.Lib Stax.Lib.Machine

/-! ## Subscribers -/

/-- What the first section of making a view reads, and what the second one makes of it. -/
structure View (γ β : Type*) where
  read : LiveAggregator → Binaries.BinaryRegistry → γ
  finish : γ → Binaries.BinaryRegistry → β

/-- Where a subscriber is: between two ticks, about to read, or about to publish what it has read.
-/
inductive SubscriberPhase (γ : Type*)
  | ticking
  | reading
  | finishing (seen : γ)

/-- The subscriber holds nothing that it has read. -/
def SubscriberPhase.isTicking {γ : Type*} : SubscriberPhase γ → Bool
  | .ticking => true
  | .reading | .finishing _ => false

/-- A subscription, with the revision it last saw and what it published last. -/
@[ext] structure Subscriber (γ β : Type*) where
  lastSeen : Option ℕ := none
  phase : SubscriberPhase γ := .ticking
  published : Option β := none

/-- Whether to publish, and what is seen last from then on. -/
def shouldPublishRevision (current : ℕ) (lastSeen : Option ℕ) : Bool × Option ℕ :=
  match lastSeen with
  | some last => if last = current then (false, lastSeen) else (true, some current)
  | none => (true, some current)

/-- The server with one subscriber. -/
structure Watched (γ β : Type*) where
  server : ServerState
  subscriber : Subscriber γ β := {}

/-- A step of the server, or one of the three steps of a subscriber. -/
inductive WatchAction
  | server (action : Action)
  | poll
  | read
  | publish

variable {γ β : Type*} {cache : Option HostCache} {view : View γ β} {s s' : ServerState}

/-- The view of the stores as they are. -/
def View.of (view : View γ β) (s : ServerState) : β :=
  view.finish (view.read s.aggregator.contents s.binaries.contents) s.binaries.contents

namespace Watched

/-- The server at its start, with a subscriber that has seen nothing. -/
def initial : Watched γ β := { server := .initial }

/-- What an action does, where it can happen at all; a subscriber reads only when the revision has
changed. -/
def step (cache : Option HostCache) (view : View γ β) (w : Watched γ β) :
    WatchAction → Option (Watched γ β)
  | .server action => (w.server.step cache action).map fun s => { w with server := s }
  | .poll =>
    match w.subscriber.phase with
    | .ticking =>
      let (publish, lastSeen) := shouldPublishRevision w.server.revision w.subscriber.lastSeen
      some { w with subscriber :=
        { w.subscriber with lastSeen := lastSeen, phase := if publish then .reading else .ticking } }
    | _ => none
  | .read =>
    match w.subscriber.phase with
    | .reading =>
      some { w with subscriber :=
        { w.subscriber with
          phase := .finishing (view.read w.server.aggregator.contents w.server.binaries.contents) } }
    | _ => none
  | .publish =>
    match w.subscriber.phase with
    | .finishing seen =>
      some { w with subscriber :=
        { w.subscriber with
          phase := .ticking
          published := some (view.finish seen w.server.binaries.contents) } }
    | _ => none

end Watched

/-! ## Writers -/

namespace Job

/-- A call that writes to the stores, or may do so, is under way. -/
def isWriter : Job → Bool
  | .begin _ _ _ | .drainer _ _ (.applying _ _) | .publishing _ _ _ => true
  | _ => false

/-- The writer has yet to bump the revision for what it has written. -/
def bumps : Job → Bool
  | .begin _ _ (.resetBinaries _) | .begin _ _ (.bump _) => true
  | .drainer _ _ (.applying todo _) | .publishing _ todo _ => todo = .bump
  | _ => false

/-- The writer attaches the shared cache. -/
def attaches : Job → Bool
  | .begin _ _ (.attachSharedCache _) => true
  | _ => false

end Job

/-- The effect changes the aggregator or the binary registry. -/
def Effect.writes : Effect → Bool
  | .record _ _ | .resetAggregator | .register _ _ | .resetBinaries => true
  | _ => false

theorem ServerState.stores_of_not_writes {effect : Effect} (h : effect.writes = false) :
    (s.apply effect).aggregator = s.aggregator ∧ (s.apply effect).binaries = s.binaries := by
  cases effect with
  | record run w => simp [Effect.writes] at h
  | resetAggregator => simp [Effect.writes] at h
  | register run w => simp [Effect.writes] at h
  | resetBinaries => simp [Effect.writes] at h
  | _ => exact ⟨rfl, rfl⟩

theorem ServerState.revision_of_ne {effect : Effect} (h : effect ≠ .bumpRevision) :
    (s.apply effect).revision = s.revision := by
  cases effect with
  | bumpRevision => exact absurd rfl h
  | _ => rfl

/-! ## Conditions and what they keep -/

/-- No shared cache is attached: the host has none, or the step is another one. -/
def Bumped (cache : Option HostCache) (w : Watched γ β) : WatchAction → Prop
  | .server (.step t _) => ∀ job ∈ w.server.jobs[t]?, job.attaches → cache = none
  | _ => True

instance instDecidableBumped (cache : Option HostCache) (w : Watched γ β) (action : WatchAction) :
    Decidable (Bumped cache w action) :=
  match action with
  | .server (.step t _) =>
    decidable_of_iff (∀ job ∈ w.server.jobs[t]?, job.attaches → cache.isNone = true)
      (by simp only [Bumped, Option.isNone_iff_eq_none])
  | .server (.call _) | .server (.registerShade _ _) | .server (.shadeSessionClosed _)
  | .server (.attachTerminal _) | .server (.setPaused _) | .poll | .read | .publish =>
    isTrue trivial

/-- The subscriber has looked at the stores since the revision became this. -/
def Subscriber.hasLooked (self : Subscriber γ β) (revision : ℕ) : Bool :=
  self.lastSeen = some revision &&
    match self.phase with
    | .reading => false
    | .ticking | .finishing _ => true

/-- When a shared cache is attached, the subscriber has yet to look at the stores at this revision, or
another writer has yet to bump it. -/
def Followed (cache : Option HostCache) (w : Watched γ β) : WatchAction → Prop
  | .server (.step t _) =>
    ∀ job ∈ w.server.jobs[t]?, job.attaches → cache.isSome →
      w.subscriber.hasLooked w.server.revision → ∃ other ∈ w.server.jobs, other.bumps
  | _ => True

instance (cache : Option HostCache) (w : Watched γ β) (action : WatchAction) :
    Decidable (Followed cache w action) :=
  match action with
  | .server (.step t _) =>
    inferInstanceAs (Decidable (∀ job ∈ w.server.jobs[t]?, job.attaches → cache.isSome →
      w.subscriber.hasLooked w.server.revision → ∃ other ∈ w.server.jobs, other.bumps))
  | .server (.call _) | .server (.registerShade _ _) | .server (.shadeSessionClosed _)
  | .server (.attachTerminal _) | .server (.setPaused _) | .poll | .read | .publish =>
    isTrue trivial

/-- All writers have finished. -/
def Idle (w : Watched γ β) (_ : WatchAction) : Prop := ∀ job ∈ w.server.jobs, ¬ job.isWriter

instance (w : Watched γ β) (action : WatchAction) : Decidable (Idle w action) :=
  inferInstanceAs (Decidable (∀ job ∈ w.server.jobs, ¬ job.isWriter))

/-- The view that was published, or what was read for the next one, is that of the stores. -/
def Watched.UpToDate (view : View γ β) (w : Watched γ β) : Prop :=
  match w.subscriber.phase with
  | .ticking => w.subscriber.published = some (view.of w.server)
  | .reading => True
  | .finishing seen => seen = view.read w.server.aggregator.contents w.server.binaries.contents

/-- A subscriber that has seen the current revision is up to date, or a bump is under way. -/
structure Watched.Fresh (view : View γ β) (w : Watched γ β) : Prop where
  seen : ∀ r, w.subscriber.lastSeen = some r → r ≤ w.server.revision
  current : w.subscriber.lastSeen = some w.server.revision →
    w.UpToDate view ∨ ∃ job ∈ w.server.jobs, job.bumps

/-! ## What writers do -/

namespace Job

variable {job : Job} {choice : Choice} {m : Move}

theorem bumps_wake (cancel : RunId) (job : Job) : (job.wake cancel).bumps = job.bumps := by
  unfold wake
  split <;> rfl

theorem bumps_begin (starter : Starter) (label : String) (phase : BeginPhase) (now : ℕ)
    (hattaches : (Job.begin starter label phase).attaches = false) :
    (((Job.begin starter label phase).bumps ∨
        (phase.next cache s starter label now).effect.writes) →
      (phase.next cache s starter label now).effect = .bumpRevision ∨
        (phase.next cache s starter label now).job.bumps) := by
  cases phase with
  | clearStale => simp [bumps, BeginPhase.next, Effect.writes]
  | publish run =>
      simp only [BeginPhase.next]
      split_ifs <;> simp [bumps, Effect.writes]
  | attachSharedCache run => simp [attaches] at hattaches
  | bump run => exact fun _ => Or.inl rfl
  | resetAggregator run => exact fun _ => Or.inr rfl
  | resetBinaries run => exact fun _ => Or.inr rfl
  | _ => simp [bumps, BeginPhase.next, Effect.writes]

end Job

/-- What is written of an event is bumped for next. -/
theorem Applying.next_cases (todo : Applying) (inner : Inner) (run : RunId) :
    (todo = .bump ∧ todo.next inner run = (.bumpRevision, .done)) ∨
      (todo ≠ .bump ∧ (todo.next inner run).1 ≠ .bumpRevision ∧
        ((todo.next inner run).1.writes → (todo.next inner run).2 = .more .bump)) := by
  cases todo with
  | bump => exact Or.inl ⟨rfl, rfl⟩
  | event e =>
      simp only [Applying.next]
      split_ifs <;> simp [Effect.writes]
  | load b =>
      simp only [Applying.next]
      split <;> simp [Effect.writes]
  | unload baseAvma =>
      simp only [Applying.next]
      split <;> simp [Effect.writes]
  | attachTarget pid taskPort =>
      simp only [Applying.next]
      split <;> simp [Effect.writes]
  | _ => simp [Applying.next]

namespace Job

variable {job : Job} {choice : Choice} {m : Move}

/-- Who has a bump to make, or writes now, bumps now or has a bump to make still; the shared cache
is written without. -/
theorem bumps_next (h : job.next cache s choice = some m) (hattaches : job.attaches = false)
    (hbumps : job.bumps ∨ m.effect.writes) : m.effect = .bumpRevision ∨ m.job.bumps := by
  fun_cases Job.next cache s job choice
  case case1 starter label phase now =>
    obtain rfl := Option.some_inj.mp h
    exact bumps_begin starter label phase now hattaches hbumps
  all_goals
    simp only [Job.next, reduceCtorEq, Option.some_inj, if_true, if_false, *] at h <;>
      grind [bumps, Effect.writes, Applying.next_cases]

/-- Only a writer writes, and only a writer bumps. -/
theorem isWriter_of_writes (h : job.next cache s choice = some m)
    (hwrites : m.effect.writes ∨ m.effect = .bumpRevision) : job.isWriter := by
  fun_cases Job.next cache s job choice
  all_goals
    simp only [Job.next, reduceCtorEq, Option.some_inj, if_true, if_false, *] at h <;>
      grind [isWriter, Effect.writes]

/-- The shared cache is attached with a write after which no bump is left to make. -/
theorem effect_of_attaches (h : job.next cache s choice = some m) (hattaches : job.attaches) :
    m.job.bumps = false ∧
      (cache = none ∧ m.effect = .none ∨
        ∃ host run, cache = some host ∧ m.effect = .register run (.attachSharedCache host)) := by
  unfold attaches at hattaches
  split at hattaches
  · rename_i starter label run
    cases choice <;> simp [next, BeginPhase.next] at h
    subst h
    refine ⟨by cases starter <;> rfl, ?_⟩
    cases cache with
    | none => exact Or.inl ⟨rfl, rfl⟩
    | some host => exact Or.inr ⟨host, run, rfl, rfl⟩
  · simp at hattaches

end Job

namespace ServerState

variable {action : Action}

/-- A step leaves the stores, or it writes and its writer has a bump to make, or it attaches the
shared cache. -/
theorem stores_step (hstep : ServerState.step cache s action = some s') :
    (s'.aggregator = s.aggregator ∧ s'.binaries = s.binaries ∧ s.revision ≤ s'.revision) ∨
      (s'.revision = s.revision ∧ ∃ t choice job job', action = .step t choice ∧
        s.jobs[t]? = some job ∧ s'.jobs[t]? = some job' ∧
        (job'.bumps ∨ (job.attaches ∧ cache.isSome))) := by
  have hle (effect : Effect) : s.revision ≤ (s.apply effect).revision := by
    cases effect with
    | bumpRevision => exact Nat.le_succ _
    | _ => exact Nat.le_refl _
  have hkeeps (effect : Effect) (hwrites : effect.writes = false) :
      (s.apply effect).aggregator = s.aggregator ∧ (s.apply effect).binaries = s.binaries ∧
        s.revision ≤ (s.apply effect).revision :=
    ⟨(stores_of_not_writes hwrites).1, (stores_of_not_writes hwrites).2, hle effect⟩
  rcases step_cases hstep with ⟨c, -, rfl⟩ | ⟨t, choice, job, m, rfl, ht, hm, rfl⟩ |
    ⟨effect, heffect, rfl⟩
  · exact Or.inl ⟨rfl, rfl, Nat.le_refl _⟩
  · cases hwrites : m.effect.writes with
    | false => exact Or.inl (hkeeps m.effect hwrites)
    | true =>
        have hne : m.effect ≠ .bumpRevision := by
          intro heq
          simp [heq, Effect.writes] at hwrites
        refine Or.inr ⟨revision_of_ne hne, t, choice, job, m.job, rfl, ht, getElem?_move_self ht, ?_⟩
        cases hattaches : job.attaches with
        | true =>
            refine Or.inr ⟨rfl, ?_⟩
            rcases (Job.effect_of_attaches hm hattaches).2 with ⟨-, hnone⟩ | ⟨host, run, rfl, -⟩
            · simp [hnone, Effect.writes] at hwrites
            · rfl
        | false => exact Or.inl ((Job.bumps_next hm hattaches (Or.inr hwrites)).resolve_left hne)
  · refine Or.inl (hkeeps effect ?_)
    cases action with
    | registerShade info commands => rw [← Option.some_inj.mp heffect]; rfl
    | shadeSessionClosed shadePid => rw [← Option.some_inj.mp heffect]; rfl
    | attachTerminal run => rw [← Option.some_inj.mp heffect]; rfl
    | setPaused paused => rw [← Option.some_inj.mp heffect]; rfl
    | _ => simp [effectOf] at heffect

/-- A job with a bump to make makes it in its step, or has it to make still. -/
theorem bumps_move {t : ℕ} {job : Job} {choice : Choice} {m : Move} (ht : s.jobs[t]? = some job)
    (hm : job.next cache s choice = some m) (hbumps : job.bumps) :
    (s.move t m).revision = s.revision + 1 ∨
      ∃ job', (s.move t m).jobs[t]? = some job' ∧ job'.bumps := by
  have hattaches : job.attaches = false := by
    unfold Job.bumps at hbumps
    split at hbumps <;> first | rfl | simp at hbumps
  rcases Job.bumps_next hm hattaches (Or.inl hbumps) with heffect | hbumps'
  · refine Or.inl ?_
    change (s.apply m.effect).revision = s.revision + 1
    rw [heffect]
    rfl
  · exact Or.inr ⟨m.job, getElem?_move_self ht, hbumps'⟩

/-- A job with a bump to make keeps it until it makes it. -/
theorem bumps_step (hstep : ServerState.step cache s action = some s') {t : ℕ} {job : Job}
    (ht : s.jobs[t]? = some job) (hbumps : job.bumps) :
    (∃ choice, action = .step t choice ∧ s'.revision = s.revision + 1) ∨
      ∃ job', s'.jobs[t]? = some job' ∧ job'.bumps := by
  have hwoken (cancel : RunId) : (job.wake cancel).bumps := by rwa [Job.bumps_wake]
  rcases step_cases hstep with ⟨c, -, rfl⟩ | ⟨t', choice, mover, m, rfl, ht', hm, rfl⟩ |
    ⟨effect, -, rfl⟩
  · exact Or.inr ⟨job, (List.getElem?_append_left (List.getElem?_eq_some_iff.mp ht).1).trans ht,
      hbumps⟩
  · by_cases hne : t' = t
    · subst hne
      obtain rfl := Option.some_inj.mp (ht.symm.trans ht')
      exact (bumps_move ht hm hbumps).imp (fun hrevision => ⟨choice, rfl, hrevision⟩) id
    · rcases getElem?_move_of_ne (m := m) ht hne with hstays | ⟨cancel, -, hstays⟩
      · exact Or.inr ⟨job, hstays, hbumps⟩
      · exact Or.inr ⟨_, hstays, hwoken cancel⟩
  · rcases @getElem?_apply s effect t job ht with hstays | ⟨cancel, -, hstays⟩
    · exact Or.inr ⟨job, hstays, hbumps⟩
    · exact Or.inr ⟨_, hstays, hwoken cancel⟩

/-- A bump under way stays so until a bump is made. -/
theorem exists_bumps_step (hstep : ServerState.step cache s action = some s')
    (hbumps : ∃ job ∈ s.jobs, job.bumps) :
    s.revision < s'.revision ∨ ∃ job ∈ s'.jobs, job.bumps := by
  obtain ⟨job, hjob, hbumps⟩ := hbumps
  obtain ⟨t, ht⟩ := List.getElem?_of_mem hjob
  rcases bumps_step hstep ht hbumps with ⟨choice, -, hrevision⟩ | ⟨job', ht', hbumps'⟩
  · refine Or.inl ?_
    omega
  · exact Or.inr ⟨job', List.mem_of_getElem? ht', hbumps'⟩

/-- Without a writer the stores and the revision stay. -/
theorem stores_idle (hstep : ServerState.step cache s action = some s')
    (hidle : ∀ job ∈ s.jobs, ¬ job.isWriter) :
    s'.aggregator = s.aggregator ∧ s'.binaries = s.binaries ∧ s'.revision = s.revision := by
  have hkeeps (effect : Effect) (hwrites : effect.writes = false) (hne : effect ≠ .bumpRevision) :
      (s.apply effect).aggregator = s.aggregator ∧ (s.apply effect).binaries = s.binaries ∧
        (s.apply effect).revision = s.revision :=
    ⟨(stores_of_not_writes hwrites).1, (stores_of_not_writes hwrites).2, revision_of_ne hne⟩
  rcases step_cases hstep with ⟨c, -, rfl⟩ | ⟨t, choice, job, m, rfl, ht, hm, rfl⟩ |
    ⟨effect, heffect, rfl⟩
  · exact ⟨rfl, rfl, rfl⟩
  · have hnot : ¬ (m.effect.writes ∨ m.effect = .bumpRevision) := fun hwrites =>
      hidle job (List.mem_of_getElem? ht) (Job.isWriter_of_writes hm hwrites)
    rw [not_or, Bool.not_eq_true] at hnot
    exact hkeeps m.effect hnot.1 hnot.2
  · cases action with
    | registerShade info commands =>
        obtain rfl := Option.some_inj.mp heffect
        exact hkeeps _ rfl (by simp)
    | shadeSessionClosed shadePid =>
        obtain rfl := Option.some_inj.mp heffect
        exact hkeeps _ rfl (by simp)
    | attachTerminal run =>
        obtain rfl := Option.some_inj.mp heffect
        exact hkeeps _ rfl (by simp)
    | setPaused paused =>
        obtain rfl := Option.some_inj.mp heffect
        exact hkeeps _ rfl (by simp)
    | _ => simp [effectOf] at heffect

end ServerState

/-! ## Polls -/

theorem shouldPublishRevision_spec (current : ℕ) (lastSeen : Option ℕ) :
    (shouldPublishRevision current lastSeen).2 = some current ∧
      ((shouldPublishRevision current lastSeen).1 = false → lastSeen = some current) := by
  unfold shouldPublishRevision
  split
  · split_ifs with heq
    · subst heq
      exact ⟨rfl, fun _ => rfl⟩
    · exact ⟨rfl, fun h => absurd h (by simp)⟩
  · exact ⟨rfl, fun h => absurd h (by simp)⟩

namespace Watched

variable {w w' : Watched γ β} {action : WatchAction}

/-- A step of the server leaves the subscriber. -/
theorem step_server {serverAction : Action}
    (h : step cache view w (.server serverAction) = some w') :
    ServerState.step cache w.server serverAction = some w'.server ∧
      w'.subscriber = w.subscriber := by
  obtain ⟨s, hstep, rfl⟩ := Option.map_eq_some_iff.mp h
  exact ⟨hstep, rfl⟩

/-- A step of the subscriber leaves the server; it polls, reads or publishes. -/
theorem step_subscriber (h : step cache view w action = some w')
    (hnot : ∀ serverAction, action ≠ .server serverAction) :
    w'.server = w.server ∧
      ((action = .poll ∧ w.subscriber.phase = .ticking ∧
          w'.subscriber.lastSeen = some w.server.revision ∧
          (w'.subscriber.phase = .reading ∨
            (w.subscriber.lastSeen = some w.server.revision ∧ w'.subscriber = w.subscriber))) ∨
        (action = .read ∧ w.subscriber.phase = .reading ∧
          w'.subscriber.lastSeen = w.subscriber.lastSeen ∧
          w'.subscriber.phase = .finishing
            (view.read w.server.aggregator.contents w.server.binaries.contents)) ∨
        ∃ seen, action = .publish ∧ w.subscriber.phase = .finishing seen ∧
          w'.subscriber.lastSeen = w.subscriber.lastSeen ∧ w'.subscriber.phase = .ticking ∧
          w'.subscriber.published = some (view.finish seen w.server.binaries.contents)) := by
  cases action with
  | server serverAction => exact absurd rfl (hnot serverAction)
  | poll =>
      simp only [step] at h
      split at h
      · rename_i hphase
        obtain ⟨hseen, hsame⟩ :=
          shouldPublishRevision_spec w.server.revision w.subscriber.lastSeen
        obtain rfl := Option.some_inj.mp h
        refine ⟨rfl, Or.inl ⟨rfl, hphase, hseen, ?_⟩⟩
        -- a poll that finds nothing new changes nothing
        cases hpublish : (shouldPublishRevision w.server.revision w.subscriber.lastSeen).1 with
        | true => exact Or.inl rfl
        | false =>
            have hlast := hsame hpublish
            exact Or.inr ⟨hlast, Subscriber.ext (hseen.trans hlast.symm) hphase.symm rfl⟩
      · simp at h
  | read =>
      simp only [step] at h
      split at h
      · rename_i hphase
        obtain rfl := Option.some_inj.mp h
        exact ⟨rfl, Or.inr (Or.inl ⟨rfl, hphase, rfl, rfl⟩)⟩
      · simp at h
  | publish =>
      simp only [step] at h
      split at h
      · rename_i seen hphase
        obtain rfl := Option.some_inj.mp h
        exact ⟨rfl, Or.inr (Or.inr ⟨seen, rfl, hphase, rfl, rfl, rfl⟩)⟩
      · simp at h

theorem fresh_initial : (initial : Watched γ β).Fresh view where
  seen := fun _ h => absurd h (by simp [initial])
  current := fun h => absurd h (by simp [initial])

theorem UpToDate.of_server (h : w.UpToDate view) (hsubscriber : w'.subscriber = w.subscriber)
    (haggregator : w'.server.aggregator = w.server.aggregator)
    (hbinaries : w'.server.binaries = w.server.binaries) : w'.UpToDate view := by
  unfold UpToDate View.of at h ⊢
  rw [hsubscriber, haggregator, hbinaries]
  exact h

/-- A step of the server keeps a subscriber's view current, or leaves its writer a bump to make. -/
theorem Fresh.server_step (h : w.Fresh view) {serverAction : Action}
    (hfollowed : Followed cache w (.server serverAction))
    (hstep : step cache view w (.server serverAction) = some w') : w'.Fresh view := by
  obtain ⟨hserver, hsubscriber⟩ := step_server hstep
  have hle : w.server.revision ≤ w'.server.revision := by
    rcases ServerState.stores_step hserver with ⟨-, -, hle⟩ | ⟨heq, -⟩
    · exact hle
    · exact heq.ge
  refine ⟨fun r hr => ?_, fun hseen => ?_⟩
  · rw [hsubscriber] at hr
    exact (h.seen r hr).trans hle
  · -- what was seen before is not newer than the revision was, so no bump was made
    rw [hsubscriber] at hseen
    have hsame : w'.server.revision = w.server.revision :=
      le_antisymm (h.seen _ hseen) hle
    rw [hsame] at hseen
    have hkept (hbumps : ∃ job ∈ w.server.jobs, job.bumps) :
        ∃ job ∈ w'.server.jobs, job.bumps :=
      (ServerState.exists_bumps_step hserver hbumps).resolve_left (by omega)
    rcases ServerState.stores_step hserver with ⟨haggregator, hbinaries, -⟩ |
      ⟨-, t, choice, job, job', rfl, ht, ht', hbumps | ⟨hattaches, hcache⟩⟩
    · rcases h.current hseen with hcurrent | hbumps
      · exact Or.inl (hcurrent.of_server hsubscriber haggregator hbinaries)
      · exact Or.inr (hkept hbumps)
    · exact Or.inr ⟨job', List.mem_of_getElem? ht', hbumps⟩
    · by_cases hlooked : w.subscriber.hasLooked w.server.revision
      · exact Or.inr (hkept (hfollowed job ht hattaches hcache hlooked))
      · -- the subscriber is about to read, and reads what is written now
        refine Or.inl ?_
        have hreading : w'.subscriber.phase = .reading := by
          rw [hsubscriber]
          cases hphase : w.subscriber.phase with
          | reading => rfl
          | ticking => simp [Subscriber.hasLooked, hseen, hphase] at hlooked
          | finishing seen => simp [Subscriber.hasLooked, hseen, hphase] at hlooked
        unfold UpToDate
        rw [hreading]
        trivial

/-- A step of the subscriber keeps its view that of the revision it has seen. -/
theorem Fresh.subscriber_step (h : w.Fresh view) (hstep : step cache view w action = some w')
    (hnot : ∀ serverAction, action ≠ .server serverAction) : w'.Fresh view := by
  obtain ⟨hserver, ⟨-, -, hseen, hphase⟩ | ⟨-, hphase, hseen, hphase'⟩ |
    ⟨seen, -, hphase, hseen, hphase', hpublished⟩⟩ := step_subscriber hstep hnot
  · refine ⟨fun r hr => ?_, fun _ => ?_⟩
    · rw [hseen, Option.some_inj] at hr
      rw [hserver, hr]
    · rcases hphase with hreading | ⟨hlast, hsame⟩
      · refine Or.inl ?_
        unfold UpToDate
        rw [hreading]
        trivial
      · rw [hserver]
        rcases h.current hlast with hcurrent | hbumps
        · exact Or.inl (hcurrent.of_server hsame (by rw [hserver]) (by rw [hserver]))
        · exact Or.inr hbumps
  · refine ⟨fun r hr => ?_, fun _ => Or.inl ?_⟩
    · rw [hserver]
      exact h.seen r (hseen ▸ hr)
    · unfold UpToDate
      rw [hphase', hserver]
  · refine ⟨fun r hr => ?_, fun hlast => ?_⟩
    · rw [hserver]
      exact h.seen r (hseen ▸ hr)
    · rw [hseen, hserver] at hlast
      rw [hserver]
      rcases h.current hlast with hcurrent | hbumps
      · refine Or.inl ?_
        unfold UpToDate at hcurrent ⊢
        rw [hphase] at hcurrent
        rw [hphase', hpublished, hserver, hcurrent]
        rfl
      · exact Or.inr hbumps

theorem Fresh.step (h : w.Fresh view) (hfollowed : Followed cache w action)
    (hstep : Watched.step cache view w action = some w') : w'.Fresh view := by
  cases action with
  | server serverAction => exact h.server_step hfollowed hstep
  | poll => exact h.subscriber_step hstep (by simp)
  | read => exact h.subscriber_step hstep (by simp)
  | publish => exact h.subscriber_step hstep (by simp)

/-- Without a writer a subscriber that has seen the revision goes on having seen it. -/
theorem seen_idle (hidle : Idle w action) (hstep : Watched.step cache view w action = some w')
    (hseen : w.subscriber.lastSeen = some w.server.revision) :
    w'.subscriber.lastSeen = some w'.server.revision := by
  cases action with
  | server serverAction =>
      obtain ⟨hserver, hsubscriber⟩ := step_server hstep
      rw [hsubscriber, (ServerState.stores_idle hserver hidle).2.2, hseen]
  | _ =>
      obtain ⟨hserver, ⟨-, -, hseen', -⟩ | ⟨-, -, hseen', -⟩ | ⟨seen, -, -, hseen', -⟩⟩ :=
        step_subscriber hstep (by simp)
      all_goals rw [hserver, hseen']
      all_goals exact hseen

end Watched

theorem Job.isWriter_of_attaches {job : Job} (h : job.attaches) : job.isWriter := by
  unfold attaches at h
  split at h
  · rfl
  · simp at h

/-- Who attaches the shared cache is a writer. -/
theorem Idle.followed {w : Watched γ β} {action : WatchAction} (h : Idle w action) :
    Followed cache w action := by
  unfold Followed
  split
  · intro job ht hattaches _ _
    exact absurd (Job.isWriter_of_attaches hattaches) (h job (List.mem_of_getElem? ht))
  · trivial

theorem Job.isWriter_of_bumps {job : Job} (h : job.bumps) : job.isWriter := by
  unfold bumps at h
  split at h
  · rfl
  · rfl
  · rfl
  · rfl
  · simp at h

/-! ## Writes and their bumps -/

/-- The stores are not what they were. -/
def Watched.Changed (w w' : Watched γ β) : Prop :=
  w'.server.aggregator ≠ w.server.aggregator ∨ w'.server.binaries ≠ w.server.binaries

/-- The job at `t` makes a bump on the way from `w` to `w'`, or has one to make still. -/
def BumpFollows (cache : Option HostCache) (view : View γ β) (t : ℕ) (w : Watched γ β)
    (actions : List WatchAction) (w' : Watched γ β) : Prop :=
  (∃ before choice after w₁ w₂, actions = before ++ .server (.step t choice) :: after ∧
    Runs (Watched.step cache view) Any w before w₁ ∧
    Watched.step cache view w₁ (.server (.step t choice)) = some w₂ ∧
    w₂.server.revision = w₁.server.revision + 1) ∨
  ∃ job, w'.server.jobs[t]? = some job ∧ job.bumps

/-- Who has a bump to make makes it, or has it to make still. -/
theorem bumpFollows_of_runs {t : ℕ} {job : Job} {actions : List WatchAction} {w w' : Watched γ β}
    (h : Runs (Watched.step cache view) Any w actions w') (ht : w.server.jobs[t]? = some job)
    (hbumps : job.bumps) : BumpFollows cache view t w actions w' := by
  induction h generalizing job with
  | nil w => exact Or.inr ⟨job, ht, hbumps⟩
  | @cons w w₁ w' action actions _ hstep _ ih =>
      have hlater {job' : Job} (ht' : w₁.server.jobs[t]? = some job') (hbumps' : job'.bumps) :
          BumpFollows cache view t w (action :: actions) w' := by
        rcases ih ht' hbumps' with ⟨before, choice, after, w₂, w₃, rfl, hbefore, hbump⟩ | hstill
        · exact Or.inl ⟨action :: before, choice, after, w₂, w₃, rfl,
            Runs.cons trivial hstep hbefore, hbump⟩
        · exact Or.inr hstill
      cases action with
      | server serverAction =>
          have hserver := (Watched.step_server hstep).1
          rcases ServerState.bumps_step hserver ht hbumps with ⟨choice, rfl, hrevision⟩ |
            ⟨job', ht', hbumps'⟩
          · exact Or.inl ⟨[], choice, actions, w, w₁, rfl, Runs.nil w, hstep, hrevision⟩
          · exact hlater ht' hbumps'
      | _ =>
          have hserver := (Watched.step_subscriber hstep (by simp)).1
          exact hlater (hserver ▸ ht) hbumps

/-- The writer of a change has a bump to make, unless the change is the shared cache. -/
theorem changed_bumps_iff {w w' : Watched γ β} {action : WatchAction}
    (hstep : Watched.step cache view w action = some w') :
    (w.Changed w' → ∃ t choice job, action = .server (.step t choice) ∧
        w'.server.jobs[t]? = some job ∧ job.bumps) ↔ Bumped cache w action := by
  constructor
  · intro h
    cases action with
    | server serverAction =>
        cases serverAction with
        | step t choice =>
            intro job ht hattaches
            obtain ⟨hserver, -⟩ := Watched.step_server hstep
            obtain ⟨job', ht', hmove⟩ := Option.bind_eq_some_iff.mp hserver
            obtain rfl := Option.some_inj.mp (Option.mem_def.mp ht ▸ ht')
            obtain ⟨m, hm, hmove⟩ := Option.bind_eq_some_iff.mp hmove
            obtain ⟨hnot, ⟨hnone, -⟩ | ⟨host, run, hhost, heffect⟩⟩ :=
              Job.effect_of_attaches hm hattaches
            · exact hnone
            · -- the cache is written, and its writer has no bump to make
              have hmoved : w'.server = w.server.move t m := (Option.some_inj.mp hmove).symm
              have hchanged : w.Changed w' := by
                refine Or.inr fun hsame => ?_
                have hwritten : w'.server.binaries =
                    w.server.binaries.write run (.attachSharedCache host) := by
                  rw [hmoved]
                  show (w.server.apply m.effect).binaries = _
                  rw [heffect]
                  rfl
                have hlength := congrArg (fun ledger => ledger.entries.length)
                  (hwritten.symm.trans hsame)
                simp at hlength
              obtain ⟨t', choice', job', haction, hjob', hbumps⟩ := h hchanged
              obtain ⟨rfl, rfl⟩ := Action.step.inj (WatchAction.server.inj haction)
              rw [hmoved, ServerState.getElem?_move_self ht, Option.some_inj] at hjob'
              subst hjob'
              simp [hnot] at hbumps
        | _ => trivial
    | _ => trivial
  · intro hbumped hchanged
    cases action with
    | server serverAction =>
        obtain ⟨hserver, -⟩ := Watched.step_server hstep
        rcases ServerState.stores_step hserver with ⟨haggregator, hbinaries, -⟩ |
          ⟨-, t, choice, job, job', rfl, ht, ht', hbumps | ⟨hattaches, hcache⟩⟩
        · rcases hchanged with hchanged | hchanged
          · exact absurd haggregator hchanged
          · exact absurd hbinaries hchanged
        · exact ⟨t, choice, job', rfl, ht', hbumps⟩
        · rw [hbumped job ht hattaches] at hcache
          simp at hcache
    | _ =>
        have hserver := (Watched.step_subscriber hstep (by simp)).1
        rcases hchanged with hchanged | hchanged <;> exact absurd (by rw [hserver]) hchanged

/-- Whoever changes a store bumps the revision afterwards: a step changes one and leaves its writer
no bump to make just where it attaches a shared cache, and in a run without such a step each change
is followed by a bump of its writer, or its writer has it to make still.  When no subscriber has
looked at the stores between a run's bump and its shared cache, a subscriber that polls once all
writers have finished has, when it has made its view, published the view of the stores as they
are. -/
theorem no_stale_snapshot :
    (∀ (w w' : Watched γ β) action, Watched.step cache view w action = some w' →
      ((w.Changed w' → ∃ t choice job, action = .server (.step t choice) ∧
          w'.server.jobs[t]? = some job ∧ job.bumps) ↔ Bumped cache w action)) ∧
    (∀ before action after (w₁ w₂ w : Watched γ β),
      Runs (Watched.step cache view) (Bumped cache) .initial before w₁ →
      Bumped cache w₁ action → Watched.step cache view w₁ action = some w₂ →
      Runs (Watched.step cache view) (Bumped cache) w₂ after w → w₁.Changed w₂ →
      ∃ t choice, action = .server (.step t choice) ∧ BumpFollows cache view t w₂ after w) ∧
    (∀ actions later (w w' : Watched γ β),
      Runs (Watched.step cache view) (Followed cache) .initial actions w →
      Runs (Watched.step cache view) Idle w (.poll :: later) w' →
      (∀ job ∈ w'.server.jobs, ¬ job.isWriter) → w'.subscriber.phase.isTicking →
      w'.subscriber.published = some (view.of w'.server)) := by
  refine ⟨fun w w' action hstep => changed_bumps_iff hstep, ?_, ?_⟩
  · intro before action after w₁ w₂ w _ hbumped hstep hafter hchanged
    obtain ⟨t, choice, job, haction, ht, hbumps⟩ := (changed_bumps_iff hstep).mpr hbumped hchanged
    exact ⟨t, choice, haction, bumpFollows_of_runs (hafter.imp fun _ _ _ => trivial) ht hbumps⟩
  · intro actions later w w' h hruns hidle hticking
    have hfresh : w.Fresh view :=
      h.invariant (fun _ _ _ hinv hfollowed hstep => hinv.step hfollowed hstep)
        Watched.fresh_initial
    cases hruns with
    | cons hidle₀ hpoll hrest =>
        -- the poll after the writers have finished sees the last revision
        have hseen₀ : ∀ w₁, Watched.step cache view w .poll = some w₁ →
            w₁.subscriber.lastSeen = some w₁.server.revision := by
          intro w₁ hstep
          obtain ⟨hserver, ⟨-, -, hseen, -⟩ | ⟨hread, -⟩ | ⟨seen, hpublish, -⟩⟩ :=
            Watched.step_subscriber hstep (by simp)
          · rw [hserver, hseen]
          · exact absurd hread (by simp)
          · exact absurd hpublish (by simp)
        have hinv := hrest.invariant
          (p := fun x => x.Fresh view ∧ x.subscriber.lastSeen = some x.server.revision)
          (fun x a x' hx hidle hstep =>
            ⟨hx.1.step hidle.followed hstep, Watched.seen_idle hidle hstep hx.2⟩)
          ⟨hfresh.step hidle₀.followed hpoll, hseen₀ _ hpoll⟩
        -- it has seen the revision there is, so its view is current or some writer has a bump to
        -- make
        rcases hinv.1.current hinv.2 with hcurrent | ⟨job, hjob, hbumps⟩
        · unfold Watched.UpToDate at hcurrent
          cases hphase : w'.subscriber.phase with
          | ticking =>
              rw [hphase] at hcurrent
              exact hcurrent
          | reading => simp [hphase, SubscriberPhase.isTicking] at hticking
          | finishing seen => simp [hphase, SubscriberPhase.isTicking] at hticking
        -- but all writers have finished
        · exact absurd (Job.isWriter_of_bumps hbumps) (hidle job hjob)

/-! ## A run that begins before a poll, and one that begins around it -/

/-- One image at one page. -/
def oneImageCache : HostCache where
  cache := { runtimeImages := [{ installName := "/usr/lib/libc.dylib", runtimeAvma := 0x1000,
                                 textSvma := 0x1000, vmsize := 0x1000, symbols := [] }] }
  source _ _ := none

/-- Whether an address of that page has a label. -/
def labelled : View Unit Bool where
  read _ _ := ()
  finish _ binaries := (binaries.lookupSymbol Binaries.BinaryRegistry.readableHost 0x1800).1.isSome

/-- A recorder's run, up to where its call attaches the shared cache. -/
def beginUntilAttach : List WatchAction :=
  ((.call (.startRun "a") :: ServerState.goes 0 6 : List Action)).map .server

/-- The shared cache is attached and the call returns. -/
def attachAndReturn : List WatchAction := (ServerState.goes 0 2).map .server

/-- A poll that makes a view. -/
def pollAndPublish : List WatchAction := [.poll, .read, .publish]

/-- A target is published for the run, up to where the registry gets it. -/
def publishUntilTarget : List WatchAction :=
  beginUntilAttach ++ attachAndReturn ++
    ((.call (.publishTargetAttached 1 7 0) :: ServerState.goes 2 1 : List Action)).map .server

theorem no_stale_snapshot_beginFirst :
    (∃ w₁ w₂ w, Runs (Watched.step none labelled) (Bumped none) .initial publishUntilTarget w₁ ∧
      Runs (Watched.step none labelled) (Bumped none) w₂ [.server (.step 2 (.go 0))] w ∧
      w₁.Changed w₂ ∧
      BumpFollows none labelled 2 w₂ [.server (.step 2 (.go 0))] w) ∧
    ∃ w w', Runs (Watched.step (some oneImageCache) labelled) (Followed (some oneImageCache))
        .initial (pollAndPublish ++ beginUntilAttach ++ attachAndReturn) w ∧
      Runs (Watched.step (some oneImageCache) labelled) Idle w pollAndPublish w' ∧
      w.subscriber.published = some false ∧
      w'.subscriber.published = some (labelled.of w'.server) := by
  constructor
  · obtain ⟨w₁, w₂, hbefore, hstep, hlength, hafter⟩ := exists_runs_of_runIf_later
      (p := fun (w₁ w₂ : Watched Unit Bool) =>
        w₁.server.binaries.entries.length ≠ w₂.server.binaries.entries.length ∧
          (runIf (Watched.step none labelled) (Bumped none) w₂
            [.server (.step 2 (.go 0))]).isSome = true)
      (show (runIf (Watched.step none labelled) (Bumped none) .initial publishUntilTarget).any
        (fun w => (runIf (Watched.step none labelled) (Bumped none) w
          [.server (.step 2 (.go 0))]).any _) = true by decide +kernel)
    obtain ⟨w, hw⟩ := Option.isSome_iff_exists.mp hafter
    have hruns := runs_of_runIf hw
    have hchanged : w₁.Changed w₂ := Or.inr fun hsame => hlength (by rw [hsame])
    refine ⟨w₁, w₂, w, hbefore, hruns, hchanged, ?_⟩
    cases hstep with
    | cons hbumped hstep hnil =>
        cases hnil
        obtain ⟨t, choice, haction, hfollows⟩ :=
          no_stale_snapshot.2.1 _ _ _ w₁ w₂ w hbefore hbumped hstep hruns hchanged
        obtain ⟨rfl, -⟩ := Action.step.inj (WatchAction.server.inj haction)
        exact hfollows
  · obtain ⟨w, w', hruns, hpolls, hbefore, hidle, hticking⟩ := exists_runs_of_runIf_later
      (p := fun (w w' : Watched Unit Bool) => w.subscriber.published = some false ∧
        (∀ job ∈ w'.server.jobs, ¬ job.isWriter) ∧ w'.subscriber.phase.isTicking)
      (show (runIf (Watched.step (some oneImageCache) labelled) (Followed (some oneImageCache))
        .initial (pollAndPublish ++ beginUntilAttach ++ attachAndReturn)).any (fun w =>
          (runIf (Watched.step (some oneImageCache) labelled) Idle w pollAndPublish).any _) = true by
        decide +kernel)
    exact ⟨w, w', hruns, hpolls, hbefore,
      no_stale_snapshot.2.2 _ _ w w' hruns hpolls hidle hticking⟩

theorem stale_snapshot :
    ∃ w, Runs (Watched.step (some oneImageCache) labelled) Any .initial
        (beginUntilAttach ++ pollAndPublish ++ attachAndReturn ++ [.poll]) w ∧
      (∀ job ∈ w.server.jobs, ¬ job.isWriter) ∧ w.subscriber.phase.isTicking ∧
      w.subscriber.published = some false ∧ labelled.of w.server = true := by
  obtain ⟨w, hruns, hidle, hticking, hpublished, hlabelled⟩ := exists_runs_of_runIf
    (p := fun (w : Watched Unit Bool) => (∀ job ∈ w.server.jobs, ¬ job.isWriter) ∧
      w.subscriber.phase.isTicking ∧ w.subscriber.published = some false ∧
      labelled.of w.server = true)
    (show (runIf (Watched.step (some oneImageCache) labelled) Any .initial
      (beginUntilAttach ++ pollAndPublish ++ attachAndReturn ++ [.poll])).any _ = true by
      decide +kernel)
  exact ⟨w, hruns, hidle, hticking, hpublished, hlabelled⟩

end Stax.Server
