/-
# Stax.Staxd.Daemon — the daemon's calls, and the slot for the one session.

A call to record claims the slot if it is free, runs a session, and gives the slot back, however the
session ended.  A call to stop looks at who holds the slot and, the lock given back, sets the flag
it saw there.  Any number of calls are under way and take their steps in any order; a step is what
one call does while it holds the lock, or between two waits.  A session is here no more than that it
runs, looks at its flag, and ends.

Whoever looks at the slot while it is held, and sets the flag after it was given back and claimed
again, sets a flag that nobody looks at any more.
-/
import Stax.Lib.Exclusive
import Stax.Lib.Machine
import Stax.Staxd.Session

namespace Stax.Staxd

open Stax.Lib Stax.Lib.Machine

/-! ## The daemon -/

/-- The holder of the slot.  The flag is the one made for the session, by its number. -/
structure SessionInfo where
  targetPid : UInt32
  startedAtUnixNs : UInt64
  cancel : ℕ
  deriving DecidableEq, Repr

/-- What `status` tells of the daemon's session. -/
inductive SessionState
  | idle
  | recording (targetPid holderUid holderPid : UInt32) (sinceUnixNs : UInt64)
  deriving DecidableEq, Repr

/-- What a call to record returns. -/
inductive RecordReply
  | ok (summary : RecordSummary)
  | busy (holderUid holderPid : UInt32) (sinceUnixNs : UInt64)
  | error (e : RecordError)
  deriving DecidableEq, Repr

/-- The reply to `record` for what the session comes to. -/
def RecordReply.ofResult : Except RecordError RecordSummary → RecordReply
  | .ok summary => .ok summary
  | .error e => .error e

/-- Where a call is. -/
inductive Handler
  | record (config : SessionConfig)
  /-- In `session::run`, with its flag. -/
  | running (cancel : ℕ)
  /-- `session::run` has returned, the slot is not given back yet. -/
  | ended (cancel : ℕ) (result : Except RecordError RecordSummary)
  | recorded (reply : RecordReply)
  | stopRecording
  /-- It has seen who holds the slot, and given the lock back. -/
  | seen (session : SessionInfo)
  | stopped (found : Bool)
  | status
  | answered (state : SessionState)
  deriving DecidableEq, Repr

/-- The daemon: the one session it may have, the flags it has made, and the calls that have come in.
-/
structure StaxdServer where
  session : Option SessionInfo := none
  /-- The flags made so far. -/
  cancels : List Bool := []
  calls : List Handler := []
  deriving DecidableEq, Repr

/-- The calls that a client may make. -/
inductive Request
  | record (config : SessionConfig)
  | stopRecording
  | status
  deriving DecidableEq, Repr

/-- A call as it comes in, before it has taken the lock. -/
def Request.handler : Request → Handler
  | .record config => .record config
  | .stopRecording => .stopRecording
  | .status => .status

/-- What can happen: a call comes in, or one of those that are there goes on. -/
inductive DaemonStep
  | arrive (request : Request)
  /-- A call takes the lock for the first time; the time is the one it reads. -/
  | lock (i : ℕ) (unixNsNow : UInt64)
  /-- A session looks at its flag. -/
  | poll (i : ℕ) (flag : Bool)
  | finish (i : ℕ) (result : Except RecordError RecordSummary)
  | release (i : ℕ)
  | cancel (i : ℕ)
  deriving DecidableEq, Repr

namespace StaxdServer

/-- A call goes on. -/
def goOn (s : StaxdServer) (i : ℕ) (call : Handler) : StaxdServer :=
  { s with calls := s.calls.set i call }

/-- The slot is claimed if it is free. -/
def claim (s : StaxdServer) (i : ℕ) (config : SessionConfig) (unixNsNow : UInt64) : StaxdServer :=
  match s.session with
  | some holder => s.goOn i (.recorded (.busy 0 0 holder.startedAtUnixNs))
  | none =>
    { session := some
        { targetPid := config.targetPid, startedAtUnixNs := unixNsNow, cancel := s.cancels.length }
      cancels := s.cancels ++ [false]
      calls := s.calls.set i (.running s.cancels.length) }

/-- `stop_recording` takes the lock and copies the session, if there is one. -/
def look (s : StaxdServer) (i : ℕ) : StaxdServer :=
  match s.session with
  | none => s.goOn i (.stopped false)
  | some session => s.goOn i (.seen session)

/-- The state of the session as `status` shows it; who holds it is not told. -/
def sessionState (s : StaxdServer) : SessionState :=
  match s.session with
  | none => .idle
  | some session => .recording session.targetPid 0 0 session.startedAtUnixNs

/-- What a step does, where it can happen at all. -/
def step (s : StaxdServer) : DaemonStep → Option StaxdServer
  | .arrive request => some { s with calls := s.calls ++ [request.handler] }
  | .lock i unixNsNow =>
    match s.calls[i]? with
    | some (.record config) => some (s.claim i config unixNsNow)
    | some .stopRecording => some (s.look i)
    | some .status => some (s.goOn i (.answered s.sessionState))
    | _ => none
  | .poll i flag =>
    match s.calls[i]? with
    | some (.running cancel) => if s.cancels[cancel]? = some flag then some s else none
    | _ => none
  | .finish i result =>
    match s.calls[i]? with
    | some (.running cancel) => some (s.goOn i (.ended cancel result))
    | _ => none
  | .release i =>
    match s.calls[i]? with
    | some (.ended _ result) =>
      some { s.goOn i (.recorded (.ofResult result)) with session := none }
    | _ => none
  | .cancel i =>
    match s.calls[i]? with
    | some (.seen session) =>
      some { s.goOn i (.stopped true) with cancels := s.cancels.set session.cancel true }
    | _ => none

variable {s s' : StaxdServer} {a : DaemonStep} {actions : List DaemonStep} {i j : ℕ}

end StaxdServer

/-- The flag of the session for which a call holds the slot. -/
def Handler.slot : Handler → Option ℕ
  | .running cancel | .ended cancel _ => some cancel
  | _ => none

namespace StaxdServer

variable {s s' s₁ : StaxdServer} {a : DaemonStep} {actions : List DaemonStep} {i j : ℕ}
  {info : SessionInfo}

/-! ## What a step can do -/

/-- A step in which one call goes on and the rest stays.  What it has seen is who holds the slot. -/
structure GoesOn (s : StaxdServer) (a : DaemonStep) (i : ℕ) (call call' : Handler) : Prop where
  was : s.calls[i]? = some call
  slot : call'.slot = call.slot
  seen : ∀ session, call' = .seen session →
    call = .stopRecording ∧ s.session = some session ∧ ∃ t, a = .lock i t

/-- All that a step of the daemon can do, by the call that goes on. -/
theorem step_cases (h : step s a = some s') :
    (∃ request : Request, s' = { s with calls := s.calls ++ [request.handler] }) ∨
      s' = s ∨
      (∃ i call call', GoesOn s a i call call' ∧ s' = s.goOn i call') ∨
      (∃ i config t, s.calls[i]? = some (.record config) ∧ s.session = none ∧
        s' = s.claim i config t) ∨
      (∃ i cancel result, a = .release i ∧ s.calls[i]? = some (.ended cancel result) ∧
        s' = { s.goOn i (.recorded (.ofResult result)) with session := none }) ∨
      ∃ i session, a = .cancel i ∧ s.calls[i]? = some (.seen session) ∧
        s' = { s.goOn i (.stopped true) with cancels := s.cancels.set session.cancel true } := by
  cases a with
  | arrive request => exact Or.inl ⟨request, (Option.some_inj.mp h).symm⟩
  | lock i t =>
      rw [step] at h
      split at h
      · rename_i config hcall
        obtain rfl := Option.some_inj.mp h
        cases hsession : s.session with
        | none => exact Or.inr (Or.inr (Or.inr (Or.inl ⟨i, config, t, hcall, rfl, rfl⟩)))
        | some holder =>
            refine Or.inr (Or.inr (Or.inl
              ⟨i, _, .recorded (.busy 0 0 holder.startedAtUnixNs), ⟨hcall, rfl, ?_⟩, ?_⟩))
            · exact fun session hseen => by cases hseen
            · rw [claim, hsession]
      · rename_i hcall
        obtain rfl := Option.some_inj.mp h
        cases hsession : s.session with
        | none =>
            refine Or.inr (Or.inr (Or.inl ⟨i, _, .stopped false, ⟨hcall, rfl, ?_⟩, ?_⟩))
            · exact fun session hseen => by cases hseen
            · rw [look, hsession]
        | some holder =>
            refine Or.inr (Or.inr (Or.inl ⟨i, _, .seen holder, ⟨hcall, rfl, ?_⟩, ?_⟩))
            · rintro session ⟨⟩
              exact ⟨rfl, hsession, t, rfl⟩
            · rw [look, hsession]
      · rename_i hcall
        refine Or.inr (Or.inr (Or.inl
          ⟨i, _, .answered s.sessionState, ⟨hcall, rfl, ?_⟩, (Option.some_inj.mp h).symm⟩))
        exact fun session hseen => by cases hseen
      · cases h
  | poll i flag =>
      rw [step] at h
      split at h
      · split_ifs at h
        exact Or.inr (Or.inl (Option.some_inj.mp h).symm)
      · cases h
  | finish i result =>
      rw [step] at h
      split at h
      · rename_i cancel hcall
        refine Or.inr (Or.inr (Or.inl
          ⟨i, _, .ended cancel result, ⟨hcall, rfl, ?_⟩, (Option.some_inj.mp h).symm⟩))
        exact fun session hseen => by cases hseen
      · cases h
  | release i =>
      rw [step] at h
      split at h
      · rename_i cancel result hcall
        exact Or.inr (Or.inr (Or.inr (Or.inr (Or.inl
          ⟨i, cancel, result, rfl, hcall, (Option.some_inj.mp h).symm⟩))))
      · cases h
  | cancel i =>
      rw [step] at h
      split at h
      · rename_i session hcall
        exact Or.inr (Or.inr (Or.inr (Or.inr (Or.inr
          ⟨i, session, rfl, hcall, (Option.some_inj.mp h).symm⟩))))
      · cases h

theorem claim_of_free (hfree : s.session = none) (i : ℕ) (config : SessionConfig) (t : UInt64) :
    s.claim i config t =
      { session := some
          { targetPid := config.targetPid, startedAtUnixNs := t, cancel := s.cancels.length }
        cancels := s.cancels ++ [false]
        calls := s.calls.set i (.running s.cancels.length) } := by
  rw [claim, hfree]

/-! ## Who holds the slot -/

/-- The slot is held by the one call that records, under the flag made for it. -/
structure Held (s : StaxdServer) : Prop where
  slot : s.calls.filterMap Handler.slot = (s.session.map (·.cancel)).toList
  made : ∀ info ∈ s.session, info.cancel < s.cancels.length

theorem Held.one (h : Held s) : (s.calls.filterMap Handler.slot).length ≤ 1 := by
  rw [h.slot]
  exact Option.length_toList_le

/-- The slot is held by the one call in its session, whose flag it has, after every step. -/
theorem Held.step (h : Held s) (hstep : step s a = some s') : Held s' := by
  rcases step_cases hstep with ⟨request, rfl⟩ | rfl | ⟨i, call, call', hgoes, rfl⟩ |
    ⟨i, config, t, hcall, hfree, rfl⟩ | ⟨i, cancel, result, -, hcall, rfl⟩ |
    ⟨i, session, -, hcall, rfl⟩
  · refine ⟨?_, h.made⟩
    have hnew : [request.handler].filterMap Handler.slot = [] := by cases request <;> rfl
    show (s.calls ++ [request.handler]).filterMap Handler.slot = _
    rw [List.filterMap_append, hnew, List.append_nil, h.slot]
  · exact h
  · exact ⟨(Exclusive.held_set_same hgoes.was hgoes.slot).trans h.slot, h.made⟩
  · rw [claim_of_free hfree]
    have hnone : s.calls.filterMap Handler.slot = [] := by rw [h.slot, hfree]; rfl
    refine ⟨Exclusive.held_set_take hcall hnone rfl, ?_⟩
    rintro info ⟨⟩
    show s.cancels.length < (s.cancels ++ [false]).length
    rw [List.length_append]
    exact Nat.lt_succ_self _
  · exact ⟨Exclusive.held_set_release hcall rfl h.one rfl, fun info hinfo => by cases hinfo⟩
  · have hslot : (Handler.stopped true).slot = (Handler.seen session).slot := rfl
    refine ⟨(Exclusive.held_set_same hcall hslot).trans h.slot, fun info hinfo => ?_⟩
    show info.cancel < (s.cancels.set session.cancel true).length
    rw [List.length_set]
    exact h.made info hinfo

theorem held_of_runs (h : Runs step Any {} actions s) : Held s :=
  h.invariant (fun _ _ _ hheld _ hstep => hheld.step hstep)
    ⟨rfl, fun info hinfo => by cases hinfo⟩

/-- A call that records is the slot's holder. -/
theorem Held.holder (h : Held s) {call : Handler} {cancel : ℕ} (hcall : s.calls[i]? = some call)
    (hslot : call.slot = some cancel) : ∃ info ∈ s.session, info.cancel = cancel := by
  have hmem : cancel ∈ s.calls.filterMap Handler.slot :=
    List.mem_filterMap.mpr ⟨call, List.mem_of_getElem? hcall, hslot⟩
  rw [h.slot, Option.mem_toList] at hmem
  exact Option.map_eq_some_iff.mp hmem

/-- A slot that is held is held by a call. -/
theorem Held.exists_call (h : Held s) (hinfo : s.session = some info) :
    ∃ (i : ℕ) (call : Handler), s.calls[i]? = some call ∧ call.slot = some info.cancel := by
  have hmem : info.cancel ∈ s.calls.filterMap Handler.slot := by
    rw [h.slot, hinfo]
    exact List.mem_singleton_self _
  obtain ⟨call, hcall, hslot⟩ := List.mem_filterMap.mp hmem
  obtain ⟨i, hi⟩ := List.getElem?_of_mem hcall
  exact ⟨i, call, hi, hslot⟩

/-! ## Whose flag a stop sets -/

/-- Flags are only added, and a session that begins gets a new one. -/
theorem step_session (h : step s a = some s') :
    s.cancels.length ≤ s'.cancels.length ∧
      ∀ holder ∈ s'.session, holder ∈ s.session ∨ holder.cancel = s.cancels.length := by
  rcases step_cases h with ⟨request, rfl⟩ | rfl | ⟨i, call, call', -, rfl⟩ |
    ⟨i, config, t, -, hfree, rfl⟩ | ⟨i, cancel, result, -, -, rfl⟩ | ⟨i, session, -, -, rfl⟩
  · exact ⟨Nat.le_refl _, fun holder hholder => Or.inl hholder⟩
  · exact ⟨Nat.le_refl _, fun holder hholder => Or.inl hholder⟩
  · exact ⟨Nat.le_refl _, fun holder hholder => Or.inl hholder⟩
  · rw [claim_of_free hfree]
    constructor
    · show s.cancels.length ≤ (s.cancels ++ [false]).length
      rw [List.length_append]
      exact Nat.le_add_right _ _
    · rintro holder ⟨⟩
      exact Or.inr rfl
  · exact ⟨Nat.le_refl _, fun holder hholder => by cases hholder⟩
  · constructor
    · show s.cancels.length ≤ (s.cancels.set session.cancel true).length
      rw [List.length_set]
    · exact fun holder hholder => Or.inl hholder

theorem getElem?_set_seen {call : Handler} (hcall : ∀ session, call ≠ .seen session)
    (h : (s.calls.set i call)[j]? = some (.seen info)) : s.calls[j]? = some (.seen info) := by
  rw [List.getElem?_set] at h
  split_ifs at h
  · exact absurd (Option.some_inj.mp h) (hcall info)
  · exact h

/-- Who has seen the slot's holder saw it before, or sees it in this step. -/
theorem step_seen (h : step s a = some s') (hseen : s'.calls[j]? = some (.seen info)) :
    s.calls[j]? = some (.seen info) ∨
      s.calls[j]? = some .stopRecording ∧ s.session = some info ∧ ∃ t, a = .lock j t := by
  rcases step_cases h with ⟨request, rfl⟩ | rfl | ⟨i, call, call', hgoes, rfl⟩ |
    ⟨i, config, t, -, hfree, rfl⟩ | ⟨i, cancel, result, -, -, rfl⟩ | ⟨i, session, -, -, rfl⟩
  · left
    change (s.calls ++ [request.handler])[j]? = _ at hseen
    rw [List.getElem?_append] at hseen
    split_ifs at hseen
    · exact hseen
    · have hnew : Handler.seen info = request.handler :=
        List.mem_singleton.mp (List.mem_of_getElem? hseen)
      cases request <;> cases hnew
  · exact Or.inl hseen
  · change (s.calls.set i call')[j]? = _ at hseen
    rw [List.getElem?_set] at hseen
    split_ifs at hseen with hij hlt
    · subst hij
      obtain ⟨rfl, hsession, hlock⟩ := hgoes.seen info (Option.some_inj.mp hseen)
      exact Or.inr ⟨hgoes.was, hsession, hlock⟩
    · exact Or.inl hseen
  · rw [claim_of_free hfree] at hseen
    exact Or.inl (getElem?_set_seen (fun session hrunning => by cases hrunning) hseen)
  · exact Or.inl (getElem?_set_seen (fun session hrecorded => by cases hrecorded) hseen)
  · exact Or.inl (getElem?_set_seen (fun session hstopped => by cases hstopped) hseen)

/-- A call to stop has seen a session: it held the slot when the call looked.  What holds the slot
since is that session still, or has a flag that was not made then. -/
structure Saw (actions : List DaemonStep) (s : StaxdServer) (j : ℕ) (info : SessionInfo)
    (before : List DaemonStep) (then_ : StaxdServer) : Prop where
  looked : ∃ t after, actions = before ++ DaemonStep.lock j t :: after
  runs : Runs step Any {} before then_
  call : then_.calls[j]? = some .stopRecording
  holder : then_.session = some info
  cancels : then_.cancels.length ≤ s.cancels.length
  later : ∀ session ∈ s.session, session = info ∨ then_.cancels.length ≤ session.cancel

theorem Saw.step {before : List DaemonStep} (h : Saw actions s j info before s₁)
    (hstep : step s a = some s') : Saw (actions ++ [a]) s' j info before s₁ := by
  obtain ⟨hcancels, hsession⟩ := step_session hstep
  obtain ⟨t, after, rfl⟩ := h.looked
  refine { h with looked := ⟨t, after ++ [a], ?_⟩, cancels := h.cancels.trans hcancels, later := ?_ }
  · rw [List.append_assoc, List.cons_append]
  · intro session hheld
    rcases hsession session hheld with hwas | hnew
    · exact h.later session hwas
    · rw [hnew]
      exact Or.inr h.cancels

theorem exists_saw (h : Runs step Any {} actions s) :
    ∀ j info, s.calls[j]? = some (.seen info) →
      ∃ before then_, Saw actions s j info before then_ := by
  refine h.history (p := fun actions s => ∀ j info, s.calls[j]? = some (.seen info) →
    ∃ before then_, Saw actions s j info before then_) (fun j info hseen => ?_) ?_
  · cases hseen
  · intro before s₁ a s₂ hruns ih _ hstep j info hseen
    rcases step_seen hstep hseen with hwas | ⟨hcall, hholder, t, rfl⟩
    · obtain ⟨earlier, then_, hsaw⟩ := ih j info hwas
      exact ⟨earlier, then_, hsaw.step hstep⟩
    · obtain ⟨hcancels, hsession⟩ := step_session hstep
      refine ⟨before, s₁, ⟨t, [], rfl⟩, hruns, hcall, hholder, hcancels, fun session hheld => ?_⟩
      rcases hsession session hheld with hwas | hnew
      · rw [hholder] at hwas
        exact Or.inl (Option.some_inj.mp hwas).symm
      · exact Or.inr (Nat.le_of_eq hnew.symm)

/-! ## One session at a time -/

/-- What holds after the steps of a run. -/
structure OneSession (actions : List DaemonStep) (s : StaxdServer) : Prop where
  /-- One session at most is running. -/
  one : ∀ (i j k l : ℕ), s.calls[i]? = some (Handler.running k) →
    s.calls[j]? = some (Handler.running l) → i = j
  /-- A call that finds a session is told so, and nothing else happens. -/
  busy : ∀ (i : ℕ) config holder t, s.calls[i]? = some (Handler.record config) →
    s.session = some holder →
    step s (.lock i t) = some (s.goOn i (.recorded (.busy 0 0 holder.startedAtUnixNs)))
  /-- A call that is through gives back the slot it held. -/
  released : ∀ (i : ℕ) cancel result, s.calls[i]? = some (Handler.ended cancel result) →
    (∃ holder ∈ s.session, holder.cancel = cancel) ∧
      ∃ s', step s (.release i) = some s' ∧ s'.session = none ∧
        s'.calls[i]? = some (.recorded (.ofResult result))
  /-- Nobody but a call that records holds the slot. -/
  free : (∀ (i k : ℕ), s.calls[i]? ≠ some (Handler.running k)) →
    (∀ (i k : ℕ) result, s.calls[i]? ≠ some (Handler.ended k result)) → s.session = none
  /-- A stop sets the flag of the session that held the slot when it looked.  All other flags stay,
  that of the slot's holder among them if it has come since. -/
  stop : ∀ j s', step s (.cancel j) = some s' →
    ∃ info before then_, Saw actions s j info before then_ ∧
      info.cancel < then_.cancels.length ∧
      s' = { s.goOn j (.stopped true) with cancels := s.cancels.set info.cancel true }

theorem one_session_at_a_time (h : Runs step Any {} actions s) : OneSession actions s := by
  have hheld := held_of_runs h
  refine ⟨?_, ?_, ?_, ?_, ?_⟩
  · intro i j k l hi hj
    exact Exclusive.holder_unique hheld.one hi rfl hj rfl
  · intro i config holder t hcall hholder
    rw [step, hcall]
    dsimp only
    rw [claim, hholder]
  · intro i cancel result hcall
    obtain ⟨hlt, -⟩ := List.getElem?_eq_some_iff.mp hcall
    refine ⟨hheld.holder hcall rfl, { s.goOn i (.recorded (.ofResult result)) with session := none },
      ?_, rfl, List.getElem?_set_self hlt⟩
    rw [step, hcall]
  · intro hrunning hended
    by_contra hholder
    obtain ⟨info, hinfo⟩ := Option.ne_none_iff_exists'.mp hholder
    obtain ⟨i, call, hcall, hslot⟩ := hheld.exists_call hinfo
    cases call with
    | running k => exact hrunning i k hcall
    | ended k result => exact hended i k result hcall
    | _ => cases hslot
  · intro j s' hstep
    rw [step] at hstep
    split at hstep
    · rename_i info hseen
      obtain ⟨before, then_, hsaw⟩ := exists_saw h j info hseen
      exact ⟨info, before, then_, hsaw, (held_of_runs hsaw.runs).made info hsaw.holder,
        (Option.some_inj.mp hstep).symm⟩
    · cases hstep

/-- The whole of a small machine, once a second. -/
def anySession (targetPid : UInt32) : SessionConfig where
  targetPid
  frequencyHz := 1
  bufRecords := 1024
  samplers := 1
  pmuEventConfigs := []
  classMask := 0
  filterRangeValue1 := 0
  filterRangeValue2 := 0
  typefilterCscs := []

/-- A stop sees the first session; that fails, a second one begins and turns a third away; then the
stop sets its flag. -/
def lateStop : List DaemonStep :=
  [.arrive (.record (anySession 7)), .lock 0 100, .arrive .stopRecording, .lock 1 0,
    .finish 0 (.error .notRoot), .release 0, .arrive (.record (anySession 8)), .lock 2 200,
    .arrive (.record (anySession 9)), .lock 3 300, .cancel 1]

theorem lateStop_one_session : ∃ s, OneSession lateStop s ∧ s.cancels = [true, false] ∧
    s.session = some ⟨8, 200, 1⟩ ∧ s.calls[3]? = some (.recorded (.busy 0 0 200)) := by
  have hexists : ∃ s, Runs step Any {} lateStop s ∧ s.cancels = [true, false] ∧
      s.session = some ⟨8, 200, 1⟩ ∧ s.calls[3]? = some (.recorded (.busy 0 0 200)) :=
    exists_runs_of_runIf (by decide)
  obtain ⟨s, hrun, hstate⟩ := hexists
  exact ⟨s, one_session_at_a_time hrun, hstate⟩

end StaxdServer

end Stax.Staxd
