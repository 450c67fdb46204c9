/-
# Stax.Kperf.ThreadTimeline — the tracker, thread by thread.

A call of the tracker is at most one event for each thread: it leaves a cpu, comes onto one, is
sampled or is woken.  A thread's state and the intervals closed for it depend on its own events
alone, so the tracker is a family of one-thread machines behind the per-cpu map.  Facts about one
thread are proved on its machine and carried over by `thread_track` and `emitted_filter_tid`.
-/
import Stax.Kperf.OffCpu

namespace Stax.Kperf

open Stax.Lib

/-! ## One thread's machine -/

/-- What a call means to one thread. -/
inductive ThreadEvent where
  | switchOut (ts : ℕ)
  | switchIn (ts : ℕ)
  | sampled (user kernel : List UInt64)
  | woken (waker : PendingWakerAttribution)
  deriving DecidableEq, Repr

/-- The time a switch event carries. -/
def ThreadEvent.switchTime? : ThreadEvent → Option ℕ
  | .switchOut ts => some ts
  | .switchIn ts => some ts
  | _ => none

/-- What happens to one thread's state, with the interval that closes. -/
def ThreadState.step (tid : UInt64) (st : ThreadState) :
    ThreadEvent → ThreadState × List PendingInterval
  | .switchOut ts => st.switchOut tid ts
  | .switchIn ts => st.switchIn tid ts
  | .sampled user kernel => ({ st with lastUserStack := user, lastKernelStack := kernel }, [])
  | .woken waker => ({ st with pendingWakeup := some waker }, [])

/-- One thread as a machine over its events. -/
def threadMachine (tid : UInt64) : Transducer ThreadState ThreadEvent PendingInterval where
  step := ThreadState.step tid

/-! The cases of the two parts of a switch. -/

namespace ThreadState

variable {st : ThreadState} {tid : UInt64} {ts : ℕ}

theorem switchOut_of_none (h : st.lastOnNs = none) :
    st.switchOut tid ts = ({ st with lastOffNs := some ts }, []) := by
  simp only [switchOut, h]

theorem switchOut_of_le {on : ℕ} (h : st.lastOnNs = some on) (hle : ts ≤ on) :
    st.switchOut tid ts = ({ st with lastOnNs := none, lastOffNs := some ts }, []) := by
  have hdur : ¬ ts - on > 0 := by omega
  simp only [switchOut, h, if_neg hdur]

theorem switchOut_of_lt {on : ℕ} (h : st.lastOnNs = some on) (hlt : on < ts) :
    st.switchOut tid ts =
      ({ st with totalOnNs := saturatingAdd64 st.totalOnNs (ts - on)
                 lastOnNs := none
                 lastOffNs := some ts },
        [{ tid := tid.toUInt32, startNs := on, endNs := ts, kind := .onCpu }]) := by
  have hdur : ts - on > 0 := by omega
  simp only [switchOut, h, if_pos hdur]

theorem switchIn_of_none (h : st.lastOffNs = none) :
    st.switchIn tid ts = ({ st with lastOnNs := some ts }, []) := by
  simp only [switchIn, h]

theorem switchIn_of_le {off : ℕ} (h : st.lastOffNs = some off) (hle : ts ≤ off) :
    st.switchIn tid ts = ({ st with lastOffNs := none, lastOnNs := some ts }, []) := by
  have hdur : ¬ ts - off > 0 := by omega
  simp only [switchIn, h, if_neg hdur]

/-- The interval a switch-in closes, when the thread has a user stack. -/
def offInterval (st : ThreadState) (tid : UInt64) (off ts : ℕ) : PendingInterval where
  tid := tid.toUInt32
  startNs := off
  endNs := ts
  kind := .offCpu st.lastUserStack st.lastKernelStack
    (st.pendingWakeup.map PendingWakerAttribution.wakerTid)
    (st.pendingWakeup.map PendingWakerAttribution.wakerUserStack)

theorem switchIn_of_lt {off : ℕ} (h : st.lastOffNs = some off) (hlt : off < ts) :
    st.switchIn tid ts =
      ({ st with totalOffNs := saturatingAdd64 st.totalOffNs (ts - off)
                 lastOffNs := none
                 lastOnNs := some ts
                 pendingWakeup := none },
        if st.lastUserStack ≠ [] then [st.offInterval tid off ts] else []) := by
  have hdur : ts - off > 0 := by omega
  simp only [switchIn, h, if_pos hdur]
  split <;> rfl

/-! After either part exactly one interval is open, from `ts` on. -/

@[simp] theorem lastOnNs_switchOut : (st.switchOut tid ts).1.lastOnNs = none := by
  unfold switchOut
  split
  · dsimp only
    split <;> rfl
  · assumption

@[simp] theorem lastOffNs_switchOut : (st.switchOut tid ts).1.lastOffNs = some ts := by
  unfold switchOut
  split
  · dsimp only
    split <;> rfl
  · rfl

@[simp] theorem lastOnNs_switchIn : (st.switchIn tid ts).1.lastOnNs = some ts := by
  unfold switchIn
  split
  · dsimp only
    split
    · split <;> rfl
    · rfl
  · rfl

@[simp] theorem lastOffNs_switchIn : (st.switchIn tid ts).1.lastOffNs = none := by
  unfold switchIn
  split
  · dsimp only
    split
    · split <;> rfl
    · rfl
  · assumption

@[simp] theorem lastUserStack_switchOut :
    (st.switchOut tid ts).1.lastUserStack = st.lastUserStack := by
  unfold switchOut
  split
  · dsimp only
    split <;> rfl
  · rfl

@[simp] theorem lastUserStack_switchIn :
    (st.switchIn tid ts).1.lastUserStack = st.lastUserStack := by
  unfold switchIn
  split
  · dsimp only
    split
    · split <;> rfl
    · rfl
  · rfl

/-- What leaving a cpu closes. -/
theorem switchOut_closes (st : ThreadState) (tid : UInt64) (ts : ℕ) :
    (st.switchOut tid ts).2 = [] ∨
      ∃ on, st.lastOnNs = some on ∧ on < ts ∧ (st.switchOut tid ts).2 =
        [{ tid := tid.toUInt32, startNs := on, endNs := ts, kind := .onCpu }] := by
  cases hon : st.lastOnNs with
  | none => exact Or.inl (congrArg Prod.snd (switchOut_of_none hon))
  | some on =>
      rcases Nat.lt_or_ge on ts with hlt | hle
      · exact Or.inr ⟨on, rfl, hlt, congrArg Prod.snd (switchOut_of_lt hon hlt)⟩
      · exact Or.inl (congrArg Prod.snd (switchOut_of_le hon hle))

/-- What coming onto a cpu closes. -/
theorem switchIn_closes (st : ThreadState) (tid : UInt64) (ts : ℕ) :
    (st.switchIn tid ts).2 = [] ∨
      ∃ off, st.lastOffNs = some off ∧ off < ts ∧
        (st.switchIn tid ts).2 = [st.offInterval tid off ts] := by
  cases hoff : st.lastOffNs with
  | none => exact Or.inl (congrArg Prod.snd (switchIn_of_none hoff))
  | some off =>
      rcases Nat.lt_or_ge off ts with hlt | hle
      · by_cases hstack : st.lastUserStack ≠ []
        · refine Or.inr ⟨off, rfl, hlt, ?_⟩
          rw [switchIn_of_lt hoff hlt]
          exact if_pos hstack
        · refine Or.inl ?_
          rw [switchIn_of_lt hoff hlt]
          exact if_neg hstack
      · exact Or.inl (congrArg Prod.snd (switchIn_of_le hoff hle))

/-- Only a thread with a cached stack closes an off-CPU interval. -/
theorem stack_of_mem_switchIn {iv : PendingInterval} (h : iv ∈ (st.switchIn tid ts).2) :
    st.lastUserStack ≠ [] := by
  intro hstack
  cases hoff : st.lastOffNs with
  | none =>
      rw [switchIn_of_none hoff] at h
      cases h
  | some off =>
      rcases Nat.lt_or_ge off ts with hlt | hle
      · rw [switchIn_of_lt hoff hlt, if_neg (not_not.mpr hstack)] at h
        cases h
      · rw [switchIn_of_le hoff hle] at h
        cases h

/-- Intervals carry the low half of the thread id. -/
theorem tid_of_mem_step {e : ThreadEvent} {iv : PendingInterval} (h : iv ∈ (st.step tid e).2) :
    iv.tid = tid.toUInt32 := by
  cases e with
  | switchOut ts =>
      replace h : iv ∈ (st.switchOut tid ts).2 := h
      rcases switchOut_closes st tid ts with hnone | ⟨on, -, -, hone⟩
      · simp [hnone] at h
      · rw [hone] at h
        rw [List.mem_singleton.mp h]
  | switchIn ts =>
      replace h : iv ∈ (st.switchIn tid ts).2 := h
      rcases switchIn_closes st tid ts with hnone | ⟨off, -, -, hone⟩
      · simp [hnone] at h
      · rw [hone] at h
        rw [List.mem_singleton.mp h]
        rfl
  | sampled user kernel => simp [step] at h
  | woken waker => simp [step] at h

/-- An event that is no switch leaves times and totals alone and closes nothing. -/
theorem step_of_not_switch (st : ThreadState) (tid : UInt64) {e : ThreadEvent}
    (h : e.switchTime? = none) :
    (st.step tid e).1.lastOnNs = st.lastOnNs ∧ (st.step tid e).1.lastOffNs = st.lastOffNs ∧
      (st.step tid e).1.totalOnNs = st.totalOnNs ∧
      (st.step tid e).1.totalOffNs = st.totalOffNs ∧ (st.step tid e).2 = [] := by
  cases e with
  | switchOut ts => cases h
  | switchIn ts => cases h
  | sampled user kernel => exact ⟨rfl, rfl, rfl, rfl, rfl⟩
  | woken waker => exact ⟨rfl, rfl, rfl, rfl, rfl⟩

end ThreadState

/-! ## The events of a call -/

theorem TrackerOp.switch?_eq_some {op : TrackerOp} {rec : KdBuf} :
    op.switch? = some rec ↔ op = .feed rec ∧ IsSwitch rec := by
  cases op with
  | feed r =>
      by_cases hr : IsSwitch r
      · rw [TrackerOp.switch?, if_pos hr, Option.some.injEq, TrackerOp.feed.injEq]
        constructor
        · rintro rfl
          exact ⟨rfl, hr⟩
        · exact fun h => h.1
      · rw [TrackerOp.switch?, if_neg hr, TrackerOp.feed.injEq]
        constructor
        · intro h
          cases h
        · rintro ⟨rfl, h⟩
          exact absurd h hr
  | _ => simp [TrackerOp.switch?]

namespace CpuIntervalTracker

/-- The thread a switch takes off its cpu. -/
def leaving (self : CpuIntervalTracker) (rec : KdBuf) : Option UInt64 :=
  (self.onCpu rec.cpuid).filter fun prev => prev != 0 && prev != rec.arg2

/-- The thread a switch puts on its cpu. -/
def entering (rec : KdBuf) : Option UInt64 :=
  if rec.arg2 = 0 then none else some rec.arg2

/-- The event a call is for thread `tid`. -/
def event (self : CpuIntervalTracker) (tid : UInt64) : TrackerOp → Option ThreadEvent
  | .feed rec =>
      if IsSwitch rec then
        if entering rec = some tid then some (.switchIn rec.maskedTimestamp)
        else if self.leaving rec = some tid then some (.switchOut rec.maskedTimestamp)
        else none
      else if IsMakerunnable rec ∧ rec.arg2 = tid then
        (self.wakeup rec).map fun w => .woken ⟨w.wakerTid, w.wakerUserStack⟩
      else none
  | .noteSample t user kernel =>
      if t.toUInt64 = tid ∧ user ≠ [] then some (.sampled user kernel) else none
  | _ => none

/-- What a call closes for thread `tid`. -/
def closedFor (self : CpuIntervalTracker) (tid : UInt64) (op : TrackerOp) :
    List PendingInterval :=
  match self.event tid op with
  | none => []
  | some e => ((self.thread tid).step tid e).2

/-- The threads a call can close an interval for: at a switch, the one leaving, then the one
entering. -/
def switched (self : CpuIntervalTracker) : TrackerOp → List UInt64
  | .feed rec =>
      if IsSwitch rec then (self.leaving rec).toList ++ (entering rec).toList else []
  | _ => []

/-- Everything a call closes. -/
def closed (self : CpuIntervalTracker) (op : TrackerOp) : List PendingInterval :=
  (self.switched op).flatMap fun tid => self.closedFor tid op

theorem leaving_eq_some {s : CpuIntervalTracker} {rec : KdBuf} {tid : UInt64} :
    s.leaving rec = some tid ↔ s.onCpu rec.cpuid = some tid ∧ tid ≠ 0 ∧ tid ≠ rec.arg2 := by
  simp [leaving, Option.filter_eq_some_iff]

theorem entering_eq_some {rec : KdBuf} {tid : UInt64} :
    entering rec = some tid ↔ rec.arg2 = tid ∧ tid ≠ 0 := by
  unfold entering
  split
  · rename_i h
    constructor
    · intro hnone
      exact absurd hnone (by simp)
    · rintro ⟨rfl, hne⟩
      exact absurd h hne
  · rename_i h
    rw [Option.some.injEq]
    constructor
    · rintro rfl
      exact ⟨rfl, h⟩
    · exact fun h' => h'.1

/-- Calls that are no switch switch no thread. -/
theorem switchTime?_event {s : CpuIntervalTracker} {op : TrackerOp} (h : op.switch? = none)
    {tid : UInt64} {e : ThreadEvent} (he : s.event tid op = some e) : e.switchTime? = none := by
  cases op with
  | feed rec =>
      have hswitch : ¬ IsSwitch rec := by
        intro hswitch
        rw [TrackerOp.switch?, if_pos hswitch] at h
        cases h
      rw [event, if_neg hswitch] at he
      split at he
      · obtain ⟨w, -, rfl⟩ := Option.map_eq_some_iff.mp he
        rfl
      · cases he
  | noteSample t user kernel =>
      rw [event] at he
      split at he
      · cases he
        rfl
      · cases he
  | drainPending => cases he
  | drainWakeups => cases he

theorem closedFor_of_not_switch {s : CpuIntervalTracker} {op : TrackerOp} (h : op.switch? = none)
    (tid : UInt64) : s.closed op = [] ∧ s.closedFor tid op = [] := by
  constructor
  · cases op with
    | feed rec =>
        have hswitch : ¬ IsSwitch rec := by
          intro hswitch
          rw [TrackerOp.switch?, if_pos hswitch] at h
          cases h
        rw [closed, switched, if_neg hswitch]
        rfl
    | _ => rfl
  · unfold closedFor
    cases he : s.event tid op with
    | none => rfl
    | some e => exact ((s.thread tid).step_of_not_switch tid (switchTime?_event h he)).2.2.2.2

theorem event_entering {s : CpuIntervalTracker} {rec : KdBuf} (h : IsSwitch rec) {tid : UInt64}
    (htid : entering rec = some tid) :
    s.event tid (.feed rec) = some (.switchIn rec.maskedTimestamp) := by
  rw [event, if_pos h, if_pos htid]

theorem event_leaving {s : CpuIntervalTracker} {rec : KdBuf} (h : IsSwitch rec) {tid : UInt64}
    (htid : s.leaving rec = some tid) :
    s.event tid (.feed rec) = some (.switchOut rec.maskedTimestamp) := by
  have hne : entering rec ≠ some tid := by
    intro henter
    exact (leaving_eq_some.mp htid).2.2 (entering_eq_some.mp henter).1.symm
  rw [event, if_pos h, if_neg hne, if_pos htid]

/-- Only a sample is a sampling event. -/
theorem event_feed_ne_sampled (s : CpuIntervalTracker) (rec : KdBuf) (tid : UInt64)
    (user kernel : List UInt64) : s.event tid (.feed rec) ≠ some (.sampled user kernel) := by
  intro h
  rw [event] at h
  split at h
  · split at h
    · cases h
    · split at h <;> cases h
  · split at h
    · obtain ⟨w, -, hw⟩ := Option.map_eq_some_iff.mp h
      cases hw
    · cases h

/-- What the thread leaving the cpu closes. -/
def closedLeaving (self : CpuIntervalTracker) (rec : KdBuf) : List PendingInterval :=
  (self.leaving rec).toList.flatMap fun tid =>
    ((self.thread tid).switchOut tid rec.maskedTimestamp).2

/-- What the thread entering the cpu closes. -/
def closedEntering (self : CpuIntervalTracker) (rec : KdBuf) : List PendingInterval :=
  (entering rec).toList.flatMap fun tid =>
    ((self.thread tid).switchIn tid rec.maskedTimestamp).2

theorem closed_of_isSwitch {s : CpuIntervalTracker} {rec : KdBuf} (h : IsSwitch rec) :
    s.closed (.feed rec) = s.closedLeaving rec ++ s.closedEntering rec := by
  rw [closed, switched, if_pos h, List.flatMap_append]
  congr 1
  · apply List.flatMap_congr
    intro tid htid
    rw [closedFor, event_leaving h (Option.mem_toList.mp htid)]
    rfl
  · apply List.flatMap_congr
    intro tid htid
    rw [closedFor, event_entering h (Option.mem_toList.mp htid)]
    rfl

/-! ## One call -/

@[simp] theorem thread_onThread_self (s : CpuIntervalTracker) (tid : UInt64)
    (part : ThreadState → ThreadState × List PendingInterval) :
    (s.onThread tid part).thread tid = (part (s.thread tid)).1 := by
  simp [onThread, thread]

theorem thread_onThread_of_ne (s : CpuIntervalTracker) {tid t : UInt64} (h : t ≠ tid)
    (part : ThreadState → ThreadState × List PendingInterval) :
    (s.onThread tid part).thread t = s.thread t := by
  simp [onThread, thread, Function.update_of_ne h]

theorem pending_onThread (s : CpuIntervalTracker) (tid : UInt64)
    (part : ThreadState → ThreadState × List PendingInterval) :
    (s.onThread tid part).pending = s.pending ++ (part (s.thread tid)).2 := rfl

/-- The part of a switch that concerns the outgoing thread, and then the incoming one. -/
theorem feedSwitch_eq (s : CpuIntervalTracker) (rec : KdBuf) :
    s.feedSwitch rec =
      let s₀ := { s with onCpu := Function.update s.onCpu rec.cpuid (some rec.arg2) }
      let s₁ := match s.leaving rec with
        | some tid => s₀.onThread tid fun st => st.switchOut tid rec.maskedTimestamp
        | none => s₀
      match entering rec with
      | some tid => s₁.onThread tid fun st => st.switchIn tid rec.maskedTimestamp
      | none => s₁ := by
  have henter : (entering rec = none ∧ ¬ rec.arg2 ≠ 0) ∨
      (entering rec = some rec.arg2 ∧ rec.arg2 ≠ 0) := by
    unfold entering
    split
    · exact Or.inl ⟨rfl, not_not.mpr ‹_›⟩
    · exact Or.inr ⟨rfl, ‹_›⟩
  unfold feedSwitch
  cases hprev : s.onCpu rec.cpuid with
  | none =>
      have hleave : s.leaving rec = none := by simp [leaving, hprev]
      rcases henter with ⟨henter, hnew⟩ | ⟨henter, hnew⟩
      · simp only [hprev, hleave, henter, if_neg hnew]
      · simp only [hprev, hleave, henter, if_pos hnew]
  | some prev =>
      by_cases hmoved : prev ≠ 0 ∧ prev ≠ rec.arg2
      · have hleave : s.leaving rec = some prev := leaving_eq_some.mpr ⟨hprev, hmoved⟩
        rcases henter with ⟨henter, hnew⟩ | ⟨henter, hnew⟩
        · simp only [hprev, hleave, henter, if_pos hmoved, if_neg hnew]
        · simp only [hprev, hleave, henter, if_pos hmoved, if_pos hnew]
      · have hleave : s.leaving rec = none := by
          simpa [leaving, hprev, Option.filter_eq_none_iff] using hmoved
        rcases henter with ⟨henter, hnew⟩ | ⟨henter, hnew⟩
        · simp only [hprev, hleave, henter, if_neg hmoved, if_neg hnew]
        · simp only [hprev, hleave, henter, if_neg hmoved, if_pos hnew]

theorem onCpu_feedSwitch (s : CpuIntervalTracker) (rec : KdBuf) :
    (s.feedSwitch rec).onCpu = Function.update s.onCpu rec.cpuid (some rec.arg2) := by
  rw [feedSwitch_eq]
  cases s.leaving rec <;> cases entering rec <;> rfl

/-- What is known of a thread after a switch, by whether it went on, off or was not concerned. -/
theorem thread_feedSwitch (s : CpuIntervalTracker) (rec : KdBuf) (tid : UInt64) :
    (s.feedSwitch rec).thread tid =
      if entering rec = some tid then ((s.thread tid).switchIn tid rec.maskedTimestamp).1
      else if s.leaving rec = some tid then
        ((s.thread tid).switchOut tid rec.maskedTimestamp).1
      else s.thread tid := by
  rw [feedSwitch_eq]
  generalize hs₀ : { s with onCpu := Function.update s.onCpu rec.cpuid (some rec.arg2) } = s₀
  have hthread : ∀ t, s₀.thread t = s.thread t := fun t => hs₀ ▸ rfl
  -- the incoming thread is not the outgoing one, so it enters in the state it had before
  cases hleave : s.leaving rec with
  | none =>
      cases henter : entering rec with
      | none => simp [hthread]
      | some new =>
          by_cases hnew : new = tid
          · subst hnew
            simp [hthread]
          · simp [thread_onThread_of_ne _ (Ne.symm hnew), hnew, hthread]
  | some prev =>
      have hprev := (leaving_eq_some.mp hleave).2.2
      cases henter : entering rec with
      | none =>
          by_cases hout : prev = tid
          · subst hout
            simp [hthread]
          · simp [thread_onThread_of_ne _ (Ne.symm hout), hout, hthread]
      | some new =>
          obtain ⟨rfl, -⟩ := entering_eq_some.mp henter
          by_cases hin : rec.arg2 = tid
          · subst hin
            simp [thread_onThread_of_ne _ (Ne.symm hprev), hthread]
          · by_cases hout : prev = tid
            · subst hout
              simp [thread_onThread_of_ne _ hprev, Ne.symm hprev, hthread]
            · simp [thread_onThread_of_ne _ (Ne.symm hin), thread_onThread_of_ne _ (Ne.symm hout),
                hin, hout, hthread]

/-- What waits to be drained after a switch: what waited, and the intervals that the switch has
closed. -/
theorem pending_feedSwitch {s : CpuIntervalTracker} {rec : KdBuf} (h : IsSwitch rec) :
    (s.feedSwitch rec).pending = s.pending ++ s.closed (.feed rec) := by
  rw [feedSwitch_eq, closed_of_isSwitch h]
  generalize hs₀ : { s with onCpu := Function.update s.onCpu rec.cpuid (some rec.arg2) } = s₀
  have hthread : ∀ t, s₀.thread t = s.thread t := fun t => hs₀ ▸ rfl
  have hpending : s₀.pending = s.pending := hs₀ ▸ rfl
  unfold closedLeaving closedEntering
  cases hleave : s.leaving rec with
  | none =>
      cases entering rec with
      | none => simp [hpending]
      | some new => simp [pending_onThread, hthread, hpending]
  | some prev =>
      have hprev := (leaving_eq_some.mp hleave).2.2
      cases henter : entering rec with
      | none => simp [pending_onThread, hthread, hpending]
      | some new =>
          obtain ⟨rfl, -⟩ := entering_eq_some.mp henter
          have hnew := thread_onThread_of_ne s₀ (Ne.symm hprev)
            fun st => st.switchOut prev rec.maskedTimestamp
          simp [pending_onThread, hnew, hthread, hpending]

/-- A context switch goes to the `SCHED | STKHANDOFF` arm; only a counter tells the two codes
apart. -/
theorem feed_of_isSwitch {s : CpuIntervalTracker} {rec : KdBuf} (h : IsSwitch rec) :
    ∃ a b, s.feed rec =
      feedSwitch { s with schedCount := a, stkhandoffCount := b } rec := by
  obtain ⟨hsub, hcode⟩ := h
  by_cases hsched : kdbgCode rec.debugid = MachSched.sched
  · exact ⟨s.schedCount + 1, s.stkhandoffCount, by simp [feed, hsub, hsched]⟩
  · -- the other code that switches is STKHANDOFF
    have hoff := hcode.resolve_left hsched
    refine ⟨s.schedCount, s.stkhandoffCount + 1, ?_⟩
    simp [feed, hsub, hoff, MachSched.sched, MachSched.stkhandoff]

theorem feed_of_isMakerunnable {s : CpuIntervalTracker} {rec : KdBuf} (h : IsMakerunnable rec) :
    s.feed rec = s.feedMakerunnable rec := by
  obtain ⟨hsub, hcode⟩ := h
  simp [feed, hsub, hcode, MachSched.sched, MachSched.stkhandoff, MachSched.makerunnable]

theorem feed_of_other {s : CpuIntervalTracker} {rec : KdBuf} (hswitch : ¬ IsSwitch rec)
    (hwake : ¬ IsMakerunnable rec) : s.feed rec = s := by
  unfold feed
  unfold IsSwitch at hswitch
  unfold IsMakerunnable at hwake
  by_cases hsub : kdbgSubclass rec.debugid = dbgMachSched
  · simp only [hsub, true_and, not_or] at hswitch hwake
    simp [hsub, hswitch.1, hswitch.2, hwake]
  · simp [hsub]

theorem feedMakerunnable_of_wakeup {s : CpuIntervalTracker} {rec : KdBuf} {w : PendingWakeup}
    (h : s.wakeup rec = some w) :
    (s.feedMakerunnable rec).threads =
      Function.update s.threads rec.arg2
        (some { s.thread rec.arg2 with pendingWakeup := some ⟨w.wakerTid, w.wakerUserStack⟩ }) := by
  have h' : wakeup { s with makerunnableCount := s.makerunnableCount + 1 } rec = some w := h
  simp only [feedMakerunnable, h']
  rfl

theorem feedMakerunnable_of_none {s : CpuIntervalTracker} {rec : KdBuf}
    (h : s.wakeup rec = none) : (s.feedMakerunnable rec).threads = s.threads := by
  have h' : wakeup { s with makerunnableCount := s.makerunnableCount + 1 } rec = none := h
  simp only [feedMakerunnable, h']

theorem feedMakerunnable_frame (s : CpuIntervalTracker) (rec : KdBuf) :
    (s.feedMakerunnable rec).onCpu = s.onCpu ∧ (s.feedMakerunnable rec).pending = s.pending := by
  unfold feedMakerunnable
  dsimp only
  split <;> exact ⟨rfl, rfl⟩

/-- Only a switch moves the per-cpu map. -/
theorem onCpu_call (s : CpuIntervalTracker) (op : TrackerOp) :
    (s.call op).1.onCpu =
      match op.switch? with
      | some rec => Function.update s.onCpu rec.cpuid (some rec.arg2)
      | none => s.onCpu := by
  cases op with
  | feed rec =>
      by_cases hswitch : IsSwitch rec
      · obtain ⟨a, b, hfeed⟩ := feed_of_isSwitch (s := s) hswitch
        simp only [call, TrackerOp.switch?, if_pos hswitch, hfeed, onCpu_feedSwitch]
      · simp only [call, TrackerOp.switch?, if_neg hswitch]
        by_cases hwake : IsMakerunnable rec
        · rw [feed_of_isMakerunnable hwake, (feedMakerunnable_frame s rec).1]
        · rw [feed_of_other hswitch hwake]
  | noteSample t user kernel =>
      show (s.noteSample t user kernel).onCpu = s.onCpu
      unfold noteSample
      split <;> rfl
  | drainPending => rfl
  | drainWakeups => rfl

/-- A switch moves the thread it puts on the cpu and the thread it takes off. -/
theorem thread_feed_of_isSwitch (s : CpuIntervalTracker) (tid : UInt64) {rec : KdBuf}
    (h : IsSwitch rec) :
    (s.feed rec).thread tid =
      match s.event tid (.feed rec) with
      | some e => ((s.thread tid).step tid e).1
      | none => s.thread tid := by
  obtain ⟨a, b, hfeed⟩ := feed_of_isSwitch (s := s) h
  rw [hfeed, thread_feedSwitch]
  simp only [event, if_pos h]
  by_cases henter : entering rec = some tid
  · rw [if_pos henter, if_pos henter]
    rfl
  · rw [if_neg henter, if_neg henter]
    by_cases hleave : s.leaving rec = some tid
    · rw [if_pos hleave]
      exact if_pos hleave
    · rw [if_neg hleave]
      exact if_neg hleave

/-- A wakeup moves the wakee, if it is accepted. -/
theorem thread_feed_of_isMakerunnable (s : CpuIntervalTracker) (tid : UInt64) {rec : KdBuf}
    (h : IsMakerunnable rec) :
    (s.feed rec).thread tid =
      match s.event tid (.feed rec) with
      | some e => ((s.thread tid).step tid e).1
      | none => s.thread tid := by
  have hswitch : ¬ IsSwitch rec := fun hswitch => not_isMakerunnable_of_isSwitch hswitch h
  simp only [event, if_neg hswitch]
  rw [feed_of_isMakerunnable h]
  cases hw : s.wakeup rec with
  | none =>
      have hthread : (s.feedMakerunnable rec).thread tid = s.thread tid := by
        rw [thread, feedMakerunnable_of_none hw, thread]
      rw [hthread]
      split
      · rename_i e he
        split at he <;> simp at he
      · rfl
  | some w =>
      have hthreads := feedMakerunnable_of_wakeup hw
      by_cases hwakee : rec.arg2 = tid
      · subst hwakee
        rw [thread, hthreads, Function.update_self, if_pos ⟨h, rfl⟩]
        rfl
      · rw [thread, hthreads, Function.update_of_ne (Ne.symm hwakee), if_neg fun h => hwakee h.2]
        rfl

/-- A call moves a thread by that thread's event, if it is one for it. -/
theorem thread_call (s : CpuIntervalTracker) (tid : UInt64) (op : TrackerOp) :
    (s.call op).1.thread tid =
      match s.event tid op with
      | some e => ((s.thread tid).step tid e).1
      | none => s.thread tid := by
  cases op with
  | feed rec =>
      show (s.feed rec).thread tid = _
      by_cases hswitch : IsSwitch rec
      · exact thread_feed_of_isSwitch s tid hswitch
      · by_cases hwake : IsMakerunnable rec
        · exact thread_feed_of_isMakerunnable s tid hwake
        · rw [feed_of_other hswitch hwake, event, if_neg hswitch, if_neg fun h => hwake h.1]
  | noteSample t user kernel =>
      simp only [call, event, noteSample]
      by_cases huser : user = []
      · rw [if_pos huser, if_neg fun h => h.2 huser]
      · rw [if_neg huser]
        by_cases ht : t.toUInt64 = tid
        · subst ht
          rw [if_pos ⟨rfl, huser⟩, thread]
          simp [ThreadState.step]
        · rw [if_neg fun h => ht h.1, thread]
          simp [Function.update_of_ne (Ne.symm ht), thread]
  | drainPending => rfl
  | drainWakeups => rfl

theorem thread_call_of_not_switch {s : CpuIntervalTracker} {op : TrackerOp}
    (h : op.switch? = none) (tid : UInt64) :
    ((s.call op).1.thread tid).lastOnNs = (s.thread tid).lastOnNs ∧
      ((s.call op).1.thread tid).lastOffNs = (s.thread tid).lastOffNs ∧
      ((s.call op).1.thread tid).totalOnNs = (s.thread tid).totalOnNs ∧
      ((s.call op).1.thread tid).totalOffNs = (s.thread tid).totalOffNs := by
  rw [thread_call]
  cases he : s.event tid op with
  | none => exact ⟨rfl, rfl, rfl, rfl⟩
  | some e =>
      obtain ⟨hon, hoff, hton, htoff, -⟩ :=
        (s.thread tid).step_of_not_switch tid (switchTime?_event h he)
      exact ⟨hon, hoff, hton, htoff⟩

/-- Where the open on-CPU interval of a thread starts after a switch. -/
theorem lastOnNs_feed_of_isSwitch (s : CpuIntervalTracker) (tid : UInt64) {rec : KdBuf}
    (h : IsSwitch rec) :
    ((s.feed rec).thread tid).lastOnNs =
      if entering rec = some tid then some rec.maskedTimestamp
      else if s.leaving rec = some tid then none
      else (s.thread tid).lastOnNs := by
  obtain ⟨a, b, hfeed⟩ := feed_of_isSwitch (s := s) h
  rw [hfeed, thread_feedSwitch]
  by_cases henter : entering rec = some tid
  · rw [if_pos henter, if_pos henter, ThreadState.lastOnNs_switchIn]
  · rw [if_neg henter, if_neg henter]
    by_cases hleave : s.leaving rec = some tid
    · rw [if_pos hleave]
      exact (congrArg _ (if_pos hleave)).trans ThreadState.lastOnNs_switchOut
    · rw [if_neg hleave]
      exact congrArg ThreadState.lastOnNs (if_neg hleave)

/-- Records leave the cached user stacks alone. -/
theorem lastUserStack_feed (s : CpuIntervalTracker) (rec : KdBuf) (tid : UInt64) :
    ((s.feed rec).thread tid).lastUserStack = (s.thread tid).lastUserStack := by
  have hcall := s.thread_call tid (.feed rec)
  have hfeed : (s.call (.feed rec)).1 = s.feed rec := rfl
  rw [← hfeed, hcall]
  cases hevent : s.event tid (.feed rec) with
  | none => rfl
  | some e =>
      cases e with
      | switchOut ts => exact ThreadState.lastUserStack_switchOut
      | switchIn ts => exact ThreadState.lastUserStack_switchIn
      -- a record is never a sampling event
      | sampled user kernel => exact absurd hevent (event_feed_ne_sampled s rec tid user kernel)
      | woken waker => rfl

/-- A cached user stack was cached before or belongs to the sample noted. -/
theorem lastUserStack_noteSample {s : CpuIntervalTracker} {tid : UInt32}
    {user kernel : List UInt64} {t : UInt64}
    (h : ((s.noteSample tid user kernel).thread t).lastUserStack ≠ []) :
    (s.thread t).lastUserStack ≠ [] ∨ tid.toUInt64 = t := by
  by_cases ht : tid.toUInt64 = t
  · exact Or.inr ht
  · left
    have hcall := s.thread_call t (.noteSample tid user kernel)
    have hnote : (s.call (.noteSample tid user kernel)).1 = s.noteSample tid user kernel := rfl
    rw [event, if_neg fun h => ht h.1] at hcall
    rwa [← hnote, hcall] at h

/-- Every call leaves in the outbox, or hands out, what was there and what it closed. -/
theorem pending_call (s : CpuIntervalTracker) (op : TrackerOp) :
    (s.call op).2.filterMap TrackerOutput.interval? ++ (s.call op).1.pending =
      s.pending ++ s.closed op := by
  cases op with
  | feed rec =>
      by_cases hswitch : IsSwitch rec
      · obtain ⟨a, b, hfeed⟩ := feed_of_isSwitch (s := s) hswitch
        show (s.feed rec).pending = _
        rw [hfeed, pending_feedSwitch hswitch]
        rfl
      · have hclosed : s.closed (.feed rec) = [] := by simp [closed, switched, hswitch]
        show (s.feed rec).pending = _
        rw [hclosed, List.append_nil]
        by_cases hwake : IsMakerunnable rec
        · rw [feed_of_isMakerunnable hwake, (feedMakerunnable_frame s rec).2]
        · rw [feed_of_other hswitch hwake]
  | noteSample t user kernel =>
      show (s.noteSample t user kernel).pending = s.pending ++ []
      rw [List.append_nil]
      unfold noteSample
      split <;> rfl
  | drainPending =>
      -- the whole outbox is handed out
      show (s.pending.map TrackerOutput.interval).filterMap TrackerOutput.interval? ++ [] = _
      rw [List.append_nil, List.filterMap_map]
      show s.pending.filterMap some = s.pending ++ []
      rw [List.filterMap_some, List.append_nil]
  | drainWakeups =>
      -- what is handed out are wakeups, none of them an interval
      show (s.pendingWakeups.map TrackerOutput.wakeup).filterMap TrackerOutput.interval? ++
        s.pending = s.pending ++ []
      rw [List.filterMap_map, List.append_nil]
      show s.pendingWakeups.filterMap (fun _ => none) ++ s.pending = s.pending
      rw [List.filterMap_none]
      rfl

end CpuIntervalTracker

/-! ## Runs -/

/-- What each call closes, as a machine. -/
def closedMachine : Transducer CpuIntervalTracker TrackerOp PendingInterval where
  step s op := ((s.call op).1, s.closed op)

/-- What each call closes for one thread, as a machine. -/
def closedForMachine (tid : UInt64) : Transducer CpuIntervalTracker TrackerOp PendingInterval where
  step s op := ((s.call op).1, s.closedFor tid op)

/-- The events each call is for one thread, as a machine. -/
def eventMachine (tid : UInt64) : Transducer CpuIntervalTracker TrackerOp ThreadEvent where
  step s op := ((s.call op).1, (s.event tid op).toList)

/-- One thread's events in a run. -/
def timeline (tid : UInt64) (ops : List TrackerOp) : List ThreadEvent :=
  (eventMachine tid).outputs .new ops

/-- The intervals closed for one thread in a run, told apart by the full thread id. -/
def emittedFor (tid : UInt64) (ops : List TrackerOp) : List PendingInterval :=
  (closedForMachine tid).outputs .new ops

theorem track_concat (ops : List TrackerOp) (op : TrackerOp) :
    track (ops ++ [op]) = ((track ops).call op).1 :=
  tracker.run_concat .new ops op

/-- Everything emitted is everything closed, in order: draining changes nothing. -/
theorem emitted_eq (ops : List TrackerOp) : emitted ops = closedMachine.outputs .new ops :=
  tracker.delivered_append_outbox closedMachine CpuIntervalTracker.pending
    TrackerOutput.interval? (fun _ _ => rfl) CpuIntervalTracker.pending_call .new ops

theorem emitted_concat (ops : List TrackerOp) (op : TrackerOp) :
    emitted (ops ++ [op]) = emitted ops ++ (track ops).closed op := by
  rw [emitted_eq, emitted_eq]
  exact closedMachine.outputs_concat .new ops op

theorem emittedFor_concat (tid : UInt64) (ops : List TrackerOp) (op : TrackerOp) :
    emittedFor tid (ops ++ [op]) = emittedFor tid ops ++ (track ops).closedFor tid op :=
  (closedForMachine tid).outputs_concat .new ops op

theorem timeline_concat (tid : UInt64) (ops : List TrackerOp) (op : TrackerOp) :
    timeline tid (ops ++ [op]) = timeline tid ops ++ ((track ops).event tid op).toList :=
  (eventMachine tid).outputs_concat .new ops op

theorem thread_next (tid : UInt64) (s : CpuIntervalTracker) (op : TrackerOp) :
    ((eventMachine tid).next s op).thread tid =
      (threadMachine tid).run (s.thread tid) ((eventMachine tid).emit s op) := by
  show (s.call op).1.thread tid = (threadMachine tid).run (s.thread tid) (s.event tid op).toList
  rw [s.thread_call tid op]
  cases s.event tid op <;> rfl

/-- A thread's state is what its own events make of it. -/
theorem thread_track (tid : UInt64) (ops : List TrackerOp) :
    (track ops).thread tid = (threadMachine tid).run {} (timeline tid ops) :=
  (eventMachine tid).run_cascade (threadMachine tid)
    (fun s : CpuIntervalTracker => s.thread tid) (thread_next tid) .new ops

/-- And so are the intervals closed for it. -/
theorem emittedFor_eq (tid : UInt64) (ops : List TrackerOp) :
    emittedFor tid ops = (threadMachine tid).outputs {} (timeline tid ops) := by
  refine (eventMachine tid).outputs_cascade (threadMachine tid)
    (fun s : CpuIntervalTracker => s.thread tid) (closedForMachine tid) (fun _ _ => rfl)
    (thread_next tid) ?_ .new ops
  intro s op
  show s.closedFor tid op =
    (threadMachine tid).outputs (s.thread tid) (s.event tid op).toList
  unfold CpuIntervalTracker.closedFor
  cases s.event tid op with
  | none => rfl
  | some e => exact (List.append_nil _).symm

/-! ## What the records say -/

theorem switchRecords_concat (ops : List TrackerOp) (op : TrackerOp) :
    switchRecords (ops ++ [op]) = switchRecords ops ++ op.switch?.toList := by
  rw [switchRecords, switchRecords, List.filterMap_append]
  cases h : op.switch? <;> simp [h]

/-- The times of the switch records. -/
def switchTimes (ops : List TrackerOp) : List ℕ := (switchRecords ops).map KdBuf.maskedTimestamp

theorem switchTimes_concat (ops : List TrackerOp) (op : TrackerOp) :
    switchTimes (ops ++ [op]) = switchTimes ops ++ op.switch?.toList.map KdBuf.maskedTimestamp := by
  rw [switchTimes, switchRecords_concat, List.map_append]
  rfl

/-- The thread the last switch on `cpu` put there. -/
def currentOn (ops : List TrackerOp) (cpu : UInt32) : Option UInt64 :=
  ((switchRecords ops).filter fun rec => rec.cpuid == cpu).getLast?.map KdBuf.arg2

/-- Who is on a cpu after one operation more: who was switched to by it, or who was there. -/
theorem currentOn_concat (ops : List TrackerOp) (op : TrackerOp) :
    currentOn (ops ++ [op]) =
      match op.switch? with
      | some rec => Function.update (currentOn ops) rec.cpuid (some rec.arg2)
      | none => currentOn ops := by
  funext cpu
  unfold currentOn
  rw [switchRecords_concat]
  cases op.switch? with
  | none => simp
  | some rec =>
      by_cases hcpu : rec.cpuid = cpu
      · subst hcpu
        simp
      · dsimp only
        rw [Function.update_of_ne (Ne.symm hcpu)]
        simp [hcpu]

/-- The tracker's map is what the switch records say. -/
theorem onCpu_track (ops : List TrackerOp) : (track ops).onCpu = currentOn ops := by
  induction ops using List.reverseRecOn with
  | nil => rfl
  | append_singleton ops op ih =>
      rw [track_concat, CpuIntervalTracker.onCpu_call, currentOn_concat, ih]

theorem exists_of_currentOn {ops : List TrackerOp} {cpu : UInt32} {tid : UInt64}
    (h : currentOn ops cpu = some tid) :
    ∃ rec ∈ switchRecords ops, rec.cpuid = cpu ∧ rec.arg2 = tid := by
  obtain ⟨rec, hlast, harg⟩ := Option.map_eq_some_iff.mp h
  obtain ⟨hmem, hcpu⟩ := List.mem_filter.mp (List.mem_of_getLast? hlast)
  exact ⟨rec, hmem, by simpa using hcpu, harg⟩

end Stax.Kperf
