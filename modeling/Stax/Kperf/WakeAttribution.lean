/-
# Stax.Kperf.WakeAttribution — who ended an off-CPU interval.

The waker stamped on an off-CPU interval should be the last one whose wakeup of the thread was
accepted while the interval was open (`windowWaker`).  The code stamps the thread's pending wakeup,
which is the window's if there is one and otherwise whatever was pending when the interval opened:
nothing drops a wakeup that arrives while the thread runs, and a zero-length off-CPU stretch does
not consume one.  So attribution is per interval exactly when no interval without a wakeup of its
own opens with an unsettled one.
-/
import Stax.Kperf.ThreadTimeline

namespace Stax.Kperf

open Stax.Lib

/-! ## A thread's events -/

/-- The event is a switch of the thread. -/
def ThreadEvent.isSwitch (e : ThreadEvent) : Bool := e.switchTime?.isSome

/-- The waker that the event tells of. -/
def ThreadEvent.waker? : ThreadEvent → Option PendingWakerAttribution
  | .woken waker => some waker
  | _ => none

/-- The events since the thread's last switch. -/
def sinceSwitch (es : List ThreadEvent) : List ThreadEvent := es.rtakeWhile fun e => !e.isSwitch

/-- The events up to the thread's last switch. -/
def upToSwitch (es : List ThreadEvent) : List ThreadEvent := es.rdropWhile fun e => !e.isSwitch

/-- The last waker among some events. -/
def lastWaker (es : List ThreadEvent) : Option PendingWakerAttribution :=
  (es.filterMap ThreadEvent.waker?).getLast?

/-- Since when the thread is off, when its last switch took it off a cpu. -/
def offSince (es : List ThreadEvent) : Option ℕ :=
  match (es.filter ThreadEvent.isSwitch).getLast? with
  | some (.switchOut ts) => some ts
  | _ => none

/-- A switch-in at `ts` ends an off-CPU stretch of positive length. -/
def EndsOffStretch (es : List ThreadEvent) (ts : ℕ) : Prop :=
  ∃ off, offSince es = some off ∧ off < ts

/-- Every wakeup is followed by a switch-in that ends an off-CPU stretch of positive length. -/
def Settled (es : List ThreadEvent) : Prop :=
  ∀ pre waker post, es = pre ++ .woken waker :: post →
    ∃ mid ts rest, post = mid ++ .switchIn ts :: rest ∧
      EndsOffStretch (pre ++ .woken waker :: mid) ts

theorem offSince_concat_of_switch {es : List ThreadEvent} {e : ThreadEvent}
    (h : e.isSwitch = true) :
    offSince (es ++ [e]) = match e with
      | .switchOut ts => some ts
      | _ => none := by
  rw [offSince, List.filter_append, List.filter_cons_of_pos h, List.filter_nil,
    List.getLast?_concat]
  cases e <;> rfl

theorem offSince_concat_of_not_switch {es : List ThreadEvent} {e : ThreadEvent}
    (h : e.isSwitch = false) : offSince (es ++ [e]) = offSince es := by
  rw [offSince, List.filter_append, List.filter_cons_of_neg (by simp [h]), List.filter_nil,
    List.append_nil, offSince]

/-- The thread's state knows since when it is off. -/
theorem lastOffNs_run (tid : UInt64) (es : List ThreadEvent) :
    ((threadMachine tid).run {} es).lastOffNs = offSince es := by
  induction es using List.reverseRecOn with
  | nil => rfl
  | append_singleton es e ih =>
      rw [Transducer.run_concat]
      show (((threadMachine tid).run {} es).step tid e).1.lastOffNs = _
      cases e with
      | switchOut ts =>
          rw [offSince_concat_of_switch rfl]
          exact ThreadState.lastOffNs_switchOut
      | switchIn ts =>
          rw [offSince_concat_of_switch rfl]
          exact ThreadState.lastOffNs_switchIn
      | sampled user kernel =>
          rw [offSince_concat_of_not_switch rfl]
          exact ih
      | woken waker =>
          rw [offSince_concat_of_not_switch rfl]
          exact ih

/-! ## The pending wakeup -/

namespace ThreadState

variable {st : ThreadState} {tid : UInt64} {ts : ℕ}

theorem pendingWakeup_switchOut : (st.switchOut tid ts).1.pendingWakeup = st.pendingWakeup := by
  unfold switchOut
  split
  · dsimp only
    split <;> rfl
  · rfl

theorem pendingWakeup_switchIn_of_lt {off : ℕ} (h : st.lastOffNs = some off) (hlt : off < ts) :
    (st.switchIn tid ts).1.pendingWakeup = none := by
  rw [switchIn_of_lt h hlt]

theorem pendingWakeup_switchIn_of_not (h : ∀ off, st.lastOffNs = some off → ts ≤ off) :
    (st.switchIn tid ts).1.pendingWakeup = st.pendingWakeup := by
  cases hoff : st.lastOffNs with
  | none => rw [switchIn_of_none hoff]
  | some off => rw [switchIn_of_le hoff (h off hoff)]

end ThreadState

/-- The last event decides whether a new wakeup is open, all are settled, or nothing changes. -/
theorem settled_concat {es : List ThreadEvent} {e : ThreadEvent} :
    Settled (es ++ [e]) ↔
      e.waker? = none ∧ ((∃ ts, e = .switchIn ts ∧ EndsOffStretch es ts) ∨ Settled es) := by
  constructor
  · intro h
    constructor
    · cases e with
      | woken waker =>
          obtain ⟨mid, ts, rest, hnil, -⟩ := h es waker [] rfl
          simp at hnil
      | _ => rfl
    · by_cases hends : ∃ ts, e = .switchIn ts ∧ EndsOffStretch es ts
      · exact Or.inl hends
      · refine Or.inr ?_
        rintro pre waker post rfl
        obtain ⟨mid, ts, rest, hpost, hstretch⟩ := h pre waker (post ++ [e]) (by simp)
        rcases concat_eq_append_cons.mp hpost with ⟨rfl, he, rfl⟩ | ⟨rest', rfl, rfl⟩
        · -- the settling switch-in would be the last event itself
          exact absurd ⟨ts, he, hstretch⟩ hends
        · exact ⟨mid, ts, rest', rfl, hstretch⟩
  · rintro ⟨hwaker, hsettled⟩ pre waker post hes
    rcases concat_eq_append_cons.mp hes with ⟨rfl, rfl, rfl⟩ | ⟨post', rfl, rfl⟩
    · cases hwaker
    · rcases hsettled with ⟨ts, rfl, hstretch⟩ | hsettled
      · exact ⟨post', ts, [], rfl, hstretch⟩
      · obtain ⟨mid, ts, rest, rfl, hstretch⟩ := hsettled pre waker post' rfl
        exact ⟨mid, ts, rest ++ [e], by simp, hstretch⟩

/-- No wakeup is pending exactly when every one is settled. -/
theorem pendingWakeup_eq_none_iff (tid : UInt64) (es : List ThreadEvent) :
    ((threadMachine tid).run {} es).pendingWakeup = none ↔ Settled es := by
  induction es using List.reverseRecOn with
  | nil =>
      refine iff_of_true rfl ?_
      intro pre waker post h
      simp at h
  | append_singleton es e ih =>
      have hoff := lastOffNs_run tid es
      rw [Transducer.run_concat, settled_concat, ← ih]
      show (((threadMachine tid).run {} es).step tid e).1.pendingWakeup = none ↔ _
      generalize (threadMachine tid).run {} es = st at hoff
      cases e with
      | switchOut ts =>
          rw [ThreadState.step, ThreadState.pendingWakeup_switchOut]
          simp [ThreadEvent.waker?]
      | switchIn ts =>
          rw [ThreadState.step]
          -- a switch-in clears the pending wakeup exactly when it settles what came before
          by_cases hends : EndsOffStretch es ts
          · obtain ⟨off, hes, hlt⟩ := hends
            rw [ThreadState.pendingWakeup_switchIn_of_lt (hoff.trans hes) hlt]
            exact iff_of_true rfl ⟨rfl, Or.inl ⟨ts, rfl, off, hes, hlt⟩⟩
          · rw [ThreadState.pendingWakeup_switchIn_of_not]
            · constructor
              · exact fun h => ⟨rfl, Or.inr h⟩
              · rintro ⟨-, ⟨ts', hts, hends'⟩ | h⟩
                · cases hts
                  exact absurd hends' hends
                · exact h
            · intro off hst
              by_contra hlt
              exact hends ⟨off, hoff.symm.trans hst, by omega⟩
      | sampled user kernel => simp [ThreadState.step, ThreadEvent.waker?]
      | woken waker => simp [ThreadState.step, ThreadEvent.waker?]

/-- Without a switch, the last waker stays pending, or what was pending before. -/
theorem pendingWakeup_run_of_not_switch (tid : UInt64) {es : List ThreadEvent}
    (h : ∀ e ∈ es, e.isSwitch = false) (st : ThreadState) :
    ((threadMachine tid).run st es).pendingWakeup = (lastWaker es).or st.pendingWakeup := by
  induction es using List.reverseRecOn with
  | nil => rfl
  | append_singleton es e ih =>
      have hih := ih fun e he => h e (List.mem_append_left _ he)
      have he : e.isSwitch = false := h e (by simp)
      rw [Transducer.run_concat, lastWaker, List.filterMap_append]
      show (((threadMachine tid).run st es).step tid e).1.pendingWakeup = _
      cases e with
      | switchOut ts => cases he
      | switchIn ts => cases he
      | sampled user kernel =>
          show ((threadMachine tid).run st es).pendingWakeup = _
          rw [hih, List.filterMap_cons_none rfl, List.filterMap_nil, List.append_nil]
          rfl
      | woken waker =>
          have hlast : [ThreadEvent.woken waker].filterMap ThreadEvent.waker? = [waker] := rfl
          rw [hlast, List.getLast?_concat]
          rfl

/-! ## Attribution -/

/-- The last waker accepted since the thread's last switch: for an off-CPU interval about to close,
since it opened. -/
def windowWaker (tid : UInt64) (ops : List TrackerOp) : Option PendingWakerAttribution :=
  lastWaker (sinceSwitch (timeline tid ops))

/-- Every off-CPU interval emitted for the thread carries the last waker accepted while it was
open, and none if there was none. -/
def WakersOfWindow (tid : UInt64) : List TrackerOp → Prop :=
  Stepwise fun ops op => ∀ iv ∈ (track ops).closedFor tid op, ∀ user kernel waker stack,
    iv.kind = .offCpu user kernel waker stack →
      waker = (windowWaker tid ops).map PendingWakerAttribution.wakerTid ∧
        stack = (windowWaker tid ops).map PendingWakerAttribution.wakerUserStack

/-- The call brings the thread back after an off-CPU stretch of positive length, with a user stack
to attribute it to: it emits an off-CPU interval. -/
def EndsOffInterval (tid : UInt64) (ops : List TrackerOp) (op : TrackerOp) : Prop :=
  ∃ ts, (track ops).event tid op = some (.switchIn ts) ∧ EndsOffStretch (timeline tid ops) ts ∧
    ((track ops).thread tid).lastUserStack ≠ []

/-- When an emitted off-CPU interval has no wakeup of its own, the thread's wakeups up to its
opening were all settled. -/
def NoStaleWakeup (tid : UInt64) : List TrackerOp → Prop :=
  Stepwise fun ops op => EndsOffInterval tid ops op → windowWaker tid ops = none →
    Settled (upToSwitch (timeline tid ops))

/-- Since when the thread is off, from its own events. -/
theorem lastOffNs_track (tid : UInt64) (ops : List TrackerOp) :
    ((track ops).thread tid).lastOffNs = offSince (timeline tid ops) := by
  rw [thread_track]
  exact lastOffNs_run tid (timeline tid ops)

/-- A call that brings the thread back closes one off-CPU interval, stamped with the pending
wakeup. -/
theorem closedFor_of_endsOffInterval {tid : UInt64} {ops : List TrackerOp} {op : TrackerOp}
    (h : EndsOffInterval tid ops op) : ∃ off ts,
      (track ops).closedFor tid op = [((track ops).thread tid).offInterval tid off ts] := by
  obtain ⟨ts, hevent, ⟨off, hes, hlt⟩, hstack⟩ := h
  have hoff := (lastOffNs_track tid ops).trans hes
  refine ⟨off, ts, ?_⟩
  rw [CpuIntervalTracker.closedFor, hevent]
  show (((track ops).thread tid).switchIn tid ts).2 = _
  rw [ThreadState.switchIn_of_lt hoff hlt]
  exact if_pos hstack

/-- And every off-CPU interval closed for the thread is such a one. -/
theorem endsOffInterval_of_mem_closedFor {tid : UInt64} {ops : List TrackerOp} {op : TrackerOp}
    {iv : PendingInterval} (hiv : iv ∈ (track ops).closedFor tid op) (hkind : iv.kind ≠ .onCpu) :
    EndsOffInterval tid ops op ∧
      ∃ off ts, iv = ((track ops).thread tid).offInterval tid off ts := by
  unfold CpuIntervalTracker.closedFor at hiv
  cases hevent : (track ops).event tid op with
  | none => simp [hevent] at hiv
  | some e =>
      rw [hevent] at hiv
      cases e with
      | switchOut ts =>
          replace hiv : iv ∈ (((track ops).thread tid).switchOut tid ts).2 := hiv
          rcases ThreadState.switchOut_closes ((track ops).thread tid) tid ts with
            hnone | ⟨on, -, -, hone⟩
          · simp [hnone] at hiv
          · rw [hone] at hiv
            rw [List.mem_singleton.mp hiv] at hkind
            exact absurd rfl hkind
      | switchIn ts =>
          replace hiv : iv ∈ (((track ops).thread tid).switchIn tid ts).2 := hiv
          have hstack := ThreadState.stack_of_mem_switchIn hiv
          rcases ThreadState.switchIn_closes ((track ops).thread tid) tid ts with
            hnone | ⟨off, hoff, hlt, hone⟩
          · simp [hnone] at hiv
          · rw [hone] at hiv
            have hstretch : EndsOffStretch (timeline tid ops) ts :=
              ⟨off, (lastOffNs_track tid ops).symm.trans hoff, hlt⟩
            exact ⟨⟨ts, hevent, hstretch, hstack⟩, off, ts, List.mem_singleton.mp hiv⟩
      | sampled user kernel => simp [ThreadState.step] at hiv
      | woken waker => simp [ThreadState.step] at hiv

/-- The pending wakeup is the window's, or what was pending when the window opened. -/
theorem pendingWakeup_eq (tid : UInt64) (ops : List TrackerOp) :
    ((track ops).thread tid).pendingWakeup =
      (windowWaker tid ops).or
        ((threadMachine tid).run {} (upToSwitch (timeline tid ops))).pendingWakeup := by
  have hsplit : upToSwitch (timeline tid ops) ++ sinceSwitch (timeline tid ops) =
      timeline tid ops := List.rdropWhile_append_rtakeWhile
  rw [thread_track, ← hsplit, Transducer.run_append, pendingWakeup_run_of_not_switch, hsplit]
  · rfl
  · intro e he
    simpa using List.mem_rtakeWhile_imp he

/-- Wakeup attribution is per interval exactly when no off-CPU interval without a wakeup of its own
opens while an earlier wakeup is unsettled. -/
theorem wakeup_attribution_iff (tid : UInt64) (ops : List TrackerOp) :
    WakersOfWindow tid ops ↔ NoStaleWakeup tid ops := by
  constructor
  · -- an interval without a wakeup of its own shows what was pending when it opened
    intro h pre op post hops hends hnone
    obtain ⟨off, ts, hclosed⟩ := closedFor_of_endsOffInterval hends
    have hiv := h pre op post hops _ (by rw [hclosed]; exact List.mem_singleton_self _) _ _ _ _ rfl
    rw [hnone] at hiv
    rw [← pendingWakeup_eq_none_iff tid]
    have hpending := pendingWakeup_eq tid pre
    rw [hnone, Option.none_or] at hpending
    rw [← hpending]
    exact Option.map_eq_none_iff.mp hiv.1
  · intro h pre op post hops iv hiv user kernel waker stack hkind
    obtain ⟨hends, off, ts, hiv'⟩ := endsOffInterval_of_mem_closedFor hiv (by rw [hkind]; simp)
    have hpending : ((track pre).thread tid).pendingWakeup = windowWaker tid pre := by
      rw [pendingWakeup_eq]
      cases hwindow : windowWaker tid pre with
      | some w => rfl
      | none =>
          rw [Option.none_or]
          exact (pendingWakeup_eq_none_iff tid _).mpr (h pre op post hops hends hwindow)
    rw [hiv'] at hkind
    unfold ThreadState.offInterval at hkind
    injection hkind with _ _ hwaker hstack
    rw [← hwaker, ← hstack, hpending]
    exact ⟨rfl, rfl⟩

/-! ## A wakeup that comes too early -/

/-- Thread 9 on cpu 1 wakes thread 7 while it runs on cpu 0; later 7 leaves and comes back on its
own. -/
def earlyWakeRun : List TrackerOp :=
  [.noteSample 7 [16] [], .noteSample 9 [17] [], .feed (switchRecord 0 0 7),
    .feed (switchRecord 1 1 9), .feed (makerunnableRecord 5 1 7), .feed (switchRecord 10 0 0),
    .feed (switchRecord 20 0 7)]

/-- The interval from 10 to 20 had no wakeup, and is reported as ended by thread 9. -/
theorem earlyWakeRun_misattributed :
    emitted earlyWakeRun =
        [⟨7, 0, 10, .onCpu⟩, ⟨7, 10, 20, .offCpu [16] [] (some 9) (some [17])⟩] ∧
      windowWaker 7 (earlyWakeRun.take 6) = none ∧ ¬ WakersOfWindow 7 earlyWakeRun := by
  refine ⟨by decide +kernel, by decide +kernel, ?_⟩
  intro h
  have hclosed : (track (earlyWakeRun.take 6)).closedFor 7 (.feed (switchRecord 20 0 7)) =
      [⟨7, 10, 20, .offCpu [16] [] (some 9) (some [17])⟩] := by decide +kernel
  have hnone : windowWaker 7 (earlyWakeRun.take 6) = none := by decide +kernel
  have hiv := h (earlyWakeRun.take 6) (.feed (switchRecord 20 0 7)) [] rfl _
    (by rw [hclosed]; exact List.mem_singleton_self _) _ _ _ _ rfl
  rw [hnone] at hiv
  cases hiv.1

end Stax.Kperf
