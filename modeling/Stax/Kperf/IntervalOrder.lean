/-
# Stax.Kperf.IntervalOrder — one state at a time.

With switch times that do not go back, the intervals emitted for one thread follow one another: a
thread is never reported in two states at one instant, whatever records were lost and on however
many cpus it appears.  The invariant is about one thread: no interval is open from before the end
of what was emitted last.
-/
import Stax.Kperf.ThreadTimeline
import Stax.Lib.Interleave
import Stax.Lib.Spans

namespace Stax.Kperf

open Stax.Lib

/-! ## One thread -/

/-- An interval as a stretch of time. -/
def PendingInterval.span (iv : PendingInterval) : Span ℕ where
  start := iv.startNs
  stop := iv.endNs

/-- No interval is open from before `lo`. -/
structure OpenFrom (lo : ℕ) (st : ThreadState) : Prop where
  on_ge : ∀ on, st.lastOnNs = some on → lo ≤ on
  off_ge : ∀ off, st.lastOffNs = some off → lo ≤ off

theorem openFrom_switchOut (tid : UInt64) (st : ThreadState) {lo ts : ℕ} (h : lo ≤ ts) :
    OpenFrom lo (st.switchOut tid ts).1 := by
  refine ⟨?_, ?_⟩
  · intro on hon
    rw [ThreadState.lastOnNs_switchOut] at hon
    cases hon
  · intro off hoff
    rw [ThreadState.lastOffNs_switchOut] at hoff
    rwa [← Option.some.inj hoff]

theorem openFrom_switchIn (tid : UInt64) (st : ThreadState) {lo ts : ℕ} (h : lo ≤ ts) :
    OpenFrom lo (st.switchIn tid ts).1 := by
  refine ⟨?_, ?_⟩
  · intro on hon
    rw [ThreadState.lastOnNs_switchIn] at hon
    rwa [← Option.some.inj hon]
  · intro off hoff
    rw [ThreadState.lastOffNs_switchIn] at hoff
    cases hoff

/-- One event closes nothing, or one interval from `lo` or later up to the event. -/
theorem openFrom_step (tid : UInt64) {lo : ℕ} {st : ThreadState} (h : OpenFrom lo st)
    {e : ThreadEvent} (he : ∀ ts, e.switchTime? = some ts → lo ≤ ts) :
    ((st.step tid e).2 = [] ∧ OpenFrom lo (st.step tid e).1) ∨
      ∃ iv, (st.step tid e).2 = [iv] ∧ lo ≤ iv.startNs ∧ iv.startNs < iv.endNs ∧
        e.switchTime? = some iv.endNs ∧ OpenFrom iv.endNs (st.step tid e).1 := by
  cases e with
  | switchOut ts =>
      rcases ThreadState.switchOut_closes st tid ts with hnone | ⟨on, hon, hlt, hone⟩
      · exact Or.inl ⟨hnone, openFrom_switchOut tid st (he ts rfl)⟩
      · exact Or.inr ⟨_, hone, h.on_ge on hon, hlt, rfl, openFrom_switchOut tid st le_rfl⟩
  | switchIn ts =>
      rcases ThreadState.switchIn_closes st tid ts with hnone | ⟨off, hoff, hlt, hone⟩
      · exact Or.inl ⟨hnone, openFrom_switchIn tid st (he ts rfl)⟩
      · exact Or.inr ⟨_, hone, h.off_ge off hoff, hlt, rfl, openFrom_switchIn tid st le_rfl⟩
  | sampled user kernel => exact Or.inl ⟨rfl, h.on_ge, h.off_ge⟩
  | woken waker => exact Or.inl ⟨rfl, h.on_ge, h.off_ge⟩

/-- Over events in time order, what is closed is laid out one after the other. -/
theorem laid_outputs {tid : UInt64} {lo : ℕ} {st : ThreadState} (h : OpenFrom lo st)
    {es : List ThreadEvent} (hlo : ∀ ts ∈ es.filterMap ThreadEvent.switchTime?, lo ≤ ts)
    (hsorted : (es.filterMap ThreadEvent.switchTime?).Pairwise (· ≤ ·)) :
    Span.Laid lo (((threadMachine tid).outputs st es).map PendingInterval.span) := by
  induction es generalizing lo st with
  | nil => trivial
  | cons e es ih =>
      have hlater : ∀ ts ∈ es.filterMap ThreadEvent.switchTime?,
          ts ∈ (e :: es).filterMap ThreadEvent.switchTime? := by
        intro ts hts
        exact ((List.sublist_cons_self e es).filterMap _).subset hts
      have hrest : (es.filterMap ThreadEvent.switchTime?).Pairwise (· ≤ ·) :=
        hsorted.sublist ((List.sublist_cons_self e es).filterMap _)
      have he : ∀ ts, e.switchTime? = some ts → lo ≤ ts := by
        intro ts hts
        apply hlo
        rw [List.filterMap_cons_some hts]
        exact List.mem_cons_self
      rw [Transducer.outputs_cons, List.map_append]
      show Span.Laid lo ((st.step tid e).2.map PendingInterval.span ++ _)
      -- either the bound stays, or it moves to the end of the one interval closed
      rcases openFrom_step tid h he with
        ⟨hnone, hopen⟩ | ⟨iv, hone, hstart, hlt, htime, hopen⟩
      · rw [hnone]
        exact ih hopen (fun ts hts => hlo ts (hlater ts hts)) hrest
      · rw [hone]
        rw [List.filterMap_cons_some htime] at hsorted
        exact ⟨hstart, hlt, ih hopen (List.pairwise_cons.mp hsorted).1 hrest⟩

/-! ## From records to threads -/

/-- A thread's switch times are among the switch records' times, in order. -/
theorem switchTimes_sublist (tid : UInt64) (ops : List TrackerOp) :
    ((timeline tid ops).filterMap ThreadEvent.switchTime?).Sublist (switchTimes ops) := by
  induction ops using List.reverseRecOn with
  | nil => exact List.Sublist.refl _
  | append_singleton ops op ih =>
      rw [timeline_concat, switchTimes_concat, List.filterMap_append]
      apply ih.append
      cases hop : op.switch? with
      | none =>
          cases he : (track ops).event tid op with
          | none => exact List.nil_sublist _
          | some e =>
              rw [Option.toList_some,
                List.filterMap_cons_none (CpuIntervalTracker.switchTime?_event hop he)]
              exact List.nil_sublist _
      | some rec =>
          -- whichever way the switch concerns the thread, it carries the record's time
          obtain ⟨rfl, hswitch⟩ := TrackerOp.switch?_eq_some.mp hop
          rw [CpuIntervalTracker.event, if_pos hswitch]
          split
          · exact List.Sublist.refl _
          · split
            · exact List.Sublist.refl _
            · exact List.nil_sublist _

/-- One thread's intervals are laid out one after the other. -/
theorem laid_emittedFor (tid : UInt64) {ops : List TrackerOp}
    (hsorted : (switchTimes ops).Pairwise (· ≤ ·)) :
    Span.Laid 0 ((emittedFor tid ops).map PendingInterval.span) := by
  rw [emittedFor_eq]
  apply laid_outputs
  · exact ⟨fun on _ => Nat.zero_le on, fun off _ => Nat.zero_le off⟩
  · exact fun ts _ => Nat.zero_le ts
  · exact hsorted.sublist (switchTimes_sublist tid ops)

/-! ## From full thread ids to the intervals' own -/

/-- Every thread id the switch records name fits in 32 bits. -/
def SmallTids (ops : List TrackerOp) : Prop := ∀ rec ∈ switchRecords ops, rec.arg2.toNat < 2 ^ 32

theorem closedFor_tid {s : CpuIntervalTracker} {tid : UInt64} {op : TrackerOp}
    {iv : PendingInterval} (h : iv ∈ s.closedFor tid op) : iv.tid = tid.toUInt32 := by
  unfold CpuIntervalTracker.closedFor at h
  split at h
  · simp at h
  · exact ThreadState.tid_of_mem_step h

/-- A call closes intervals only for the threads it switches. -/
theorem closedFor_eq_nil {s : CpuIntervalTracker} {tid : UInt64} {op : TrackerOp}
    (h : tid ∉ s.switched op) : s.closedFor tid op = [] := by
  cases hop : op.switch? with
  | none => exact (CpuIntervalTracker.closedFor_of_not_switch hop tid).2
  | some rec =>
      obtain ⟨rfl, hswitch⟩ := TrackerOp.switch?_eq_some.mp hop
      simp only [CpuIntervalTracker.switched, if_pos hswitch, List.mem_append,
        Option.mem_toList, not_or] at h
      rw [CpuIntervalTracker.closedFor, CpuIntervalTracker.event, if_pos hswitch,
        if_neg h.2, if_neg h.1]

/-- The threads that an operation switches are different ones, so none is switched twice. -/
theorem nodup_switched (s : CpuIntervalTracker) (op : TrackerOp) : (s.switched op).Nodup := by
  unfold CpuIntervalTracker.switched
  cases op with
  | feed rec =>
      dsimp only
      split
      · cases hleave : s.leaving rec with
        | none => cases CpuIntervalTracker.entering rec <;> simp
        | some prev =>
            cases henter : CpuIntervalTracker.entering rec with
            | none => simp
            | some new =>
                have hprev := (CpuIntervalTracker.leaving_eq_some.mp hleave).2.2
                have hnew := (CpuIntervalTracker.entering_eq_some.mp henter).1
                simpa [← hnew] using hprev
      · exact List.nodup_nil
  | _ => exact List.nodup_nil

/-- Among one call's intervals, those with a given id are those of that thread. -/
theorem closed_filter_tid {s : CpuIntervalTracker} {op : TrackerOp} {tid : UInt32}
    (hsmall : ∀ t ∈ s.switched op, t.toNat < 2 ^ 32) :
    (s.closed op).filter (fun iv => iv.tid == tid) = s.closedFor tid.toUInt64 op := by
  apply filter_flatMap_eq (nodup_switched s op) closedFor_eq_nil
  · intro iv hiv
    rw [closedFor_tid hiv, UInt32.toUInt32_toUInt64]
    exact beq_self_eq_true tid
  · -- small ids are told apart by their low half
    intro t ht hne iv hiv
    rw [closedFor_tid hiv]
    apply beq_false_of_ne
    intro heq
    apply hne
    apply toUInt32_inj_of_lt (hsmall t ht)
    · rw [UInt32.toNat_toUInt64]
      exact tid.toNat_lt
    · rw [heq, UInt32.toUInt32_toUInt64]

/-- With small thread ids, the emitted intervals that carry an id are that thread's. -/
theorem emitted_filter_tid {ops : List TrackerOp} (h : SmallTids ops) (tid : UInt32) :
    (emitted ops).filter (fun iv => iv.tid == tid) = emittedFor tid.toUInt64 ops := by
  induction ops using List.reverseRecOn with
  | nil => rfl
  | append_singleton ops op ih =>
      have hmem : ∀ rec, rec ∈ switchRecords ops ∨ op.switch? = some rec →
          rec.arg2.toNat < 2 ^ 32 := by
        intro rec hrec
        apply h rec
        rw [switchRecords_concat]
        rcases hrec with hrec | hrec
        · exact List.mem_append_left _ hrec
        · exact List.mem_append_right _ (Option.mem_toList.mpr hrec)
      rw [emitted_concat, emittedFor_concat, List.filter_append,
        ih fun rec hrec => hmem rec (Or.inl hrec)]
      congr 1
      apply closed_filter_tid
      intro t ht
      -- the thread leaving was named by an earlier switch, the one entering by this one
      cases op with
      | feed rec =>
          unfold CpuIntervalTracker.switched at ht
          by_cases hswitch : IsSwitch rec
          · simp only [if_pos hswitch, List.mem_append, Option.mem_toList] at ht
            rcases ht with ht | ht
            · have hcur := (CpuIntervalTracker.leaving_eq_some.mp ht).1
              rw [onCpu_track] at hcur
              obtain ⟨prev, hprev, -, rfl⟩ := exists_of_currentOn hcur
              exact hmem prev (Or.inl hprev)
            · rw [← (CpuIntervalTracker.entering_eq_some.mp ht).1]
              exact hmem rec (Or.inr (if_pos hswitch))
          · simp [hswitch] at ht
      | _ => exact absurd ht List.not_mem_nil

/-- For each thread, the emitted intervals, on-CPU and off-CPU together, are non-empty and each one
starts at or after the end of the one before: no instant is in two of them. -/
theorem emitted_intervals_ordered {ops : List TrackerOp}
    (hsorted : (switchTimes ops).Pairwise (· ≤ ·))
    (htids : SmallTids ops) (tid : UInt32) :
    let ivs := (emitted ops).filter fun iv => iv.tid == tid
    (∀ iv ∈ ivs, iv.startNs < iv.endNs) ∧
      ivs.Pairwise (fun a b => a.endNs ≤ b.startNs) ∧
      ∀ t, ivs.countP (fun iv => iv.startNs ≤ t ∧ t < iv.endNs) ≤ 1 := by
  rw [emitted_filter_tid htids]
  have hlaid := laid_emittedFor tid.toUInt64 hsorted
  refine ⟨?_, ?_, ?_⟩
  · intro iv hiv
    exact (hlaid.bounds (List.mem_map_of_mem hiv)).2
  · exact List.pairwise_map.mp hlaid.pairwise
  · intro t
    have hcount := hlaid.countP_le_one t
    rw [List.countP_map] at hcount
    exact hcount

/-- Thread 7 shows up on two cpus at once: 0 from 100 to 120, 1 from 110 to 160. -/
def twoCpuRun : List TrackerOp :=
  [.feed (switchRecord 100 0 7), .noteSample 7 [16] [], .feed (switchRecord 110 1 7),
    .feed (switchRecord 120 0 0), .drainPending, .feed (switchRecord 150 0 7),
    .feed (switchRecord 160 1 0)]

theorem emitted_intervals_ordered_twoCpuRun :
    (((emitted twoCpuRun).filter fun iv => iv.tid == 7).Pairwise
      fun a b => a.endNs ≤ b.startNs) ∧
      (emitted twoCpuRun).map PendingInterval.span = [⟨110, 120⟩, ⟨120, 150⟩, ⟨150, 160⟩] := by
  refine ⟨(emitted_intervals_ordered ?_ ?_ 7).2.1, ?_⟩
  · decide +kernel
  · unfold SmallTids
    decide +kernel
  · decide +kernel

end Stax.Kperf
