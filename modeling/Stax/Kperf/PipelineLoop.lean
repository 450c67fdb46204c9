/-
# Stax.Kperf.PipelineLoop — what the record loop does between two drains.

The loop's two outboxes are write-only: the pipeline without them (`core`) moves by itself, and each
record adds to the outboxes what it closes (`closedAt`) and what it wakes (`wokenAt`).  From a new
pipeline, the threads seen are those whose START has met its END (`mem_seenTids_iff`), every thread
with a cached stack is one of them, and the open on-CPU intervals are what the scheduler's records
alone make of them.
-/
import Stax.Kperf.ParserFraming
import Stax.Kperf.Pipeline
import Stax.Kperf.ThreadTimeline

namespace Stax.Kperf

open Stax.Lib

/-! ## The tracker without its outboxes -/

namespace CpuIntervalTracker

/-- Everything later calls depend on: the tracker with both outboxes empty. -/
def core (self : CpuIntervalTracker) : CpuIntervalTracker :=
  { self with pending := [], pendingWakeups := [] }

/-- What a record wakes. -/
def woken (self : CpuIntervalTracker) (rec : KdBuf) : List PendingWakeup :=
  if IsMakerunnable rec then (self.wakeup rec).toList else []

theorem pendingWakeups_feed (s : CpuIntervalTracker) (rec : KdBuf) :
    (s.feed rec).pendingWakeups = s.pendingWakeups ++ s.woken rec := by
  unfold woken
  by_cases hswitch : IsSwitch rec
  · obtain ⟨a, b, hfeed⟩ := feed_of_isSwitch (s := s) hswitch
    rw [hfeed, if_neg (not_isMakerunnable_of_isSwitch hswitch), List.append_nil, feedSwitch_eq]
    cases leaving _ rec <;> cases entering rec <;> rfl
  · by_cases hwake : IsMakerunnable rec
    · rw [feed_of_isMakerunnable hwake, if_pos hwake]
      have hcount : wakeup { s with makerunnableCount := s.makerunnableCount + 1 } rec =
        s.wakeup rec := rfl
      unfold feedMakerunnable
      cases hw : s.wakeup rec <;> simp [hcount, hw]
    · rw [feed_of_other hswitch hwake, if_neg hwake, List.append_nil]

theorem core_feedSwitch (s : CpuIntervalTracker) (rec : KdBuf) :
    (s.core.feedSwitch rec).core = (s.feedSwitch rec).core := by
  have hleave : s.core.leaving rec = s.leaving rec := rfl
  rw [feedSwitch_eq, feedSwitch_eq, hleave]
  cases s.leaving rec <;> cases entering rec <;> rfl

theorem core_feedMakerunnable (s : CpuIntervalTracker) (rec : KdBuf) :
    (s.core.feedMakerunnable rec).core = (s.feedMakerunnable rec).core := by
  have hwake (t : CpuIntervalTracker) :
      wakeup { t with makerunnableCount := t.makerunnableCount + 1 } rec = t.wakeup rec := rfl
  have hcore : s.core.wakeup rec = s.wakeup rec := rfl
  unfold feedMakerunnable
  dsimp only
  rw [hwake, hwake, hcore]
  cases s.wakeup rec <;> rfl

/-- No record reads an outbox. -/
theorem core_feed (s : CpuIntervalTracker) (rec : KdBuf) :
    (s.core.feed rec).core = (s.feed rec).core := by
  unfold feed
  split
  · rfl
  · dsimp only
    split
    · exact core_feedSwitch { s with schedCount := s.schedCount + 1 } rec
    · split
      · exact core_feedSwitch { s with stkhandoffCount := s.stkhandoffCount + 1 } rec
      · split
        · exact core_feedMakerunnable s rec
        · rfl

theorem core_noteSample (s : CpuIntervalTracker) (tid : UInt32) (user kernel : List UInt64) :
    (s.core.noteSample tid user kernel).core = (s.noteSample tid user kernel).core := by
  unfold noteSample
  split <;> rfl

end CpuIntervalTracker

/-! ## One record -/

/-- The records the loop hands to the tracker. -/
def IsSched (rec : KdBuf) : Prop :=
  kdbgClass rec.debugid = dbgMach ∧ kdbgSubclass rec.debugid = dbgMachSched

instance : DecidablePred IsSched := fun _ => inferInstanceAs (Decidable (_ ∧ _))

/-- Scheduler records are none of kperf's. -/
theorem eventOf_of_isSched {rec : KdBuf} (h : IsSched rec) : eventOf rec = .other := by
  have hclass : kdbgClass rec.debugid ≠ dbgPerf := by
    rw [h.1]
    decide
  exact if_pos hclass

namespace Pipeline

variable (stripCodePtr : UInt64 → UInt64)

/-- Everything later records depend on: the pipeline with empty outboxes and nothing counted as
drained. -/
def core (self : Pipeline) : Pipeline :=
  { self with offcpu := self.offcpu.core, totalDrained := 0 }

/-- What a core keeps of the configuration and the threads seen. -/
theorem config_seenTids_of_core {p q : Pipeline} (h : p.core = q.core) :
    p.config = q.config ∧ p.seenTids = q.seenTids := by
  constructor
  · show p.core.config = q.core.config
    rw [h]
  · show p.core.seenTids = q.core.seenTids
    rw [h]

/-- What a record closes. -/
def closedAt (self : Pipeline) (rec : KdBuf) : List PendingInterval :=
  if IsSched rec then self.offcpu.closed (.feed rec) else []

/-- What a record wakes. -/
def wokenAt (self : Pipeline) (rec : KdBuf) : List PendingWakeup :=
  if IsSched rec then self.offcpu.woken rec else []

theorem processRecord_of_isSched (p : Pipeline) {rec : KdBuf} (h : IsSched rec) :
    p.processRecord stripCodePtr rec = ({ p with offcpu := p.offcpu.feed rec }, []) := by
  have hclass : kdbgClass rec.debugid ≠ dbgPerf := by
    rw [h.1]
    decide
  exact (if_neg hclass).trans (if_pos h)

/-- Any other record goes to the parser; the histogram counts kperf's. -/
theorem processRecord_of_not_isSched (p : Pipeline) {rec : KdBuf} (h : ¬ IsSched rec) :
    ∃ histogram, p.processRecord stripCodePtr rec =
      parseRecord stripCodePtr { p with histogram := histogram } rec := by
  by_cases hclass : kdbgClass rec.debugid = dbgPerf
  · exact ⟨_, if_pos hclass⟩
  · exact ⟨p.histogram, (if_neg hclass).trans (if_neg h)⟩

/-- What a completed sample changes. -/
theorem onSample_frame (p : Pipeline) (sample : Sample) :
    (p.onSample sample).1.config = p.config ∧ (p.onSample sample).1.parser = p.parser ∧
      (p.onSample sample).1.seenTids = insert sample.tid p.seenTids ∧
      (p.onSample sample).1.offcpu =
        p.offcpu.noteSample sample.tid sample.userBacktrace sample.kernelBacktrace := by
  unfold onSample
  dsimp only
  by_cases hpmc : sample.pmc = []
  · rw [if_pos hpmc]
    split <;> exact ⟨rfl, rfl, rfl, rfl⟩
  · rw [if_neg hpmc]
    split <;> exact ⟨rfl, rfl, rfl, rfl⟩

theorem core_onSample (p : Pipeline) (sample : Sample) :
    (p.core.onSample sample).1.core = (p.onSample sample).1.core ∧
      (p.core.onSample sample).2 = (p.onSample sample).2 := by
  unfold onSample
  dsimp only
  by_cases hpmc : sample.pmc = []
  · rw [if_pos hpmc, if_pos hpmc]
    split <;> refine ⟨?_, rfl⟩ <;> simp only [core, CpuIntervalTracker.core_noteSample]
  · rw [if_neg hpmc, if_neg hpmc]
    split <;> refine ⟨?_, rfl⟩ <;> simp only [core, CpuIntervalTracker.core_noteSample]

theorem parseRecord_of_none {p : Pipeline} {rec : KdBuf}
    (h : (p.parser.feed stripCodePtr rec).2 = none) :
    p.parseRecord stripCodePtr rec =
      ({ p with parser := (p.parser.feed stripCodePtr rec).1 }, []) := by
  have hfeed : p.parser.feed stripCodePtr rec = ((p.parser.feed stripCodePtr rec).1, none) :=
    Prod.ext rfl h
  unfold parseRecord
  rw [hfeed]

theorem parseRecord_of_some {p : Pipeline} {rec : KdBuf} {sample : Sample}
    (h : (p.parser.feed stripCodePtr rec).2 = some sample) :
    p.parseRecord stripCodePtr rec =
      onSample { p with parser := (p.parser.feed stripCodePtr rec).1 } sample := by
  have hfeed : p.parser.feed stripCodePtr rec =
      ((p.parser.feed stripCodePtr rec).1, some sample) := Prod.ext rfl h
  unfold parseRecord
  rw [hfeed]

theorem core_parseRecord (p : Pipeline) (rec : KdBuf) :
    (p.core.parseRecord stripCodePtr rec).1.core = (p.parseRecord stripCodePtr rec).1.core ∧
      (p.core.parseRecord stripCodePtr rec).2 = (p.parseRecord stripCodePtr rec).2 := by
  cases h : (p.parser.feed stripCodePtr rec).2 with
  | none =>
      have hcore : (p.core.parser.feed stripCodePtr rec).2 = none := h
      rw [parseRecord_of_none stripCodePtr h, parseRecord_of_none stripCodePtr hcore]
      exact ⟨rfl, rfl⟩
  | some sample =>
      have hcore : (p.core.parser.feed stripCodePtr rec).2 = some sample := h
      rw [parseRecord_of_some stripCodePtr h, parseRecord_of_some stripCodePtr hcore]
      exact core_onSample { p with parser := (p.parser.feed stripCodePtr rec).1 } sample

/-- No record reads an outbox. -/
theorem core_processRecord (p : Pipeline) (rec : KdBuf) :
    (p.core.processRecord stripCodePtr rec).1.core = (p.processRecord stripCodePtr rec).1.core ∧
      (p.core.processRecord stripCodePtr rec).2 = (p.processRecord stripCodePtr rec).2 := by
  unfold processRecord
  dsimp only
  split
  · exact core_parseRecord stripCodePtr
      { p with histogram := Function.update p.histogram _ _ } rec
  · split
    · simp only [core, CpuIntervalTracker.core_feed, and_self]
    · exact core_parseRecord stripCodePtr p rec

/-- A record is fed to the tracker, or the sample it completes is noted. -/
theorem offcpu_processRecord (p : Pipeline) (rec : KdBuf) :
    (p.processRecord stripCodePtr rec).1.offcpu =
      if IsSched rec then p.offcpu.feed rec
      else
        match (p.parser.feed stripCodePtr rec).2 with
        | some sample =>
            p.offcpu.noteSample sample.tid sample.userBacktrace sample.kernelBacktrace
        | none => p.offcpu := by
  by_cases hsched : IsSched rec
  · rw [processRecord_of_isSched stripCodePtr p hsched, if_pos hsched]
  · obtain ⟨histogram, hparse⟩ := processRecord_of_not_isSched stripCodePtr p hsched
    rw [hparse, if_neg hsched]
    cases hsample : (p.parser.feed stripCodePtr rec).2 with
    | none =>
        rw [parseRecord_of_none (p := { p with histogram := histogram }) stripCodePtr hsample]
    | some sample =>
        rw [parseRecord_of_some (p := { p with histogram := histogram }) stripCodePtr hsample]
        exact (onSample_frame _ sample).2.2.2

/-- The outboxes take in what the record closes and wakes. -/
theorem outboxes_processRecord (p : Pipeline) (rec : KdBuf) :
    (p.processRecord stripCodePtr rec).1.offcpu.pending = p.offcpu.pending ++ p.closedAt rec ∧
      (p.processRecord stripCodePtr rec).1.offcpu.pendingWakeups =
        p.offcpu.pendingWakeups ++ p.wokenAt rec := by
  rw [offcpu_processRecord, closedAt, wokenAt]
  by_cases hsched : IsSched rec
  · rw [if_pos hsched, if_pos hsched, if_pos hsched]
    exact ⟨p.offcpu.pending_call (.feed rec), p.offcpu.pendingWakeups_feed rec⟩
  · rw [if_neg hsched, if_neg hsched, if_neg hsched, List.append_nil, List.append_nil]
    split
    · unfold CpuIntervalTracker.noteSample
      split <;> exact ⟨rfl, rfl⟩
    · exact ⟨rfl, rfl⟩

/-- What a record does to the pipeline's part of a sample. -/
theorem processRecord_frame (p : Pipeline) (rec : KdBuf) :
    (p.processRecord stripCodePtr rec).1.config = p.config ∧
      (p.processRecord stripCodePtr rec).1.parser = (p.parser.feed stripCodePtr rec).1 ∧
      (p.processRecord stripCodePtr rec).1.seenTids =
        match (p.parser.feed stripCodePtr rec).2 with
        | some sample => insert sample.tid p.seenTids
        | none => p.seenTids := by
  by_cases hsched : IsSched rec
  · -- the parser would have ignored the record it is not shown
    have hfeed : p.parser.feed stripCodePtr rec = (p.parser, none) := by
      unfold Parser.feed
      rw [eventOf_of_isSched hsched]
    rw [processRecord_of_isSched stripCodePtr p hsched, hfeed]
    exact ⟨rfl, rfl, rfl⟩
  · obtain ⟨histogram, hparse⟩ := processRecord_of_not_isSched stripCodePtr p hsched
    rw [hparse]
    cases hsample : (p.parser.feed stripCodePtr rec).2 with
    | none =>
        rw [parseRecord_of_none (p := { p with histogram := histogram }) stripCodePtr hsample]
        exact ⟨rfl, rfl, rfl⟩
    | some sample =>
        rw [parseRecord_of_some (p := { p with histogram := histogram }) stripCodePtr hsample]
        obtain ⟨hconfig, hparser, hseen, -⟩ :=
          onSample_frame { p with parser := (p.parser.feed stripCodePtr rec).1,
                                  histogram := histogram } sample
        exact ⟨hconfig, hparser, hseen⟩

end Pipeline

/-! ## Sampled threads -/

/-- A START of the thread has met its END. -/
def Sampled (tid : UInt32) (recs : List KdBuf) : Prop :=
  ∃ pre stop post start body, recs = pre ++ stop :: post ∧ IsSampleEnd stop ∧
    OpenSample pre start body ∧ start.arg5.toUInt32 = tid

theorem not_sampled_nil (tid : UInt32) : ¬ Sampled tid [] := by
  rintro ⟨pre, stop, post, start, body, h, -⟩
  simp at h

theorem sampled_concat {tid : UInt32} {recs : List KdBuf} {rec : KdBuf} :
    Sampled tid (recs ++ [rec]) ↔ Sampled tid recs ∨
      IsSampleEnd rec ∧ ∃ start body, OpenSample recs start body ∧
        start.arg5.toUInt32 = tid := by
  constructor
  · rintro ⟨pre, stop, post, start, body, hsplit, hend, hopen, htid⟩
    rcases concat_eq_append_cons.mp hsplit with ⟨rfl, rfl, rfl⟩ | ⟨post', rfl, rfl⟩
    · exact Or.inr ⟨hend, start, body, hopen, htid⟩
    · exact Or.inl ⟨pre, stop, post', start, body, rfl, hend, hopen, htid⟩
  · rintro (⟨pre, stop, post, start, body, rfl, hrest⟩ | ⟨hend, start, body, hopen, htid⟩)
    · exact ⟨pre, stop, post ++ [rec], start, body, by simp, hrest⟩
    · exact ⟨recs, rec, [], start, body, rfl, hend, hopen, htid⟩

theorem Sampled.append {tid : UInt32} {recs : List KdBuf} (h : Sampled tid recs)
    (more : List KdBuf) : Sampled tid (recs ++ more) := by
  obtain ⟨pre, stop, post, start, body, rfl, hrest⟩ := h
  exact ⟨pre, stop, post ++ more, start, body, by simp, hrest⟩

/-! ## Runs of the loop -/

section Loop

variable (stripCodePtr : UInt64 → UInt64) (config : PipelineConfig)
  (slideEst : Option SlideEstimator)

/-- The record that completes a sample of a thread is an END with a bracket of it open. -/
theorem feed_sample_iff {recs : List KdBuf} {rec : KdBuf} {tid : UInt32} :
    (∃ s, ((parse stripCodePtr recs).feed stripCodePtr rec).2 = some s ∧ s.tid = tid) ↔
      IsSampleEnd rec ∧ ∃ start body, OpenSample recs start body ∧
        start.arg5.toUInt32 = tid := by
  constructor
  · rintro ⟨s, hs, rfl⟩
    obtain ⟨hend, start, body, hopen⟩ :=
      (feed_isSome_iff stripCodePtr recs rec).mp (Option.isSome_iff_exists.mpr ⟨s, hs⟩)
    exact ⟨hend, start, body, hopen, (hopen.sample_eq stripCodePtr hs).1.symm⟩
  · rintro ⟨hend, start, body, hopen, rfl⟩
    obtain ⟨s, hs⟩ := Option.isSome_iff_exists.mp
      ((feed_isSome_iff stripCodePtr recs rec).mpr ⟨hend, start, body, hopen⟩)
    exact ⟨s, hs, (hopen.sample_eq stripCodePtr hs).1⟩

/-- The pipeline after its loop has read some records, with nothing drained yet. -/
def undrained (recs : List KdBuf) : Pipeline :=
  (recordLoop stripCodePtr).run (.new config slideEst) recs

theorem undrained_concat (recs : List KdBuf) (rec : KdBuf) :
    undrained stripCodePtr config slideEst (recs ++ [rec]) =
      ((undrained stripCodePtr config slideEst recs).processRecord stripCodePtr rec).1 :=
  (recordLoop stripCodePtr).run_concat _ recs rec

/-- The parser sees every record that matters to it. -/
theorem undrained_frame (recs : List KdBuf) :
    (undrained stripCodePtr config slideEst recs).config = config ∧
      (undrained stripCodePtr config slideEst recs).parser = parse stripCodePtr recs := by
  induction recs using List.reverseRecOn with
  | nil => exact ⟨rfl, rfl⟩
  | append_singleton recs rec ih =>
      obtain ⟨hconfig, hparser, -⟩ :=
        (undrained stripCodePtr config slideEst recs).processRecord_frame stripCodePtr rec
      rw [undrained_concat, hconfig, hparser, parse_concat, ih.2]
      exact ⟨ih.1, rfl⟩

/-- The threads seen are the threads sampled. -/
theorem mem_seenTids_iff {recs : List KdBuf} {tid : UInt32} :
    tid ∈ (undrained stripCodePtr config slideEst recs).seenTids ↔ Sampled tid recs := by
  induction recs using List.reverseRecOn with
  | nil => exact iff_of_false (Finset.notMem_empty tid) (not_sampled_nil tid)
  | append_singleton recs rec ih =>
      have hseen :=
        ((undrained stripCodePtr config slideEst recs).processRecord_frame stripCodePtr rec).2.2
      rw [(undrained_frame stripCodePtr config slideEst recs).2] at hseen
      rw [undrained_concat, hseen, sampled_concat, ← ih, ← feed_sample_iff stripCodePtr]
      cases ((parse stripCodePtr recs).feed stripCodePtr rec).2 with
      | none => simp
      | some sample => simp [or_comm, eq_comm]

/-- A thread with a cached stack has been sampled. -/
theorem sampled_of_stack {recs : List KdBuf} {tid : UInt64}
    (h : ((undrained stripCodePtr config slideEst recs).offcpu.thread tid).lastUserStack ≠ []) :
    Sampled tid.toUInt32 recs := by
  induction recs using List.reverseRecOn with
  | nil => exact absurd rfl h
  | append_singleton recs rec ih =>
      rw [undrained_concat, Pipeline.offcpu_processRecord,
        (undrained_frame stripCodePtr config slideEst recs).2] at h
      by_cases hsched : IsSched rec
      · rw [if_pos hsched, CpuIntervalTracker.lastUserStack_feed] at h
        exact (ih h).append [rec]
      · rw [if_neg hsched] at h
        cases hsample : ((parse stripCodePtr recs).feed stripCodePtr rec).2 with
        | none =>
            rw [hsample] at h
            exact (ih h).append [rec]
        | some sample =>
            -- the stack was cached before, or it is this sample's
            rw [hsample] at h
            rcases CpuIntervalTracker.lastUserStack_noteSample h with hbefore | rfl
            · exact (ih hbefore).append [rec]
            · refine sampled_concat.mpr (Or.inr ((feed_sample_iff stripCodePtr).mp ?_))
              exact ⟨sample, hsample, (UInt32.toUInt32_toUInt64 sample.tid).symm⟩

theorem undrained_append (recs more : List KdBuf) :
    undrained stripCodePtr config slideEst (recs ++ more) =
      (recordLoop stripCodePtr).run (undrained stripCodePtr config slideEst recs) more :=
  (recordLoop stripCodePtr).run_append _ recs more

/-- After a run the outboxes hold, after what they held before, all that its records closed and
woke. -/
theorem outboxes_run (p : Pipeline) (recs : List KdBuf) :
    ((recordLoop stripCodePtr).run p recs).offcpu.pending = p.offcpu.pending ++
        ((recordLoop stripCodePtr).reporting Pipeline.closedAt).outputs p recs ∧
      ((recordLoop stripCodePtr).run p recs).offcpu.pendingWakeups = p.offcpu.pendingWakeups ++
        ((recordLoop stripCodePtr).reporting Pipeline.wokenAt).outputs p recs := by
  constructor
  · exact (recordLoop stripCodePtr).box_run (fun p => p.offcpu.pending) Pipeline.closedAt
      (fun p rec => (p.outboxes_processRecord stripCodePtr rec).1) p recs
  · exact (recordLoop stripCodePtr).box_run (fun p => p.offcpu.pendingWakeups) Pipeline.wokenAt
      (fun p rec => (p.outboxes_processRecord stripCodePtr rec).2) p recs

end Loop

/-! ## Open intervals, from the scheduler's records alone -/

/-- The tracker fed the scheduler records only. -/
def scheduled (recs : List KdBuf) : CpuIntervalTracker :=
  track ((recs.filter fun rec => IsSched rec).map .feed)

theorem scheduled_concat (recs : List KdBuf) (rec : KdBuf) :
    scheduled (recs ++ [rec]) =
      if IsSched rec then (scheduled recs).feed rec else scheduled recs := by
  by_cases hsched : IsSched rec
  · rw [if_pos hsched, scheduled, List.filter_append, List.map_append,
      List.filter_cons_of_pos (by simpa using hsched)]
    exact track_concat _ (.feed rec)
  · rw [if_neg hsched, scheduled, List.filter_append,
      List.filter_cons_of_neg (by simpa using hsched), List.filter_nil, List.append_nil, scheduled]

/-- Where the on-CPU intervals start that are open after a record is told by the per-cpu map and
the open on-CPU intervals before it. -/
theorem CpuIntervalTracker.onCpu_lastOnNs_congr {s t : CpuIntervalTracker}
    (hcpu : s.onCpu = t.onCpu)
    (hon : ∀ tid, (s.thread tid).lastOnNs = (t.thread tid).lastOnNs) (rec : KdBuf) :
    (s.feed rec).onCpu = (t.feed rec).onCpu ∧
      ∀ tid, ((s.feed rec).thread tid).lastOnNs = ((t.feed rec).thread tid).lastOnNs := by
  constructor
  · have hs := s.onCpu_call (.feed rec)
    have ht := t.onCpu_call (.feed rec)
    rw [hcpu, ← ht] at hs
    exact hs
  · intro tid
    by_cases hswitch : IsSwitch rec
    · have hleave : s.leaving rec = t.leaving rec := by rw [leaving, leaving, hcpu]
      rw [lastOnNs_feed_of_isSwitch s tid hswitch, lastOnNs_feed_of_isSwitch t tid hswitch, hleave,
        hon]
    · have hop : (TrackerOp.feed rec).switch? = none := if_neg hswitch
      have hs := (thread_call_of_not_switch (s := s) hop tid).1
      have ht := (thread_call_of_not_switch (s := t) hop tid).1
      exact hs.trans ((hon tid).trans ht.symm)

section Loop

variable (stripCodePtr : UInt64 → UInt64) (config : PipelineConfig)
  (slideEst : Option SlideEstimator)

/-- Samples move neither the per-cpu map nor an open on-CPU interval. -/
theorem undrained_scheduled (recs : List KdBuf) :
    (undrained stripCodePtr config slideEst recs).offcpu.onCpu = (scheduled recs).onCpu ∧
      ∀ tid, ((undrained stripCodePtr config slideEst recs).offcpu.thread tid).lastOnNs =
        ((scheduled recs).thread tid).lastOnNs := by
  induction recs using List.reverseRecOn with
  | nil => exact ⟨rfl, fun _ => rfl⟩
  | append_singleton recs rec ih =>
      obtain ⟨hcpu, hon⟩ := ih
      rw [undrained_concat, Pipeline.offcpu_processRecord, scheduled_concat]
      by_cases hsched : IsSched rec
      · rw [if_pos hsched, if_pos hsched]
        exact CpuIntervalTracker.onCpu_lastOnNs_congr hcpu hon rec
      · rw [if_neg hsched, if_neg hsched]
        split
        · rename_i sample _
          have hop : (TrackerOp.noteSample sample.tid sample.userBacktrace
            sample.kernelBacktrace).switch? = none := rfl
          rw [← hcpu]
          constructor
          · exact CpuIntervalTracker.onCpu_call _ (.noteSample sample.tid sample.userBacktrace
              sample.kernelBacktrace)
          · intro tid
            rw [← hon tid]
            exact (CpuIntervalTracker.thread_call_of_not_switch hop tid).1
        · exact ⟨hcpu, hon⟩

end Loop

end Stax.Kperf
