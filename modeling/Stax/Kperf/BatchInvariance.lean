/-
# Stax.Kperf.BatchInvariance — what the cuts between batches change.

The end of a batch empties the tracker's two outboxes and changes nothing else the pipeline works
with (`core_run_pipeline`), so the samples and the wakeups delivered do not depend on the cuts.
Intervals do: at the end of its batch an interval is delivered only if its thread has been sampled
by then.  An off-CPU interval carries a sampled stack, so its thread always has.  An on-CPU interval
may end before its thread's first sample; a cut right after its end drops it, and one batch over all
the records delivers it.
-/
import Stax.Kperf.PipelineLoop

namespace Stax.Kperf

open Stax.Lib

/-! ## The condition -/

/-- The record ends a nonempty on-CPU interval of thread `tid`: a switch takes the thread off its
cpu after the time it came on. -/
def EndsOnCpu (pre : List KdBuf) (rec : KdBuf) (tid : UInt64) : Prop :=
  IsSched rec ∧ IsSwitch rec ∧ (scheduled pre).leaving rec = some tid ∧
    ∃ on, ((scheduled pre).thread tid).lastOnNs = some on ∧ on < rec.maskedTimestamp

/-- No on-CPU interval of a thread ends before the thread's first sample, unless the records never
sample the thread. -/
def SampledBeforeLeaving (recs : List KdBuf) : Prop :=
  Stepwise (fun pre rec => ∀ tid, EndsOnCpu pre rec tid → Sampled tid.toUInt32 recs →
    Sampled tid.toUInt32 pre) recs

section Loop

variable (stripCodePtr : UInt64 → UInt64) (config : PipelineConfig)
  (slideEst : Option SlideEstimator)

/-- The interval of an on-CPU stretch that a record ends is closed by it. -/
theorem mem_closedAt_of_endsOnCpu {pre : List KdBuf} {rec : KdBuf} {tid : UInt64}
    (h : EndsOnCpu pre rec tid) :
    ∃ iv ∈ (undrained stripCodePtr config slideEst pre).closedAt rec, iv.tid = tid.toUInt32 := by
  obtain ⟨hcpu, hon⟩ := undrained_scheduled stripCodePtr config slideEst pre
  obtain ⟨hsched, hswitch, hleave, on, hlast, hlt⟩ := h
  rw [← hon tid] at hlast
  have hleave' : (undrained stripCodePtr config slideEst pre).offcpu.leaving rec = some tid := by
    rw [CpuIntervalTracker.leaving, hcpu]
    exact hleave
  refine ⟨{ tid := tid.toUInt32, startNs := on, endNs := rec.maskedTimestamp, kind := .onCpu },
    ?_, rfl⟩
  rw [Pipeline.closedAt, if_pos hsched, CpuIntervalTracker.closed_of_isSwitch hswitch]
  refine List.mem_append_left _ (List.mem_flatMap.mpr ⟨tid, by simp [hleave'], ?_⟩)
  rw [ThreadState.switchOut_of_lt hlast hlt]
  exact List.mem_singleton_self _

/-- A closed interval belongs to a thread that was sampled, or is an on-CPU stretch. -/
theorem sampled_or_endsOnCpu {pre : List KdBuf} {rec : KdBuf} {iv : PendingInterval}
    (h : iv ∈ (undrained stripCodePtr config slideEst pre).closedAt rec) :
    Sampled iv.tid pre ∨ ∃ tid, EndsOnCpu pre rec tid ∧ tid.toUInt32 = iv.tid := by
  obtain ⟨hcpu, hon⟩ := undrained_scheduled stripCodePtr config slideEst pre
  rw [Pipeline.closedAt] at h
  split at h
  · rename_i hsched
    by_cases hswitch : IsSwitch rec
    · rw [CpuIntervalTracker.closed_of_isSwitch hswitch, List.mem_append] at h
      rcases h with h | h
      · obtain ⟨tid, htid, hiv⟩ := List.mem_flatMap.mp h
        have hleave := Option.mem_toList.mp htid
        rcases ThreadState.switchOut_closes _ tid rec.maskedTimestamp with hnone | hsome
        · rw [hnone] at hiv
          cases hiv
        · obtain ⟨on, hlast, hlt, hone⟩ := hsome
          rw [hone, List.mem_singleton] at hiv
          rw [hon tid] at hlast
          rw [CpuIntervalTracker.leaving, hcpu] at hleave
          exact Or.inr ⟨tid, ⟨hsched, hswitch, hleave, on, hlast, hlt⟩, by rw [hiv]⟩
      · obtain ⟨tid, -, hiv⟩ := List.mem_flatMap.mp h
        -- an off-CPU interval needs a cached stack, and only a sample caches one
        have hstack := ThreadState.stack_of_mem_switchIn hiv
        left
        have htid : iv.tid = tid.toUInt32 :=
          ThreadState.tid_of_mem_step (e := .switchIn rec.maskedTimestamp) hiv
        rw [htid]
        exact sampled_of_stack stripCodePtr config slideEst hstack
    · have hop : (TrackerOp.feed rec).switch? = none := if_neg hswitch
      rw [(CpuIntervalTracker.closedFor_of_not_switch hop 0).1] at h
      cases h
  · cases h

/-! ## Batches -/

/-- The sink events of some wakeups. -/
def wakeupEvents (wakeups : List PendingWakeup) : List SinkEvent :=
  wakeups.map fun w => .onWakeup (wakeupEvent config w)

/-- The sink events of the intervals whose thread is in `seen`. -/
def intervalEvents (seen : Finset UInt32) (intervals : List PendingInterval) : List SinkEvent :=
  (intervals.filter fun interval => interval.tid ∈ seen).map
    fun interval => .onCpuInterval (cpuIntervalEvent config interval)

/-- The loop, reporting for each record everything that is due to it. -/
def deliverable (seen : Finset UInt32) : Transducer Pipeline KdBuf SinkEvent :=
  (recordLoop stripCodePtr).reporting fun p rec =>
    (recordLoop stripCodePtr).emit p rec ++ wakeupEvents config (p.wokenAt rec) ++
      intervalEvents config seen (p.closedAt rec)

/-- The outboxes play no part in a run. -/
theorem lockstep_of_core (seen : Finset UInt32) {p q : Pipeline} (h : p.core = q.core)
    (recs : List KdBuf) :
    ((recordLoop stripCodePtr).run p recs).core = ((recordLoop stripCodePtr).run q recs).core ∧
      (deliverable stripCodePtr config seen).outputs p recs =
        (deliverable stripCodePtr config seen).outputs q recs := by
  refine Transducer.outputs_eq_of_lockstep (deliverable stripCodePtr config seen)
    (deliverable stripCodePtr config seen) (R := fun a b => a.core = b.core) h ?_
  intro rec _ a b hab
  obtain ⟨ha, ha'⟩ := a.core_processRecord stripCodePtr rec
  obtain ⟨hb, hb'⟩ := b.core_processRecord stripCodePtr rec
  have hcore : (a.processRecord stripCodePtr rec).1.core =
      (b.processRecord stripCodePtr rec).1.core := by
    rw [← ha, hab, hb]
  refine ⟨hcore, ?_⟩
  have hemit : (a.processRecord stripCodePtr rec).2 = (b.processRecord stripCodePtr rec).2 := by
    rw [← ha', hab, hb']
  have hwoken : a.wokenAt rec = b.wokenAt rec := by
    show a.core.wokenAt rec = b.core.wokenAt rec
    rw [hab]
  have hclosed : a.closedAt rec = b.closedAt rec := by
    show a.core.closedAt rec = b.core.closedAt rec
    rw [hab]
  show (a.processRecord stripCodePtr rec).2 ++ wakeupEvents config (a.wokenAt rec) ++
    intervalEvents config seen (a.closedAt rec) = _
  rw [hemit, hwoken, hclosed]
  rfl

/-- What is due to each record of a list, up to order: the samples, the wakeups, the intervals. -/
theorem deliverable_perm (seen : Finset UInt32) (p : Pipeline) (recs : List KdBuf) :
    ((deliverable stripCodePtr config seen).outputs p recs).Perm
      ((recordLoop stripCodePtr).outputs p recs ++
        wakeupEvents config
          (((recordLoop stripCodePtr).reporting Pipeline.wokenAt).outputs p recs) ++
        intervalEvents config seen
          (((recordLoop stripCodePtr).reporting Pipeline.closedAt).outputs p recs)) := by
  have hwakeups := (recordLoop stripCodePtr).outputs_reporting_hom (wakeupEvents config) rfl
    (fun _ _ => List.map_append) Pipeline.wokenAt p recs
  have hintervals := (recordLoop stripCodePtr).outputs_reporting_hom (intervalEvents config seen)
    rfl (fun xs ys => by simp [intervalEvents]) Pipeline.closedAt p recs
  rw [← hwakeups, ← hintervals]
  refine ((recordLoop stripCodePtr).outputs_reporting_append_perm _ _ p recs).trans ?_
  exact ((recordLoop stripCodePtr).outputs_reporting_append_perm _ _ p recs).append_right _

/-- After any batches the pipeline is where one loop over their records is, with both outboxes
empty. -/
theorem core_run_pipeline (batches : List (List KdBuf)) :
    ((pipeline stripCodePtr).run (.new config slideEst) batches).core =
        (undrained stripCodePtr config slideEst batches.flatten).core ∧
      ((pipeline stripCodePtr).run (.new config slideEst) batches).offcpu.pending = [] ∧
      ((pipeline stripCodePtr).run (.new config slideEst) batches).offcpu.pendingWakeups = [] := by
  refine (recordLoop stripCodePtr).run_flatten (pipeline stripCodePtr)
    (R := fun q p => q.core = p.core ∧ q.offcpu.pending = [] ∧ q.offcpu.pendingWakeups = [])
    ⟨rfl, rfl, rfl⟩ ?_ batches
  rintro q p recs ⟨hcore, -, -⟩
  refine ⟨?_, rfl, rfl⟩
  have hcounted : { q with totalDrained := q.totalDrained + recs.length }.core = p.core := hcore
  exact (lockstep_of_core stripCodePtr config ∅ hcounted recs).1

/-- One batch delivers what is due to its records, with the threads seen by its end. -/
theorem batch_perm (batches : List (List KdBuf)) (recs : List KdBuf) :
    ((pipeline stripCodePtr).emit
        ((pipeline stripCodePtr).run (.new config slideEst) batches) recs).Perm
      ((deliverable stripCodePtr config
          (undrained stripCodePtr config slideEst (batches.flatten ++ recs)).seenTids).outputs
        (undrained stripCodePtr config slideEst batches.flatten) recs) := by
  obtain ⟨hcore, hpending, hwakeups⟩ :=
    core_run_pipeline stripCodePtr config slideEst batches
  generalize (pipeline stripCodePtr).run (.new config slideEst) batches = q at *
  let counted : Pipeline := { q with totalDrained := q.totalDrained + recs.length }
  have hcounted : counted.core =
      (undrained stripCodePtr config slideEst batches.flatten).core := hcore
  obtain ⟨hrun, hout⟩ := lockstep_of_core stripCodePtr config
    (undrained stripCodePtr config slideEst (batches.flatten ++ recs)).seenTids hcounted recs
  rw [← undrained_append] at hrun
  obtain ⟨hconfig, hseen⟩ := Pipeline.config_seenTids_of_core hrun
  rw [(undrained_frame stripCodePtr config slideEst (batches.flatten ++ recs)).1] at hconfig
  obtain ⟨hintervals, hwoken⟩ := outboxes_run stripCodePtr counted recs
  have hpending' : counted.offcpu.pending = [] := hpending
  have hwakeups' : counted.offcpu.pendingWakeups = [] := hwakeups
  rw [hpending', List.nil_append] at hintervals
  rw [hwakeups', List.nil_append] at hwoken
  rw [← hout]
  refine List.Perm.trans ?_ (deliverable_perm stripCodePtr config _ counted recs).symm
  show ((recordLoop stripCodePtr).outputs counted recs ++
    (wakeupEvents ((recordLoop stripCodePtr).run counted recs).config
        ((recordLoop stripCodePtr).run counted recs).offcpu.pendingWakeups ++
      intervalEvents ((recordLoop stripCodePtr).run counted recs).config
        ((recordLoop stripCodePtr).run counted recs).seenTids
        ((recordLoop stripCodePtr).run counted recs).offcpu.pending)).Perm _
  rw [hconfig, hwoken, hintervals, hseen, List.append_assoc]

/-- Only the threads of closed intervals are looked up among the threads seen. -/
theorem deliverable_congr {seen seen' : Finset UInt32} {p : Pipeline} {recs : List KdBuf}
    (h : ∀ pre rec post, recs = pre ++ rec :: post →
      ∀ iv ∈ ((recordLoop stripCodePtr).run p pre).closedAt rec, iv.tid ∈ seen ↔ iv.tid ∈ seen') :
    (deliverable stripCodePtr config seen).outputs p recs =
      (deliverable stripCodePtr config seen').outputs p recs := by
  apply (recordLoop stripCodePtr).outputs_reporting_congr
  intro pre rec post hsplit
  have hfilter : intervalEvents config seen (((recordLoop stripCodePtr).run p pre).closedAt rec) =
      intervalEvents config seen' (((recordLoop stripCodePtr).run p pre).closedAt rec) := by
    rw [intervalEvents, intervalEvents]
    congr 1
    apply List.filter_congr
    intro iv hiv
    rw [decide_eq_decide]
    exact h pre rec post hsplit iv hiv
  rw [hfilter]

/-- When threads are sampled before they leave, every cut delivers the same: what is due to each
record, with all the threads the records sample. -/
theorem delivered_perm {batches : List (List KdBuf)}
    (h : SampledBeforeLeaving batches.flatten) :
    (delivered stripCodePtr config slideEst batches).Perm
      ((deliverable stripCodePtr config
          (undrained stripCodePtr config slideEst batches.flatten).seenTids).outputs
        (.new config slideEst) batches.flatten) := by
  apply Transducer.outputs_flatten_perm
  intro before recs after hbatches
  refine (batch_perm stripCodePtr config slideEst before recs).trans ?_
  have hflat : batches.flatten = (before.flatten ++ recs) ++ after.flatten := by
    rw [hbatches]
    simp
  refine List.Perm.of_eq (deliverable_congr stripCodePtr config ?_)
  rintro pre rec post rfl iv hiv
  rw [← undrained_append] at hiv
  rw [mem_seenTids_iff, mem_seenTids_iff]
  constructor
  · intro hsampled
    rw [hflat]
    exact hsampled.append after.flatten
  · intro hsampled
    -- the thread was sampled by the time the interval was closed, hence by the end of the batch
    have hbefore : Sampled iv.tid (before.flatten ++ pre) := by
      rcases sampled_or_endsOnCpu stripCodePtr config slideEst hiv with hdone | hleft
      · exact hdone
      · obtain ⟨tid, hends, htid⟩ := hleft
        rw [← htid] at hsampled ⊢
        exact h (before.flatten ++ pre) rec (post ++ after.flatten) (by simp [hflat]) tid hends
          hsampled
    rw [← List.append_assoc]
    exact hbefore.append (rec :: post)

/-- One batch over all the records. -/
theorem delivered_one_perm (recs : List KdBuf) :
    (delivered stripCodePtr config slideEst [recs]).Perm
      ((deliverable stripCodePtr config
        (undrained stripCodePtr config slideEst recs).seenTids).outputs
          (.new config slideEst) recs) := by
  have hdelivered : delivered stripCodePtr config slideEst [recs] =
      (pipeline stripCodePtr).emit (.new config slideEst) recs := List.append_nil _
  rw [hdelivered]
  exact batch_perm stripCodePtr config slideEst [] recs

/-- Two batches: the intervals of the first are looked up among the threads seen by its end. -/
theorem delivered_two_perm (first second : List KdBuf) :
    (delivered stripCodePtr config slideEst [first, second]).Perm
      ((deliverable stripCodePtr config
        (undrained stripCodePtr config slideEst first).seenTids).outputs
          (.new config slideEst) first ++
        (deliverable stripCodePtr config
          (undrained stripCodePtr config slideEst (first ++ second)).seenTids).outputs
            (undrained stripCodePtr config slideEst first) second) := by
  have hdelivered : delivered stripCodePtr config slideEst [first, second] =
      (pipeline stripCodePtr).emit (.new config slideEst) first ++
        (pipeline stripCodePtr).emit
          ((pipeline stripCodePtr).run (.new config slideEst) [first]) second :=
    congrArg (_ ++ ·) (List.append_nil _)
  have hsecond := batch_perm stripCodePtr config slideEst [first] second
  rw [show [first].flatten = first by simp] at hsecond
  rw [hdelivered]
  exact (batch_perm stripCodePtr config slideEst [] first).append hsecond

/-- If cutting `recs` after `first` changes nothing, the intervals closed in `first` are delivered
alike with the threads seen by then and with those seen in the end. -/
theorem intervals_perm_of_cut {recs first second : List KdBuf} (hcut : first ++ second = recs)
    (h : (delivered stripCodePtr config slideEst [recs]).Perm
      (delivered stripCodePtr config slideEst [first, second])) :
    (intervalEvents config (undrained stripCodePtr config slideEst recs).seenTids
      (((recordLoop stripCodePtr).reporting Pipeline.closedAt).outputs
        (.new config slideEst) first)).Perm
      (intervalEvents config (undrained stripCodePtr config slideEst first).seenTids
        (((recordLoop stripCodePtr).reporting Pipeline.closedAt).outputs
          (.new config slideEst) first)) := by
  have hone := delivered_one_perm stripCodePtr config slideEst recs
  have htwo := delivered_two_perm stripCodePtr config slideEst first second
  rw [hcut] at htwo
  -- the second batch delivers the same either way
  have hsplit : (deliverable stripCodePtr config
      (undrained stripCodePtr config slideEst recs).seenTids).outputs (.new config slideEst) recs =
      (deliverable stripCodePtr config
        (undrained stripCodePtr config slideEst recs).seenTids).outputs
          (.new config slideEst) first ++
      (deliverable stripCodePtr config
        (undrained stripCodePtr config slideEst recs).seenTids).outputs
          (undrained stripCodePtr config slideEst first) second := by
    conv_lhs => rw [← hcut, Transducer.outputs_append]
    rw [← hcut]
    rfl
  rw [hsplit] at hone
  have hfirst := (List.perm_append_right_iff _).mp (hone.symm.trans (h.trans htwo))
  -- and so do the samples and the wakeups of the first
  exact (List.perm_append_left_iff _).mp
    ((deliverable_perm stripCodePtr config _ (.new config slideEst) first).symm.trans
      (hfirst.trans (deliverable_perm stripCodePtr config _ (.new config slideEst) first)))

/-- When a thread leaves before its first sample, a cut right after that record drops the interval
that one batch delivers. -/
theorem sampledBeforeLeaving_of_perm {recs : List KdBuf}
    (h : ∀ first second, first ++ second = recs →
      (delivered stripCodePtr config slideEst [recs]).Perm
        (delivered stripCodePtr config slideEst [first, second])) :
    SampledBeforeLeaving recs := by
  intro pre rec post hsplit tid hends hsampled
  by_contra hnot
  have hcut : (pre ++ [rec]) ++ post = recs := by
    rw [hsplit]
    simp
  have hfirst : ¬ Sampled tid.toUInt32 (pre ++ [rec]) := by
    rw [sampled_concat]
    rintro (hpre | ⟨hend, -⟩)
    · exact hnot hpre
    · rw [IsSampleEnd, eventOf_of_isSched hends.1] at hend
      cases hend
  have hintervals := intervals_perm_of_cut stripCodePtr config slideEst hcut
    (h (pre ++ [rec]) post hcut)
  have hlength := hintervals.length_eq
  rw [intervalEvents, intervalEvents, List.length_map, List.length_map] at hlength
  obtain ⟨iv, hiv, htid⟩ := mem_closedAt_of_endsOnCpu stripCodePtr config slideEst hends
  have hclosed : iv ∈ ((recordLoop stripCodePtr).reporting Pipeline.closedAt).outputs
      (.new config slideEst) (pre ++ [rec]) :=
    (Transducer.mem_outputs _).mpr ⟨pre, rec, [], rfl, hiv⟩
  generalize ((recordLoop stripCodePtr).reporting Pipeline.closedAt).outputs
    (.new config slideEst) (pre ++ [rec]) = closed at hclosed hlength
  -- the filter of the first batch keeps a part, of the same length, of what the other one keeps
  have hsub : (closed.filter fun iv =>
      iv.tid ∈ (undrained stripCodePtr config slideEst (pre ++ [rec])).seenTids).Sublist
      (closed.filter fun iv =>
        iv.tid ∈ (undrained stripCodePtr config slideEst recs).seenTids) := by
    apply List.monotone_filter_right
    intro jv hjv
    rw [decide_eq_true_eq, mem_seenTids_iff] at hjv ⊢
    rw [← hcut]
    exact hjv.append post
  have hkept : iv ∈ closed.filter fun iv =>
      iv.tid ∈ (undrained stripCodePtr config slideEst recs).seenTids := by
    rw [List.mem_filter, decide_eq_true_eq, mem_seenTids_iff, htid]
    exact ⟨hclosed, hsampled⟩
  rw [← hsub.eq_of_length hlength.symm, List.mem_filter, decide_eq_true_eq, mem_seenTids_iff,
    htid] at hkept
  exact hfirst hkept.2

/-- The events delivered do not depend on the cuts if and only if no thread that the records sample
ends an on-CPU interval before its first sample. -/
theorem batches_invisible_iff (recs : List KdBuf) :
    (∀ as bs : List (List KdBuf), as.flatten = recs → bs.flatten = recs →
      (delivered stripCodePtr config slideEst as).Perm
        (delivered stripCodePtr config slideEst bs)) ↔ SampledBeforeLeaving recs := by
  constructor
  · intro h
    apply sampledBeforeLeaving_of_perm stripCodePtr config slideEst
    intro pre post hcut
    exact h [recs] [pre, post] (by simp) (by simpa using hcut)
  · rintro h as bs rfl hbs
    have has := delivered_perm stripCodePtr config slideEst h
    rw [← hbs] at h has
    exact has.trans (delivered_perm stripCodePtr config slideEst h).symm

end Loop

/-! ## A cut that drops an interval -/

/-- A thread runs for 10 ns and leaves; then it is sampled. -/
def leaveThenSample : List KdBuf :=
  [switchRecord 0 0 7, switchRecord 10 0 0, startRecord 20 7 0, uhdrRecord 20 7 0 1 0,
    udataRecord 20 7 0 16 0 0 0, endRecord 20 7 0]

theorem leaveThenSample_cut :
    (leaveThenSample.take 2 ++ leaveThenSample.drop 2 = leaveThenSample) ∧
      ¬ (delivered id ⟨1, none, none⟩ none [leaveThenSample]).Perm
        (delivered id ⟨1, none, none⟩ none [leaveThenSample.take 2, leaveThenSample.drop 2]) := by
  refine ⟨List.take_append_drop 2 leaveThenSample, ?_⟩
  intro hperm
  have hone : (delivered id ⟨1, none, none⟩ none [leaveThenSample]).length = 2 := by
    decide +kernel
  have htwo : (delivered id ⟨1, none, none⟩ none
      [leaveThenSample.take 2, leaveThenSample.drop 2]).length = 1 := by
    decide +kernel
  rw [hperm.length_eq, htwo] at hone
  omega

end Stax.Kperf
