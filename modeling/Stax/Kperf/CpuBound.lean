/-
# Stax.Kperf.CpuBound — no more on-CPU time than cpus.

At every instant the emitted on-CPU intervals of all threads together number at most the cpus seen
by then, so their durations sum to at most cpus × wall time.  Nothing is assumed of the trace but
the order of its times.

Intervals are opened and closed per thread, the bound is per cpu.  What connects the two: a thread
whose on-CPU interval is open is the current thread of some cpu (`exists_cpu_of_lastOnNs`).  For an
instant `t` the count then has two phases.  Up to `t` nothing emitted contains `t` and the open
threads number at most the cpus; after `t` an interval that contains `t` is emitted only by closing
a thread that was open by `t`, and no thread opens by `t` any more.
-/
import Stax.Kperf.IntervalOrder

namespace Stax.Kperf

open Stax.Lib

/-! ## What is counted -/

/-- An interval in which the thread was running. -/
def PendingInterval.isOnCpu (iv : PendingInterval) : Bool := iv.kind == .onCpu

/-- The emitted on-CPU intervals, as spans of time. -/
def onCpuSpans (ops : List TrackerOp) : List (Span ℕ) :=
  ((emitted ops).filter PendingInterval.isOnCpu).map PendingInterval.span

/-- The cpus that switched by `t`. -/
def cpusBy (t : ℕ) (ops : List TrackerOp) : Finset UInt32 :=
  (((switchRecords ops).filter fun rec => rec.maskedTimestamp ≤ t).map KdBuf.cpuid).toFinset

/-- The cpus that switched at all. -/
def cpusSeen (ops : List TrackerOp) : Finset UInt32 :=
  ((switchRecords ops).map KdBuf.cpuid).toFinset

theorem onCpuSpans_concat (ops : List TrackerOp) (op : TrackerOp) :
    onCpuSpans (ops ++ [op]) = onCpuSpans ops ++
      (((track ops).closed op).filter PendingInterval.isOnCpu).map PendingInterval.span := by
  rw [onCpuSpans, emitted_concat, List.filter_append, List.map_append]
  rfl

theorem cpusBy_subset_cpusSeen (t : ℕ) (ops : List TrackerOp) : cpusBy t ops ⊆ cpusSeen ops := by
  intro cpu hcpu
  obtain ⟨rec, hrec, rfl⟩ := List.mem_map.mp (List.mem_toFinset.mp hcpu)
  exact List.mem_toFinset.mpr (List.mem_map_of_mem (List.mem_filter.mp hrec).1)

/-- By the time of the last record, every cpu seen has switched. -/
theorem cpusBy_eq_cpusSeen {t : ℕ} {ops : List TrackerOp} (h : ∀ ts ∈ switchTimes ops, ts ≤ t) :
    cpusBy t ops = cpusSeen ops := by
  have hall : (switchRecords ops).filter (fun rec => rec.maskedTimestamp ≤ t) =
      switchRecords ops := by
    rw [List.filter_eq_self]
    intro rec hrec
    exact decide_eq_true (h _ (List.mem_map_of_mem hrec))
  rw [cpusBy, hall, cpusSeen]

/-! ## Times of what is open and of what was closed -/

/-- An interval of the thread is open from `o`. -/
def ThreadState.OpenAt (st : ThreadState) (o : ℕ) : Prop :=
  st.lastOnNs = some o ∨ st.lastOffNs = some o

/-- What is open after an event was open before it or opened with it. -/
theorem openAt_step {tid : UInt64} {st : ThreadState} {e : ThreadEvent} {o : ℕ}
    (h : (st.step tid e).1.OpenAt o) : st.OpenAt o ∨ e.switchTime? = some o := by
  cases e with
  | switchOut ts =>
      rcases h with h | h
      · rw [ThreadState.step, ThreadState.lastOnNs_switchOut] at h
        cases h
      · rw [ThreadState.step, ThreadState.lastOffNs_switchOut] at h
        exact Or.inr h
  | switchIn ts =>
      rcases h with h | h
      · rw [ThreadState.step, ThreadState.lastOnNs_switchIn] at h
        exact Or.inr h
      · rw [ThreadState.step, ThreadState.lastOffNs_switchIn] at h
        cases h
  | sampled user kernel => exact Or.inl h
  | woken waker => exact Or.inl h

/-- A closed interval was open and ends with the event. -/
theorem openAt_of_mem_step {tid : UInt64} {st : ThreadState} {e : ThreadEvent}
    {iv : PendingInterval} (h : iv ∈ (st.step tid e).2) :
    st.OpenAt iv.startNs ∧ e.switchTime? = some iv.endNs := by
  cases e with
  | switchOut ts =>
      replace h : iv ∈ (st.switchOut tid ts).2 := h
      rcases ThreadState.switchOut_closes st tid ts with hnone | ⟨on, hon, -, hone⟩
      · simp [hnone] at h
      · rw [hone] at h
        rw [List.mem_singleton.mp h]
        exact ⟨Or.inl hon, rfl⟩
  | switchIn ts =>
      replace h : iv ∈ (st.switchIn tid ts).2 := h
      rcases ThreadState.switchIn_closes st tid ts with hnone | ⟨off, hoff, -, hone⟩
      · simp [hnone] at h
      · rw [hone] at h
        rw [List.mem_singleton.mp h]
        exact ⟨Or.inr hoff, rfl⟩
  | sampled user kernel => simp [ThreadState.step] at h
  | woken waker => simp [ThreadState.step] at h

/-- Start and end of every closed interval are times of events. -/
theorem mem_times_of_mem_outputs {P : ℕ → Prop} {tid : UInt64} {st : ThreadState}
    {es : List ThreadEvent} (hopen : ∀ o, st.OpenAt o → P o)
    (htimes : ∀ ts ∈ es.filterMap ThreadEvent.switchTime?, P ts) {iv : PendingInterval}
    (hiv : iv ∈ (threadMachine tid).outputs st es) : P iv.startNs ∧ P iv.endNs := by
  induction es generalizing st with
  | nil => exact absurd hiv List.not_mem_nil
  | cons e es ih =>
      -- what is open after the event was open before it or opened at its time
      have he : ∀ ts, e.switchTime? = some ts → P ts := by
        intro ts hts
        apply htimes
        rw [List.filterMap_cons_some hts]
        exact List.mem_cons_self
      rcases List.mem_append.mp hiv with hiv | hiv
      · obtain ⟨hstart, hend⟩ := openAt_of_mem_step hiv
        exact ⟨hopen _ hstart, he _ hend⟩
      · refine ih ?_ ?_ hiv
        · intro o ho
          rcases openAt_step ho with ho | ho
          · exact hopen o ho
          · exact he o ho
        · intro ts hts
          exact htimes ts (((List.sublist_cons_self e es).filterMap _).subset hts)

theorem exists_mem_emittedFor {ops : List TrackerOp} {iv : PendingInterval}
    (h : iv ∈ emitted ops) : ∃ tid, iv ∈ emittedFor tid ops := by
  induction ops using List.reverseRecOn with
  | nil => exact absurd h List.not_mem_nil
  | append_singleton ops op ih =>
      rw [emitted_concat] at h
      rcases List.mem_append.mp h with h | h
      · obtain ⟨tid, htid⟩ := ih h
        refine ⟨tid, ?_⟩
        rw [emittedFor_concat]
        exact List.mem_append_left _ htid
      · obtain ⟨tid, -, htid⟩ := List.mem_flatMap.mp h
        refine ⟨tid, ?_⟩
        rw [emittedFor_concat]
        exact List.mem_append_right _ htid

/-- Every emitted interval starts and ends at the time of a switch record. -/
theorem mem_switchTimes_of_emitted {ops : List TrackerOp} {iv : PendingInterval}
    (h : iv ∈ emitted ops) : iv.startNs ∈ switchTimes ops ∧ iv.endNs ∈ switchTimes ops := by
  obtain ⟨tid, htid⟩ := exists_mem_emittedFor h
  rw [emittedFor_eq] at htid
  refine mem_times_of_mem_outputs (P := fun ts => ts ∈ switchTimes ops) ?_ ?_ htid
  · rintro o (ho | ho) <;> cases ho
  · exact fun ts hts => (switchTimes_sublist tid ops).subset hts

/-! ## Open threads and cpus -/

/-- A thread whose on-CPU interval is open is the current thread of some cpu. -/
theorem exists_cpu_of_lastOnNs {ops : List TrackerOp} {tid : UInt64} {on : ℕ}
    (h : ((track ops).thread tid).lastOnNs = some on) :
    tid ≠ 0 ∧ ∃ cpu, currentOn ops cpu = some tid := by
  induction ops using List.reverseRecOn with
  | nil => cases h
  | append_singleton ops op ih =>
      rw [currentOn_concat]
      cases hop : op.switch? with
      | none =>
          apply ih
          rw [← (CpuIntervalTracker.thread_call_of_not_switch hop tid).1, ← track_concat]
          exact h
      | some rec =>
          obtain ⟨rfl, hswitch⟩ := TrackerOp.switch?_eq_some.mp hop
          rw [track_concat] at h
          replace h : (((track ops).feed rec).thread tid).lastOnNs = some on := h
          rw [CpuIntervalTracker.lastOnNs_feed_of_isSwitch _ tid hswitch] at h
          by_cases henter : CpuIntervalTracker.entering rec = some tid
          · -- the thread just came onto this cpu
            obtain ⟨rfl, hne⟩ := CpuIntervalTracker.entering_eq_some.mp henter
            exact ⟨hne, rec.cpuid, Function.update_self ..⟩
          · rw [if_neg henter] at h
            by_cases hleave : (track ops).leaving rec = some tid
            · rw [if_pos hleave] at h
              cases h
            · -- the thread stays where it was, which is another cpu
              rw [if_neg hleave] at h
              obtain ⟨hne, cpu, hcpu⟩ := ih h
              refine ⟨hne, cpu, ?_⟩
              have hother : cpu ≠ rec.cpuid := by
                rintro rfl
                rw [← onCpu_track] at hcpu
                by_cases hsame : tid = rec.arg2
                · exact henter (CpuIntervalTracker.entering_eq_some.mpr ⟨hsame.symm, hne⟩)
                · exact hleave (CpuIntervalTracker.leaving_eq_some.mpr ⟨hcpu, hne, hsame⟩)
              dsimp only
              rw [Function.update_of_ne hother]
              exact hcpu

/-- The current threads of the cpus seen. -/
def currentThreads (ops : List TrackerOp) : Finset UInt64 :=
  (cpusSeen ops).image fun cpu => (currentOn ops cpu).getD 0

theorem mem_currentThreads {ops : List TrackerOp} {cpu : UInt32} {tid : UInt64}
    (h : currentOn ops cpu = some tid) : tid ∈ currentThreads ops := by
  obtain ⟨rec, hrec, hcpu, -⟩ := exists_of_currentOn h
  refine Finset.mem_image.mpr ⟨cpu, ?_, by rw [h]; rfl⟩
  exact List.mem_toFinset.mpr (List.mem_map.mpr ⟨rec, hrec, hcpu⟩)

/-! ## The count at one instant -/

/-- How many on-CPU intervals emitted so far contain `t`. -/
def runningAt (t : ℕ) (ops : List TrackerOp) : ℕ :=
  (onCpuSpans ops).countP fun s => s.Contains t

/-- Some set holds every thread whose on-CPU interval is open from `t` or earlier, and leaves room
for the intervals already emitted. -/
def RoomAt (t : ℕ) (ops : List TrackerOp) : Prop :=
  ∃ threads : Finset UInt64,
    (∀ tid on, ((track ops).thread tid).lastOnNs = some on → on ≤ t → tid ∈ threads) ∧
      threads.card + runningAt t ops ≤ (cpusBy t ops).card

/-- Up to `t` the open threads are current threads, and nothing emitted contains `t`. -/
theorem roomAt_of_le {t : ℕ} {ops : List TrackerOp} (h : ∀ ts ∈ switchTimes ops, ts ≤ t) :
    RoomAt t ops := by
  refine ⟨currentThreads ops, ?_, ?_⟩
  · intro tid on hon _
    obtain ⟨-, cpu, hcpu⟩ := exists_cpu_of_lastOnNs hon
    exact mem_currentThreads hcpu
  · have hzero : runningAt t ops = 0 := by
      rw [runningAt, List.countP_eq_zero]
      intro s hs hcontains
      obtain ⟨iv, hiv, rfl⟩ := List.mem_map.mp hs
      have hend := h _ (mem_switchTimes_of_emitted (List.mem_filter.mp hiv).1).2
      exact absurd (of_decide_eq_true hcontains).2 (not_lt.mpr hend)
    rw [hzero, cpusBy_eq_cpusSeen h, Nat.add_zero]
    exact Finset.card_image_le

/-- Coming onto a cpu closes no on-CPU interval. -/
theorem filter_closedEntering (s : CpuIntervalTracker) (rec : KdBuf) :
    (s.closedEntering rec).filter PendingInterval.isOnCpu = [] := by
  rw [List.filter_eq_nil_iff]
  intro iv hiv
  obtain ⟨tid, -, hiv⟩ := List.mem_flatMap.mp hiv
  rcases (s.thread tid).switchIn_closes tid rec.maskedTimestamp with hnone | ⟨off, -, -, hone⟩
  · rw [hnone] at hiv
    cases hiv
  · rw [hone] at hiv
    rw [List.mem_singleton.mp hiv]
    exact Bool.false_ne_true

/-- A thread that leaves a cpu after `t` closes at most one interval that contains `t`, and none
unless its on-CPU interval was open from `t` or earlier. -/
theorem countP_switchOut (st : ThreadState) (tid : UInt64) (t ts : ℕ) :
    (((st.switchOut tid ts).2.filter PendingInterval.isOnCpu).map PendingInterval.span).countP
        (fun s => s.Contains t) = 0 ∨
      (((st.switchOut tid ts).2.filter PendingInterval.isOnCpu).map PendingInterval.span).countP
        (fun s => s.Contains t) ≤ 1 ∧ ∃ on, st.lastOnNs = some on ∧ on ≤ t := by
  rcases st.switchOut_closes tid ts with hnone | ⟨on, hon, -, hone⟩
  · rw [hnone]
    exact Or.inl rfl
  · rw [hone]
    rcases Nat.lt_or_ge t on with hlate | hearly
    · left
      rw [List.countP_eq_zero]
      intro s hs hcontains
      have hspan := List.mem_singleton.mp hs
      rw [hspan] at hcontains
      have hstart : on ≤ t := (of_decide_eq_true hcontains).1
      omega
    · exact Or.inr ⟨List.countP_le_length, on, hon, hearly⟩

/-- After a switch later than `t`, the threads open from `t` or earlier are those that were and did
not leave. -/
theorem open_of_switch {s : CpuIntervalTracker} {rec : KdBuf} (hswitch : IsSwitch rec) {t : ℕ}
    (hlate : t < rec.maskedTimestamp) {tid : UInt64} {on : ℕ}
    (hon : ((s.feed rec).thread tid).lastOnNs = some on) (hle : on ≤ t) :
    s.leaving rec ≠ some tid ∧ (s.thread tid).lastOnNs = some on := by
  rw [CpuIntervalTracker.lastOnNs_feed_of_isSwitch s tid hswitch] at hon
  by_cases henter : CpuIntervalTracker.entering rec = some tid
  · rw [if_pos henter, Option.some.injEq] at hon
    omega
  · rw [if_neg henter] at hon
    by_cases hleave : s.leaving rec = some tid
    · rw [if_pos hleave] at hon
      cases hon
    · rw [if_neg hleave] at hon
      exact ⟨hleave, hon⟩

/-- What a switch after `t` adds to the count, it takes from the room. -/
theorem roomAt_switch {t : ℕ} {ops : List TrackerOp} {rec : KdBuf} (hswitch : IsSwitch rec)
    (hlate : t < rec.maskedTimestamp) (h : RoomAt t ops) : RoomAt t (ops ++ [.feed rec]) := by
  obtain ⟨threads, hthreads, hroom⟩ := h
  have hcpus : cpusBy t (ops ++ [.feed rec]) = cpusBy t ops := by
    have hrec : ¬ rec.maskedTimestamp ≤ t := by omega
    simp [cpusBy, switchRecords_concat, TrackerOp.switch?, hswitch, hrec]
  have hspans : onCpuSpans (ops ++ [.feed rec]) = onCpuSpans ops ++
      (((track ops).closedLeaving rec).filter PendingInterval.isOnCpu).map
        PendingInterval.span := by
    rw [onCpuSpans_concat, CpuIntervalTracker.closed_of_isSwitch hswitch, List.filter_append,
      filter_closedEntering, List.append_nil]
  have hopen : ∀ tid on, ((track (ops ++ [.feed rec])).thread tid).lastOnNs = some on → on ≤ t →
      (track ops).leaving rec ≠ some tid ∧ tid ∈ threads := by
    intro tid on hon hle
    rw [track_concat] at hon
    obtain ⟨hleave, hbefore⟩ := open_of_switch hswitch hlate hon hle
    exact ⟨hleave, hthreads tid on hbefore hle⟩
  unfold RoomAt runningAt
  rw [hcpus, hspans, List.countP_append, CpuIntervalTracker.closedLeaving]
  cases hleave : (track ops).leaving rec with
  | none => exact ⟨threads, fun tid on hon hle => (hopen tid on hon hle).2, hroom⟩
  | some prev =>
      refine ⟨threads.erase prev, ?_, ?_⟩
      · intro tid on hon hle
        obtain ⟨hne, hmem⟩ := hopen tid on hon hle
        refine Finset.mem_erase.mpr ⟨?_, hmem⟩
        rintro rfl
        exact hne hleave
      · have hclosed : (some prev).toList.flatMap (fun tid =>
            (((track ops).thread tid).switchOut tid rec.maskedTimestamp).2) =
            (((track ops).thread prev).switchOut prev rec.maskedTimestamp).2 := List.append_nil _
        rw [hclosed]
        unfold runningAt at hroom
        rcases countP_switchOut ((track ops).thread prev) prev t rec.maskedTimestamp with
          hzero | ⟨hcount, on, hon, hearly⟩
        · have hcard := Finset.card_erase_le (s := threads) (a := prev)
          omega
        · -- the closed interval was one of those there was room for
          have hcard := Finset.card_erase_add_one (hthreads prev on hon hearly)
          omega

theorem roomAt {t : ℕ} {ops : List TrackerOp} (h : (switchTimes ops).Pairwise (· ≤ ·)) :
    RoomAt t ops := by
  induction ops using List.reverseRecOn with
  | nil => exact roomAt_of_le fun ts hts => absurd hts List.not_mem_nil
  | append_singleton ops op ih =>
      have hsorted := h
      rw [switchTimes_concat, List.pairwise_append] at h
      cases hop : op.switch? with
      | none =>
          -- no switch: neither side of the count moves
          obtain ⟨threads, hthreads, hroom⟩ := ih h.1
          have hspans : onCpuSpans (ops ++ [op]) = onCpuSpans ops := by
            rw [onCpuSpans_concat, (CpuIntervalTracker.closedFor_of_not_switch hop 0).1]
            simp
          have hcpus : cpusBy t (ops ++ [op]) = cpusBy t ops := by
            rw [cpusBy, switchRecords_concat, hop]
            simp [cpusBy]
          refine ⟨threads, ?_, ?_⟩
          · intro tid on hon hle
            rw [track_concat, (CpuIntervalTracker.thread_call_of_not_switch hop tid).1] at hon
            exact hthreads tid on hon hle
          · rw [runningAt, hspans, hcpus]
            exact hroom
      | some rec =>
          obtain ⟨rfl, hswitch⟩ := TrackerOp.switch?_eq_some.mp hop
          rcases Nat.lt_or_ge t rec.maskedTimestamp with hlate | hearly
          · exact roomAt_switch hswitch hlate (ih h.1)
          · -- the last record is no later than `t`, so none is
            apply roomAt_of_le
            intro ts hts
            rw [switchTimes_concat, hop] at hts
            rcases List.mem_append.mp hts with hts | hts
            · exact (h.2.2 ts hts _ (by simp [hop])).trans hearly
            · rw [List.mem_singleton.mp hts]
              exact hearly

/-! ## The bound -/

/-- When the first switch record was taken. -/
def firstTimestamp (ops : List TrackerOp) : ℕ := (switchTimes ops).head?.getD 0

/-- When the last one was. -/
def lastTimestamp (ops : List TrackerOp) : ℕ := (switchTimes ops).getLast?.getD 0

/-- The time of every switch lies between the first and the last of the stream. -/
theorem bounds_of_mem_switchTimes {ops : List TrackerOp}
    (h : (switchTimes ops).Pairwise (· ≤ ·)) {ts : ℕ} (hts : ts ∈ switchTimes ops) :
    firstTimestamp ops ≤ ts ∧ ts ≤ lastTimestamp ops := by
  unfold firstTimestamp lastTimestamp
  generalize switchTimes ops = times at h hts
  constructor
  · cases times with
    | nil => exact absurd hts List.not_mem_nil
    | cons first times =>
        rcases List.mem_cons.mp hts with rfl | hts
        · exact le_rfl
        · exact (List.pairwise_cons.mp h).1 ts hts
  · induction times using List.reverseRecOn with
    | nil => exact absurd hts List.not_mem_nil
    | append_singleton times last ih =>
        rw [List.getLast?_concat, Option.getD_some]
        rcases List.mem_append.mp hts with hts | hts
        · exact (List.pairwise_append.mp h).2.2 ts hts last (by simp)
        · exact (List.mem_singleton.mp hts).le

/-- At every instant at most as many on-CPU intervals are emitted as cpus have switched by then, so
together they last at most cpus × wall time. -/
theorem onCpu_bounded_by_cpus {ops : List TrackerOp}
    (hsorted : (switchTimes ops).Pairwise (· ≤ ·)) :
    (∀ t, (onCpuSpans ops).countP (fun s => s.Contains t) ≤ (cpusBy t ops).card ∧
      (cpusBy t ops).card ≤ (cpusSeen ops).card) ∧
    ((onCpuSpans ops).map fun s => s.stop - s.start).sum ≤
      (cpusSeen ops).card * (lastTimestamp ops - firstTimestamp ops) := by
  have hcount : ∀ t, (onCpuSpans ops).countP (fun s => s.Contains t) ≤ (cpusBy t ops).card := by
    intro t
    obtain ⟨threads, -, hroom⟩ := roomAt (t := t) hsorted
    exact (Nat.le_add_left _ _).trans hroom
  have hseen : ∀ t, (cpusBy t ops).card ≤ (cpusSeen ops).card := fun t =>
    Finset.card_le_card (cpusBy_subset_cpusSeen t ops)
  refine ⟨fun t => ⟨hcount t, hseen t⟩, ?_⟩
  apply Span.sum_length_le
  · intro s hs
    obtain ⟨iv, hiv, rfl⟩ := List.mem_map.mp hs
    obtain ⟨hstart, hend⟩ := mem_switchTimes_of_emitted (List.mem_filter.mp hiv).1
    exact ⟨(bounds_of_mem_switchTimes hsorted hstart).1,
      (bounds_of_mem_switchTimes hsorted hend).2⟩
  · exact fun t => (hcount t).trans (hseen t)

/-- Two cpus for 60 ns: thread 7, on both of them at once for a while, ran 20 of the 120 ns. -/
theorem onCpu_bounded_by_cpus_twoCpuRun :
    onCpuSpans twoCpuRun = [⟨110, 120⟩, ⟨150, 160⟩] ∧
      ((onCpuSpans twoCpuRun).map fun s => s.stop - s.start).sum ≤ 2 * (160 - 100) := by
  refine ⟨by decide +kernel, ?_⟩
  exact (onCpu_bounded_by_cpus (by decide +kernel)).2.trans (by decide +kernel)

end Stax.Kperf
