/-
# Stax.Kperf.Conservation — where a thread's time goes.

On a trace in which no thread is current on two cpus, a thread that has been switched in is either
on the one cpu where it is current, with its on-CPU interval open, or off, with its off-CPU interval
open; either way the open interval starts at the last switch that named the thread.  Each further
switch closes that interval and opens the next, so the two totals add up to the time since the first
switch-in — except when a cpu is switched to the very thread it already runs: that switch moves the
start of the open on-CPU interval without closing it, and the time since the last naming is lost.
-/
import Stax.Kperf.CpuBound

namespace Stax.Kperf

open Stax.Lib

/-! ## What the records say about one thread -/

/-- A switch names the thread it puts on its cpu and the thread that was there. -/
def Names (tid : UInt64) (ops : List TrackerOp) (rec : KdBuf) : Prop :=
  rec.arg2 = tid ∨ currentOn ops rec.cpuid = some tid

instance (tid : UInt64) (ops : List TrackerOp) (rec : KdBuf) : Decidable (Names tid ops rec) :=
  inferInstanceAs (Decidable (_ ∨ _))

/-- When a call is a switch that names the thread, its time. -/
def namingTime (tid : UInt64) (ops : List TrackerOp) (op : TrackerOp) : List ℕ :=
  match op.switch? with
  | some rec => if Names tid ops rec then [rec.maskedTimestamp] else []
  | none => []

/-- The times of the switches that name the thread, as incoming or outgoing. -/
def namingTimes (tid : UInt64) (ops : List TrackerOp) : List ℕ :=
  (Transducer.observe (namingTime tid)).outputs [] ops

/-- The time of the last one. -/
def lastNaming (tid : UInt64) (ops : List TrackerOp) : Option ℕ := (namingTimes tid ops).getLast?

/-- The time of the thread's first switch-in. -/
def firstSwitchIn (tid : UInt64) (ops : List TrackerOp) : Option ℕ :=
  ((switchRecords ops).find? fun rec => rec.arg2 == tid).map KdBuf.maskedTimestamp

/-- No thread but the idle one is current on two cpus at once, at any point of the trace. -/
def Consistent (ops : List TrackerOp) : Prop :=
  ∀ pre, pre <+: ops → ∀ c₁ c₂ tid, tid ≠ 0 →
    currentOn pre c₁ = some tid → currentOn pre c₂ = some tid → c₁ = c₂

/-- A cpu is switched to the thread it already runs only at the time of the last switch that named
the thread. -/
def NoLateReselect (tid : UInt64) : List TrackerOp → Prop :=
  Stepwise fun ops op => ∀ rec, op.switch? = some rec → rec.arg2 = tid →
    currentOn ops rec.cpuid = some tid → lastNaming tid ops = some rec.maskedTimestamp

/-- The on-CPU time a list of intervals reports. -/
def reportedOnCpu (ivs : List PendingInterval) : ℕ :=
  ((ivs.filter PendingInterval.isOnCpu).map fun iv => iv.endNs - iv.startNs).sum

theorem reportedOnCpu_append (ivs jvs : List PendingInterval) :
    reportedOnCpu (ivs ++ jvs) = reportedOnCpu ivs + reportedOnCpu jvs := by
  rw [reportedOnCpu, List.filter_append, List.map_append, List.sum_append]
  rfl

theorem Consistent.of_concat {ops : List TrackerOp} {op : TrackerOp}
    (h : Consistent (ops ++ [op])) : Consistent ops :=
  fun pre hpre => h pre (hpre.trans (List.prefix_append ops [op]))

theorem lastNaming_concat (tid : UInt64) (ops : List TrackerOp) (op : TrackerOp) :
    lastNaming tid (ops ++ [op]) =
      match op.switch? with
      | some rec => if Names tid ops rec then some rec.maskedTimestamp else lastNaming tid ops
      | none => lastNaming tid ops := by
  rw [lastNaming, namingTimes, Transducer.outputs_observe_concat, namingTime]
  cases op.switch? with
  | none =>
      rw [List.append_nil]
      rfl
  | some rec =>
      dsimp only
      split
      · exact List.getLast?_concat
      · rw [List.append_nil]
        rfl

theorem firstSwitchIn_concat (tid : UInt64) (ops : List TrackerOp) (op : TrackerOp) :
    firstSwitchIn tid (ops ++ [op]) =
      (firstSwitchIn tid ops).or
        (match op.switch? with
        | some rec => if rec.arg2 = tid then some rec.maskedTimestamp else none
        | none => none) := by
  rw [firstSwitchIn, switchRecords_concat, List.find?_append, Option.map_or]
  congr 1
  cases op.switch? with
  | none => rfl
  | some rec => by_cases htid : rec.arg2 = tid <;> simp [htid]

/-- A switch names a thread exactly when it takes it off a cpu or puts it on one. -/
theorem names_iff {tid : UInt64} (htid : tid ≠ 0) {ops : List TrackerOp} {rec : KdBuf} :
    Names tid ops rec ↔
      CpuIntervalTracker.entering rec = some tid ∨ (track ops).leaving rec = some tid := by
  rw [Names, CpuIntervalTracker.entering_eq_some, CpuIntervalTracker.leaving_eq_some, onCpu_track]
  constructor
  · intro h
    by_cases hin : rec.arg2 = tid
    · exact Or.inl ⟨hin, htid⟩
    · exact Or.inr ⟨h.resolve_left hin, htid, fun h => hin h.symm⟩
  · rintro (⟨hin, -⟩ | ⟨hcur, -⟩)
    · exact Or.inl hin
    · exact Or.inr hcur

/-! ## What a switch adds to the totals -/

namespace ThreadState

variable {st : ThreadState} (tid : UInt64) {ts : ℕ}

theorem totals_switchIn_of_none (ts : ℕ) (h : st.lastOffNs = none) :
    (st.switchIn tid ts).1.totalOnNs = st.totalOnNs ∧
      (st.switchIn tid ts).1.totalOffNs = st.totalOffNs := by
  rw [switchIn_of_none h]
  exact ⟨rfl, rfl⟩

theorem totals_switchIn_of_some {off : ℕ} (h : st.lastOffNs = some off) (hle : off ≤ ts)
    (hfit : st.totalOffNs + (ts - off) < 2 ^ 64) :
    (st.switchIn tid ts).1.totalOnNs = st.totalOnNs ∧
      (st.switchIn tid ts).1.totalOffNs = st.totalOffNs + (ts - off) := by
  rcases hle.lt_or_eq with hlt | rfl
  · rw [switchIn_of_lt h hlt]
    exact ⟨rfl, saturatingAdd64_eq hfit⟩
  · rw [switchIn_of_le h le_rfl]
    exact ⟨rfl, by simp⟩

theorem totals_switchOut_of_some {on : ℕ} (h : st.lastOnNs = some on) (hle : on ≤ ts)
    (hfit : st.totalOnNs + (ts - on) < 2 ^ 64) :
    (st.switchOut tid ts).1.totalOnNs = st.totalOnNs + (ts - on) ∧
      (st.switchOut tid ts).1.totalOffNs = st.totalOffNs := by
  rcases hle.lt_or_eq with hlt | rfl
  · rw [switchOut_of_lt h hlt]
    exact ⟨saturatingAdd64_eq hfit, rfl⟩
  · rw [switchOut_of_le h le_rfl]
    exact ⟨by simp, rfl⟩

theorem reportedOnCpu_switchIn : reportedOnCpu (st.switchIn tid ts).2 = 0 := by
  rcases switchIn_closes st tid ts with hnone | ⟨off, -, -, hone⟩
  · rw [hnone]
    rfl
  · rw [hone]
    rfl

theorem reportedOnCpu_switchOut {on : ℕ} (h : st.lastOnNs = some on) (hle : on ≤ ts) :
    reportedOnCpu (st.switchOut tid ts).2 = ts - on := by
  rcases hle.lt_or_eq with hlt | rfl
  · rw [switchOut_of_lt h hlt]
    exact Nat.add_zero _
  · rw [switchOut_of_le h le_rfl]
    exact (Nat.sub_self on).symm

end ThreadState

/-! ## The account of one thread -/

/-- The thread has not been switched in yet. -/
structure Unnamed (tid : UInt64) (ops : List TrackerOp) : Prop where
  first : firstSwitchIn tid ops = none
  last : lastNaming tid ops = none
  absent : ∀ cpu, currentOn ops cpu ≠ some tid
  on_closed : ((track ops).thread tid).lastOnNs = none
  off_closed : ((track ops).thread tid).lastOffNs = none
  on_zero : ((track ops).thread tid).totalOnNs = 0
  off_zero : ((track ops).thread tid).totalOffNs = 0
  emitted_zero : reportedOnCpu (emittedFor tid ops) = 0
  no_reselect : NoLateReselect tid ops

/-- The thread was first switched in at `first` and last named at `last`. -/
structure Account (tid : UInt64) (ops : List TrackerOp) (first last : ℕ) : Prop where
  first_eq : firstSwitchIn tid ops = some first
  last_eq : lastNaming tid ops = some last
  first_le : first ≤ last
  last_mem : last ∈ switchTimes ops
  /-- On a cpu with the on-CPU interval open from `last`, or on none with the off-CPU one open. -/
  place : (∃ cpu, currentOn ops cpu = some tid) ∧
        ((track ops).thread tid).lastOnNs = some last ∧
        ((track ops).thread tid).lastOffNs = none ∨
      (∀ cpu, currentOn ops cpu ≠ some tid) ∧
        ((track ops).thread tid).lastOnNs = none ∧
        ((track ops).thread tid).lastOffNs = some last
  total_le : ((track ops).thread tid).totalOnNs + ((track ops).thread tid).totalOffNs ≤
    last - first
  total_eq : ((track ops).thread tid).totalOnNs + ((track ops).thread tid).totalOffNs =
    last - first ↔ NoLateReselect tid ops
  emitted_eq : reportedOnCpu (emittedFor tid ops) = ((track ops).thread tid).totalOnNs

/-- Every switch time fits in 56 bits. -/
theorem lt_of_mem_switchTimes {ops : List TrackerOp} {ts : ℕ} (h : ts ∈ switchTimes ops) :
    ts < 2 ^ 56 := by
  obtain ⟨rec, -, rfl⟩ := List.mem_map.mp h
  exact rec.maskedTimestamp_lt

section Steps

variable {tid : UInt64} {ops : List TrackerOp} {op : TrackerOp} {rec : KdBuf} {first last : ℕ}

/-- A call that is no switch naming the thread leaves its account as it is. -/
theorem thread_of_not_named (htid : tid ≠ 0)
    (h : ∀ rec, op.switch? = some rec → ¬ Names tid ops rec) :
    ((track (ops ++ [op])).thread tid).lastOnNs = ((track ops).thread tid).lastOnNs ∧
      ((track (ops ++ [op])).thread tid).lastOffNs = ((track ops).thread tid).lastOffNs ∧
      ((track (ops ++ [op])).thread tid).totalOnNs = ((track ops).thread tid).totalOnNs ∧
      ((track (ops ++ [op])).thread tid).totalOffNs = ((track ops).thread tid).totalOffNs ∧
      reportedOnCpu (emittedFor tid (ops ++ [op])) = reportedOnCpu (emittedFor tid ops) := by
  rw [track_concat, emittedFor_concat, reportedOnCpu_append]
  cases hop : op.switch? with
  | none =>
      obtain ⟨hon, hoff, hton, htoff⟩ :=
        CpuIntervalTracker.thread_call_of_not_switch (s := track ops) hop tid
      rw [(CpuIntervalTracker.closedFor_of_not_switch hop tid).2]
      exact ⟨hon, hoff, hton, htoff, rfl⟩
  | some rec =>
      obtain ⟨rfl, hswitch⟩ := TrackerOp.switch?_eq_some.mp hop
      have hnames := h rec hop
      rw [names_iff htid, not_or] at hnames
      have hnone : (track ops).event tid (.feed rec) = none := by
        rw [CpuIntervalTracker.event, if_pos hswitch, if_neg hnames.1, if_neg hnames.2]
      rw [CpuIntervalTracker.thread_call, CpuIntervalTracker.closedFor, hnone]
      exact ⟨rfl, rfl, rfl, rfl, rfl⟩

/-- A switch that does not name the thread changes nothing that is said of it: neither its first and
last switch, nor where it runs. -/
theorem switchRecord_not_named (h : ∀ rec, op.switch? = some rec → ¬ Names tid ops rec) :
    firstSwitchIn tid (ops ++ [op]) = firstSwitchIn tid ops ∧
      lastNaming tid (ops ++ [op]) = lastNaming tid ops ∧
      (∀ cpu, currentOn (ops ++ [op]) cpu = some tid ↔ currentOn ops cpu = some tid) ∧
      (NoLateReselect tid (ops ++ [op]) ↔ NoLateReselect tid ops) := by
  rw [firstSwitchIn_concat, lastNaming_concat, currentOn_concat]
  cases hop : op.switch? with
  | none =>
      refine ⟨Option.or_none, rfl, fun _ => Iff.rfl, ?_⟩
      rw [NoLateReselect, stepwise_concat, and_iff_left]
      intro rec hrec
      rw [hop] at hrec
      cases hrec
  | some rec =>
      have hnames := h rec hop
      have hnot := hnames
      rw [Names, not_or] at hnot
      refine ⟨?_, if_neg hnames, ?_, ?_⟩
      · dsimp only
        rw [if_neg hnot.1, Option.or_none]
      · intro cpu
        dsimp only
        by_cases hcpu : cpu = rec.cpuid
        · subst hcpu
          rw [Function.update_self, Option.some.injEq]
          exact iff_of_false hnot.1 hnot.2
        · rw [Function.update_of_ne hcpu]
      · rw [NoLateReselect, stepwise_concat, and_iff_left]
        intro rec' hrec' harg _
        rw [hop] at hrec'
        cases hrec'
        exact absurd harg hnot.1

theorem Unnamed.of_not_named (h : Unnamed tid ops) (htid : tid ≠ 0)
    (hop : ∀ rec, op.switch? = some rec → ¬ Names tid ops rec) : Unnamed tid (ops ++ [op]) := by
  obtain ⟨hon, hoff, hton, htoff, hemitted⟩ := thread_of_not_named htid hop
  obtain ⟨hfirst, hlast, hplace, hreselect⟩ := switchRecord_not_named hop
  refine ⟨hfirst.trans h.first, hlast.trans h.last, ?_, hon.trans h.on_closed,
    hoff.trans h.off_closed, hton.trans h.on_zero, htoff.trans h.off_zero,
    hemitted.trans h.emitted_zero, hreselect.mpr h.no_reselect⟩
  exact fun cpu hcpu => h.absent cpu ((hplace cpu).mp hcpu)

theorem Account.of_not_named (h : Account tid ops first last) (htid : tid ≠ 0)
    (hop : ∀ rec, op.switch? = some rec → ¬ Names tid ops rec) :
    Account tid (ops ++ [op]) first last := by
  obtain ⟨hon, hoff, hton, htoff, hemitted⟩ := thread_of_not_named htid hop
  obtain ⟨hfirst, hlast, hplace, hreselect⟩ := switchRecord_not_named hop
  refine ⟨hfirst.trans h.first_eq, hlast.trans h.last_eq, h.first_le, ?_, ?_, ?_, ?_, ?_⟩
  · rw [switchTimes_concat]
    exact List.mem_append_left _ h.last_mem
  · simpa only [hon, hoff, ne_eq, hplace] using h.place
  · rw [hton, htoff]
    exact h.total_le
  · rw [hton, htoff, hreselect]
    exact h.total_eq
  · rw [hemitted, hton]
    exact h.emitted_eq

/-- What a switch that puts the thread on a cpu does to the records' view. -/
theorem records_entering (ops : List TrackerOp) (hswitch : IsSwitch rec) (harg : rec.arg2 = tid) :
    firstSwitchIn tid (ops ++ [.feed rec]) =
        (firstSwitchIn tid ops).or (some rec.maskedTimestamp) ∧
      lastNaming tid (ops ++ [.feed rec]) = some rec.maskedTimestamp ∧
      currentOn (ops ++ [.feed rec]) rec.cpuid = some tid ∧
      (NoLateReselect tid (ops ++ [.feed rec]) ↔ NoLateReselect tid ops ∧
        (currentOn ops rec.cpuid = some tid →
          lastNaming tid ops = some rec.maskedTimestamp)) := by
  have hop : (TrackerOp.feed rec).switch? = some rec := if_pos hswitch
  rw [firstSwitchIn_concat, lastNaming_concat, currentOn_concat, hop]
  refine ⟨?_, if_pos (Or.inl harg), ?_, ?_⟩
  · dsimp only
    rw [if_pos harg]
  · rw [← harg]
    exact Function.update_self ..
  · rw [NoLateReselect, stepwise_concat]
    apply and_congr_right
    intro _
    constructor
    · exact fun h => h rec hop harg
    · intro h rec' hrec' _ hcur
      rw [hop] at hrec'
      cases hrec'
      exact h hcur

theorem last_le (hsorted : (switchTimes (ops ++ [.feed rec])).Pairwise (· ≤ ·))
    (hswitch : IsSwitch rec) {ts : ℕ} (hts : ts ∈ switchTimes ops) : ts ≤ rec.maskedTimestamp := by
  have hop : (TrackerOp.feed rec).switch? = some rec := if_pos hswitch
  rw [switchTimes_concat, hop, List.pairwise_append] at hsorted
  exact hsorted.2.2 ts hts rec.maskedTimestamp (by simp)

theorem mem_switchTimes_feed (ops : List TrackerOp) (hswitch : IsSwitch rec) :
    rec.maskedTimestamp ∈ switchTimes (ops ++ [.feed rec]) := by
  have hop : (TrackerOp.feed rec).switch? = some rec := if_pos hswitch
  rw [switchTimes_concat, hop]
  simp

theorem thread_entering (ops : List TrackerOp) (hswitch : IsSwitch rec) (harg : rec.arg2 = tid)
    (htid : tid ≠ 0) :
    (track (ops ++ [.feed rec])).thread tid =
        (((track ops).thread tid).switchIn tid rec.maskedTimestamp).1 ∧
      reportedOnCpu (emittedFor tid (ops ++ [.feed rec])) =
        reportedOnCpu (emittedFor tid ops) := by
  have henter := CpuIntervalTracker.entering_eq_some.mpr ⟨harg, htid⟩
  have hevent := CpuIntervalTracker.event_entering (s := track ops) hswitch henter
  rw [track_concat, CpuIntervalTracker.thread_call, emittedFor_concat, reportedOnCpu_append,
    CpuIntervalTracker.closedFor, hevent]
  exact ⟨rfl, Nat.add_eq_left.mpr (ThreadState.reportedOnCpu_switchIn tid)⟩

theorem thread_leaving (hswitch : IsSwitch rec) (hleave : (track ops).leaving rec = some tid) :
    (track (ops ++ [.feed rec])).thread tid =
        (((track ops).thread tid).switchOut tid rec.maskedTimestamp).1 ∧
      reportedOnCpu (emittedFor tid (ops ++ [.feed rec])) =
        reportedOnCpu (emittedFor tid ops) +
          reportedOnCpu (((track ops).thread tid).switchOut tid rec.maskedTimestamp).2 := by
  have hevent := CpuIntervalTracker.event_leaving (s := track ops) hswitch hleave
  rw [track_concat, CpuIntervalTracker.thread_call, emittedFor_concat, reportedOnCpu_append,
    CpuIntervalTracker.closedFor, hevent]
  exact ⟨rfl, rfl⟩

/-- On a consistent trace, a thread that is current somewhere and is switched in was current on
that very cpu. -/
theorem currentOn_of_entering (hswitch : IsSwitch rec) (harg : rec.arg2 = tid) (htid : tid ≠ 0)
    (hconsistent : Consistent (ops ++ [.feed rec])) {cpu : UInt32}
    (hcpu : currentOn ops cpu = some tid) : currentOn ops rec.cpuid = some tid := by
  obtain ⟨-, -, hcur, -⟩ := records_entering ops hswitch harg
  by_cases hother : cpu = rec.cpuid
  · rw [← hother]
    exact hcpu
  · exfalso
    apply hother
    have hop : (TrackerOp.feed rec).switch? = some rec := if_pos hswitch
    have hstill : currentOn (ops ++ [.feed rec]) cpu = some tid := by
      rw [currentOn_concat, hop]
      dsimp only
      rw [Function.update_of_ne hother]
      exact hcpu
    exact hconsistent _ (List.prefix_refl _) _ _ tid htid hstill hcur

/-- The part of the account a switch-in always brings up to date. -/
theorem place_entering (ops : List TrackerOp) (hswitch : IsSwitch rec) (harg : rec.arg2 = tid)
    (htid : tid ≠ 0) :
    (∃ cpu, currentOn (ops ++ [.feed rec]) cpu = some tid) ∧
      ((track (ops ++ [.feed rec])).thread tid).lastOnNs = some rec.maskedTimestamp ∧
      ((track (ops ++ [.feed rec])).thread tid).lastOffNs = none := by
  obtain ⟨-, -, hcur, -⟩ := records_entering ops hswitch harg
  obtain ⟨hthread, -⟩ := thread_entering ops hswitch harg htid
  refine ⟨⟨rec.cpuid, hcur⟩, ?_, ?_⟩
  · rw [hthread, ThreadState.lastOnNs_switchIn]
  · rw [hthread, ThreadState.lastOffNs_switchIn]

/-- The first switch-in opens the account. -/
theorem Unnamed.enter (h : Unnamed tid ops) (hswitch : IsSwitch rec) (harg : rec.arg2 = tid)
    (htid : tid ≠ 0) :
    Account tid (ops ++ [.feed rec]) rec.maskedTimestamp rec.maskedTimestamp := by
  obtain ⟨hfirst, hlast, -, hreselect⟩ := records_entering ops hswitch harg
  obtain ⟨hthread, hreported⟩ := thread_entering ops hswitch harg htid
  obtain ⟨hton, htoff⟩ := ThreadState.totals_switchIn_of_none tid rec.maskedTimestamp
    h.off_closed
  rw [h.on_zero] at hton
  rw [h.off_zero] at htoff
  rw [h.first, Option.none_or] at hfirst
  have hplace := place_entering ops hswitch harg htid
  refine ⟨hfirst, hlast, le_rfl, mem_switchTimes_feed _ hswitch, Or.inl hplace, ?_, ?_, ?_⟩
  · rw [hthread, hton, htoff]
    exact Nat.zero_le _
  · rw [hthread, hton, htoff, hreselect]
    refine iff_of_true (Nat.sub_self _).symm ⟨h.no_reselect, ?_⟩
    exact fun hcpu => absurd hcpu (h.absent rec.cpuid)
  · rw [hreported, h.emitted_zero, hthread, hton]

/-- Coming back on a cpu closes the off-CPU interval; being re-selected closes nothing. -/
theorem Account.enter (h : Account tid ops first last) (hswitch : IsSwitch rec)
    (harg : rec.arg2 = tid) (htid : tid ≠ 0)
    (hsorted : (switchTimes (ops ++ [.feed rec])).Pairwise (· ≤ ·))
    (hconsistent : Consistent (ops ++ [.feed rec])) :
    Account tid (ops ++ [.feed rec]) first rec.maskedTimestamp := by
  obtain ⟨hfirst, hlast, -, hreselect⟩ := records_entering ops hswitch harg
  obtain ⟨hthread, hreported⟩ := thread_entering ops hswitch harg htid
  have hle : last ≤ rec.maskedTimestamp := last_le hsorted hswitch h.last_mem
  have hfirst_le := h.first_le
  have htotal := h.total_le
  have hsmall := lt_of_mem_switchTimes (mem_switchTimes_feed ops hswitch)
  have hplace := place_entering ops hswitch harg htid
  rw [h.first_eq, Option.some_or] at hfirst
  rcases h.place with ⟨⟨cpu, hcpu⟩, hon, hoff⟩ | ⟨habsent, hon, hoff⟩
  · -- re-selected: nothing is closed, so the account is right only if no time has passed
    have hsame := currentOn_of_entering hswitch harg htid hconsistent hcpu
    obtain ⟨hton, htoff⟩ := ThreadState.totals_switchIn_of_none tid rec.maskedTimestamp hoff
    refine ⟨hfirst, hlast, by omega, mem_switchTimes_feed _ hswitch, Or.inl hplace, ?_, ?_, ?_⟩
    · rw [hthread, hton, htoff]
      omega
    · rw [hthread, hton, htoff, hreselect, ← h.total_eq, h.last_eq, Option.some.injEq]
      constructor
      · intro heq
        exact ⟨by omega, fun _ => by omega⟩
      · rintro ⟨heq, hlate⟩
        have := hlate hsame
        omega
    · rw [hreported, h.emitted_eq, hthread, hton]
  · -- back from off-CPU: the time since `last` goes to the off-CPU total
    obtain ⟨hton, htoff⟩ := ThreadState.totals_switchIn_of_some tid hoff hle (by omega)
    refine ⟨hfirst, hlast, by omega, mem_switchTimes_feed _ hswitch, Or.inl hplace, ?_, ?_, ?_⟩
    · rw [hthread, hton, htoff]
      omega
    · rw [hthread, hton, htoff, hreselect, ← h.total_eq]
      constructor
      · intro heq
        exact ⟨by omega, fun hcpu => absurd hcpu (habsent rec.cpuid)⟩
      · rintro ⟨heq, -⟩
        omega
    · rw [hreported, h.emitted_eq, hthread, hton]

/-- Leaving the cpu closes the on-CPU interval. -/
theorem Account.leave (h : Account tid ops first last) (hswitch : IsSwitch rec)
    (hleave : (track ops).leaving rec = some tid)
    (hsorted : (switchTimes (ops ++ [.feed rec])).Pairwise (· ≤ ·))
    (hconsistent : Consistent ops) :
    Account tid (ops ++ [.feed rec]) first rec.maskedTimestamp := by
  obtain ⟨hthread, hreported⟩ := thread_leaving hswitch hleave
  obtain ⟨hcpu, htid, hne⟩ := CpuIntervalTracker.leaving_eq_some.mp hleave
  rw [onCpu_track] at hcpu
  have hop : (TrackerOp.feed rec).switch? = some rec := if_pos hswitch
  have hle : last ≤ rec.maskedTimestamp := last_le hsorted hswitch h.last_mem
  have hfirst_le := h.first_le
  have htotal := h.total_le
  have hsmall := lt_of_mem_switchTimes (mem_switchTimes_feed ops hswitch)
  -- the thread is current here, so its on-CPU interval is open
  obtain ⟨hon, hoff⟩ : ((track ops).thread tid).lastOnNs = some last ∧
      ((track ops).thread tid).lastOffNs = none := by
    rcases h.place with ⟨-, hopen⟩ | ⟨habsent, -⟩
    · exact hopen
    · exact absurd hcpu (habsent rec.cpuid)
  obtain ⟨hton, htoff⟩ := ThreadState.totals_switchOut_of_some tid hon hle (by omega)
  refine ⟨?_, ?_, by omega, mem_switchTimes_feed _ hswitch, Or.inr ⟨?_, ?_, ?_⟩, ?_, ?_, ?_⟩
  · rw [firstSwitchIn_concat, hop, h.first_eq]
    rfl
  · rw [lastNaming_concat, hop]
    exact if_pos (Or.inr hcpu)
  · intro cpu hcur
    rw [currentOn_concat, hop] at hcur
    dsimp only at hcur
    by_cases hother : cpu = rec.cpuid
    · rw [hother, Function.update_self, Option.some.injEq] at hcur
      exact hne hcur.symm
    · rw [Function.update_of_ne hother] at hcur
      exact hother (hconsistent ops (List.prefix_refl _) _ _ tid htid hcur hcpu)
  · rw [hthread, ThreadState.lastOnNs_switchOut]
  · rw [hthread, ThreadState.lastOffNs_switchOut]
  · rw [hthread, hton, htoff]
    omega
  · -- leaving is no re-selection
    rw [hthread, hton, htoff, NoLateReselect, stepwise_concat, and_iff_left]
    · rw [← NoLateReselect, ← h.total_eq]
      omega
    · intro rec' hrec' harg _
      rw [hop] at hrec'
      cases hrec'
      exact absurd harg.symm hne
  · rw [hreported, h.emitted_eq, ThreadState.reportedOnCpu_switchOut tid hon hle, hthread, hton]

end Steps

/-! ## The law -/

/-- On a consistent trace every thread has an account, or has not been named yet. -/
theorem unnamed_or_account {tid : UInt64} (htid : tid ≠ 0) {ops : List TrackerOp}
    (hsorted : (switchTimes ops).Pairwise (· ≤ ·)) (hconsistent : Consistent ops) :
    Unnamed tid ops ∨ ∃ first last, Account tid ops first last := by
  induction ops using List.reverseRecOn with
  | nil =>
      exact Or.inl ⟨rfl, rfl, fun _ h => (nomatch h), rfl, rfl, rfl, rfl, rfl, stepwise_nil⟩
  | append_singleton ops op ih =>
      have hsorted' : (switchTimes ops).Pairwise (· ≤ ·) := by
        rw [switchTimes_concat, List.pairwise_append] at hsorted
        exact hsorted.1
      have hih := ih hsorted' hconsistent.of_concat
      -- only a switch that names the thread moves its account
      by_cases hnamed : ∃ rec, op.switch? = some rec ∧ Names tid ops rec
      · obtain ⟨rec, hop, hnames⟩ := hnamed
        obtain ⟨rfl, hswitch⟩ := TrackerOp.switch?_eq_some.mp hop
        rcases (names_iff htid).mp hnames with henter | hleave
        · have harg := (CpuIntervalTracker.entering_eq_some.mp henter).1
          rcases hih with h | ⟨first, last, h⟩
          · exact Or.inr ⟨_, _, h.enter hswitch harg htid⟩
          · exact Or.inr ⟨_, _, h.enter hswitch harg htid hsorted hconsistent⟩
        · rcases hih with h | ⟨first, last, h⟩
          · -- a thread never switched in is current nowhere, so it cannot leave
            have hcpu := (CpuIntervalTracker.leaving_eq_some.mp hleave).1
            rw [onCpu_track] at hcpu
            exact absurd hcpu (h.absent rec.cpuid)
          · exact Or.inr ⟨_, _, h.leave hswitch hleave hsorted hconsistent.of_concat⟩
      · have hnot : ∀ rec, op.switch? = some rec → ¬ Names tid ops rec :=
          fun rec hrec hnames => hnamed ⟨rec, hrec, hnames⟩
        rcases hih with h | ⟨first, last, h⟩
        · exact Or.inl (h.of_not_named htid hnot)
        · exact Or.inr ⟨_, _, h.of_not_named htid hnot⟩

/-- No scheduler time is lost exactly when no cpu is switched late to the thread it already runs:
then, and only then, the two totals make up the time from the first switch-in to the last switch
that names the thread, with the emitted on-CPU intervals making up `totalOnNs`. -/
theorem time_conserved_iff {tid : UInt64} (htid : tid ≠ 0) {ops : List TrackerOp}
    (hsorted : (switchTimes ops).Pairwise (· ≤ ·)) (hconsistent : Consistent ops)
    {first last : ℕ} (hfirst : firstSwitchIn tid ops = some first)
    (hlast : lastNaming tid ops = some last) :
    (((track ops).thread tid).totalOnNs + ((track ops).thread tid).totalOffNs = last - first ∧
      reportedOnCpu (emittedFor tid ops) = ((track ops).thread tid).totalOnNs) ↔
      NoLateReselect tid ops := by
  rcases unnamed_or_account htid hsorted hconsistent with h | ⟨first', last', h⟩
  · rw [h.first] at hfirst
    cases hfirst
  · rw [h.first_eq] at hfirst
    rw [h.last_eq] at hlast
    cases hfirst
    cases hlast
    rw [and_iff_left h.emitted_eq]
    exact h.total_eq

/-! ## A cpu that re-selects its thread -/

theorem consistent_of_one_cpu {ops : List TrackerOp} {cpu : UInt32}
    (h : ∀ rec ∈ switchRecords ops, rec.cpuid = cpu) : Consistent ops := by
  rintro pre ⟨post, rfl⟩ c₁ c₂ tid _ h₁ h₂
  have hone : ∀ c, currentOn pre c = some tid → c = cpu := by
    intro c hc
    obtain ⟨rec, hrec, rfl, -⟩ := exists_of_currentOn hc
    apply h rec
    rw [switchRecords, List.filterMap_append]
    exact List.mem_append_left _ hrec
  rw [hone c₁ h₁, hone c₂ h₂]

/-- Cpu 0 runs thread 7 from 0, re-selects it at 10 and leaves it at 20. -/
def reselectRun : List TrackerOp :=
  [.feed (switchRecord 0 0 7), .feed (switchRecord 10 0 7), .feed (switchRecord 20 0 0)]

/-- Thread 7 ran for 20 ns; 10 of them are counted. -/
theorem reselectRun_loses_time :
    (switchTimes reselectRun).Pairwise (· ≤ ·) ∧ Consistent reselectRun ∧
      firstSwitchIn 7 reselectRun = some 0 ∧ lastNaming 7 reselectRun = some 20 ∧
      ¬ (((track reselectRun).thread 7).totalOnNs + ((track reselectRun).thread 7).totalOffNs =
          20 - 0 ∧
        reportedOnCpu (emittedFor 7 reselectRun) = ((track reselectRun).thread 7).totalOnNs) := by
  have hcpu : ∀ rec ∈ switchRecords reselectRun, rec.cpuid = 0 := by decide +kernel
  refine ⟨by decide +kernel, consistent_of_one_cpu hcpu, by decide +kernel, by decide +kernel, ?_⟩
  decide +kernel

/-- Cpu 0 runs thread 7 from 0 to 20 and again from 50 to 60. -/
def backAndForthRun : List TrackerOp :=
  [.feed (switchRecord 0 0 7), .feed (switchRecord 20 0 9), .feed (switchRecord 50 0 7),
    .feed (switchRecord 60 0 0)]

theorem time_conserved_backAndForthRun : NoLateReselect 7 backAndForthRun := by
  have hcpu : ∀ rec ∈ switchRecords backAndForthRun, rec.cpuid = 0 := by decide +kernel
  have hfirst : firstSwitchIn 7 backAndForthRun = some 0 := by decide +kernel
  have hlast : lastNaming 7 backAndForthRun = some 60 := by decide +kernel
  exact (time_conserved_iff (by decide) (by decide +kernel) (consistent_of_one_cpu hcpu) hfirst
    hlast).mp (by decide +kernel)

end Stax.Kperf
