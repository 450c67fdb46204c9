/-
# Stax.Live.SessionAnchor — the two anchors of a recording.

Every recorded time raises the last event to at least itself.  The session start, to which all times
are shown relative, is the time noted first and stays there, whatever comes later with an earlier
time.  So it lies before everything that was recorded exactly when the first call carries the
earliest time.
-/
import Stax.Live.Timeline

namespace Stax.Live

namespace Aggregator

/-- Where an event starts: a sample's or a wakeup's timestamp, an interval's start. -/
def Event.startTime : Event → ℕ
  | .petSample _ s => s.timestampNs
  | .interval _ iv => iv.startNs
  | .wakeup _ w => w.timestampNs

/-- What was recorded lies between the anchors: nothing starts before the session start, and nothing
is later than the last event. -/
structure Anchored (agg : Aggregator) (log : List Event) : Prop where
  start : ∀ event ∈ log, ∃ start, agg.sessionStartNs = some start ∧ start ≤ event.startTime
  last : ∀ event ∈ log, ∀ ts ∈ event.times, ∃ last, agg.lastEventNs = some last ∧ ts ≤ last

/-! ## One call -/

theorem sessionStartNs_noteTimestamp {self : Aggregator} {ts : ℕ} (hts : ts ≠ 0) :
    (self.noteTimestamp ts).sessionStartNs = some (self.sessionStartNs.getD ts) := by
  rw [noteTimestamp, if_neg hts]

/-- A later time never moves the session start. -/
theorem sessionStartNs_noteTimestamp_some {self : Aggregator} {start : ℕ}
    (hstart : self.sessionStartNs = some start) (ts : ℕ) :
    (self.noteTimestamp ts).sessionStartNs = some start := by
  unfold noteTimestamp
  split
  · exact hstart
  · show some (self.sessionStartNs.getD ts) = some start
    rw [hstart]
    rfl

theorem sessionStartNs_record (self : Aggregator) {event : Event} (hstart : event.startTime ≠ 0) :
    (self.record event).sessionStartNs = some (self.sessionStartNs.getD event.startTime) := by
  cases event with
  | petSample tid sample => exact sessionStartNs_noteTimestamp hstart
  | interval tid interval =>
      exact sessionStartNs_noteTimestamp_some (sessionStartNs_noteTimestamp hstart) interval.endNs
  | wakeup wakeeTid wakeup => exact sessionStartNs_noteTimestamp hstart

/-- A call raises `now` to the times it carries and never lowers it. -/
theorem le_now_record (self : Aggregator) (event : Event) :
    self.now ≤ (self.record event).now ∧ ∀ ts ∈ event.times, ts ≤ (self.record event).now := by
  cases event with
  | petSample tid sample =>
      have hnow : (self.record (.petSample tid sample)).now = max self.now sample.timestampNs :=
        now_noteTimestamp self sample.timestampNs
      simp only [Event.times, List.mem_singleton, forall_eq]
      omega
  | interval tid interval =>
      have hstart := now_noteTimestamp self interval.startNs
      have hnow : (self.record (.interval tid interval)).now =
          max (self.noteTimestamp interval.startNs).now interval.endNs :=
        now_noteTimestamp (self.noteTimestamp interval.startNs) interval.endNs
      simp only [Event.times, List.forall_mem_cons, List.not_mem_nil, false_imp_iff, implies_true,
        and_true]
      omega
  | wakeup wakeeTid wakeup =>
      have hnow : (self.record (.wakeup wakeeTid wakeup)).now = max self.now wakeup.timestampNs :=
        now_noteTimestamp self wakeup.timestampNs
      simp only [Event.times, List.mem_singleton, forall_eq]
      omega

theorem lastEventNs_record (self : Aggregator) {event : Event} (hstart : event.startTime ≠ 0) :
    (self.record event).lastEventNs = some (self.record event).now := by
  have hnote (agg : Aggregator) (ts : ℕ) (h : ts ≠ 0 ∨ agg.lastEventNs = some agg.now) :
      (agg.noteTimestamp ts).lastEventNs = some (agg.noteTimestamp ts).now := by
    by_cases hts : ts = 0
    · rw [noteTimestamp, if_pos hts]
      exact h.resolve_left (not_not.mpr hts)
    · rw [now, noteTimestamp, if_neg hts]
      rfl
  cases event with
  | petSample tid sample => exact hnote self sample.timestampNs (Or.inl hstart)
  | interval tid interval =>
      exact hnote _ interval.endNs (Or.inr (hnote self interval.startNs (Or.inl hstart)))
  | wakeup wakeeTid wakeup => exact hnote self wakeup.timestampNs (Or.inl hstart)

/-! ## A whole log -/

/-- The session start is where the first event starts. -/
theorem sessionStartNs_replay {log : List Event} (hlog : ∀ event ∈ log, event.startTime ≠ 0) :
    (replay log).sessionStartNs = log.head?.map Event.startTime := by
  induction log using List.reverseRecOn with
  | nil => rfl
  | append_singleton log event ih =>
      rw [List.forall_mem_append] at hlog
      have hevent := hlog.2 event (List.mem_singleton_self event)
      rw [replay, List.foldl_concat, ← replay, sessionStartNs_record _ hevent, ih hlog.1]
      cases log with
      | nil => rfl
      | cons first rest => rfl

/-- The last event is no earlier than anything recorded. -/
theorem lastEventNs_replay {log : List Event} (hlog : ∀ event ∈ log, event.startTime ≠ 0) :
    ∀ event ∈ log, ∀ ts ∈ event.times,
      ∃ last, (replay log).lastEventNs = some last ∧ ts ≤ last := by
  have hnow : ∀ event ∈ log, ∀ ts ∈ event.times, ts ≤ (replay log).now := by
    clear hlog
    induction log using List.reverseRecOn with
    | nil =>
        intro event hevent
        cases hevent
    | append_singleton log event ih =>
        obtain ⟨hle, htimes⟩ := le_now_record (replay log) event
        rw [replay, List.foldl_concat, ← replay]
        intro e he ts hts
        rcases List.mem_append.mp he with he | he
        · exact (ih e he ts hts).trans hle
        · rw [List.mem_singleton.mp he] at hts
          exact htimes ts hts
  intro event hevent ts hts
  refine ⟨(replay log).now, ?_, hnow event hevent ts hts⟩
  rcases List.eq_nil_or_concat log with rfl | ⟨init, final, rfl⟩
  · cases hevent
  · rw [List.concat_eq_append] at hlog ⊢
    rw [replay, List.foldl_concat, ← replay]
    exact lastEventNs_record _ (hlog final (by simp))

/-- The anchors hold what was recorded, after any calls in any order, exactly when no call starts
earlier than the first one. -/
theorem session_anchored_iff (log : List Event) (hlog : ∀ event ∈ log, event.startTime ≠ 0) :
    (replay log).Anchored log ↔
      ∀ first ∈ log.head?, ∀ event ∈ log, first.startTime ≤ event.startTime := by
  have hsession := sessionStartNs_replay hlog
  constructor
  · intro h first hfirst event hevent
    obtain ⟨start, hstart, hle⟩ := h.start event hevent
    rw [hsession, Option.mem_def.mp hfirst, Option.map_some, Option.some.injEq] at hstart
    rwa [hstart]
  · intro h
    refine ⟨fun event hevent => ?_, lastEventNs_replay hlog⟩
    obtain ⟨first, rest, rfl⟩ := List.exists_cons_of_ne_nil (List.ne_nil_of_mem hevent)
    exact ⟨first.startTime, hsession, h first rfl event hevent⟩

/-- A batch delivers its samples first, then an interval that began before them. -/
def samplesFirst : List Event :=
  [.petSample 1 { timestampNs := 15, stack := [] },
    .interval 1 { startNs := 10, endNs := 20, kind := .onCpu }]

/-- The interval starts before the session. -/
theorem samplesFirst_not_anchored : ¬ (replay samplesFirst).Anchored samplesFirst := by
  intro h
  obtain ⟨start, hstart, hle⟩ := h.start (.interval 1 { startNs := 10, endNs := 20, kind := .onCpu })
    (by simp [samplesFirst])
  obtain rfl : 15 = start := Option.some.inj hstart
  exact absurd hle (by decide)

/-- An interval and a sample inside it, in the order of their starts. -/
def startsFirst : List Event :=
  [.interval 1 { startNs := 10, endNs := 20, kind := .onCpu },
    .petSample 1 { timestampNs := 15, stack := [] }]

theorem session_anchored_iff_startsFirst :
    (replay startsFirst).Anchored startsFirst ∧ (replay startsFirst).sessionStartNs = some 10 := by
  refine ⟨(session_anchored_iff startsFirst (by simp [startsFirst, Event.startTime])).mpr ?_, rfl⟩
  simp [startsFirst, Event.startTime]

end Aggregator

end Stax.Live
