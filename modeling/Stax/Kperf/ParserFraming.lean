/-
# Stax.Kperf.ParserFraming — where samples come from.

A sample is open after a list of records when the list ends with a START and records that are
neither START nor END (`OpenSample`).  The parser tracks exactly this: it is inside a sample iff one
is open, a START makes everything but the counters of `stats` a function of that START alone, and
so the sample an END emits is the one a new parser emits on the bracket by itself.
-/
import Stax.Kperf.Parser

namespace Stax.Kperf

open Stax.Lib

/-! ## Brackets in a record stream -/

/-- The record opens a sample. -/
def IsSampleStart (rec : KdBuf) : Prop := eventOf rec = .sampleStart

/-- The record closes a sample. -/
def IsSampleEnd (rec : KdBuf) : Prop := eventOf rec = .sampleEnd

instance : DecidablePred IsSampleStart := fun rec => inferInstanceAs (Decidable (eventOf rec = _))

instance : DecidablePred IsSampleEnd := fun rec => inferInstanceAs (Decidable (eventOf rec = _))

/-- Neither a START nor an END. -/
def Inner (rec : KdBuf) : Prop := ¬ IsSampleStart rec ∧ ¬ IsSampleEnd rec

instance : DecidablePred Inner := fun rec =>
  inferInstanceAs (Decidable (¬ IsSampleStart rec ∧ ¬ IsSampleEnd rec))

theorem not_isSampleStart_of_isSampleEnd {rec : KdBuf} (h : IsSampleEnd rec) :
    ¬ IsSampleStart rec := by
  intro hs
  rw [IsSampleStart, show eventOf rec = .sampleEnd from h] at hs
  exact KperfEvent.noConfusion hs

/-- Every record is a START, an END or inner. -/
theorem start_or_end_or_inner (rec : KdBuf) :
    IsSampleStart rec ∨ IsSampleEnd rec ∨ Inner rec := by
  by_cases hs : IsSampleStart rec
  · exact Or.inl hs
  · by_cases he : IsSampleEnd rec
    · exact Or.inr (Or.inl he)
    · exact Or.inr (Or.inr ⟨hs, he⟩)

/-- After `recs` the sample that `start` opened is still open, with `body` read so far. -/
def OpenSample (recs : List KdBuf) (start : KdBuf) (body : List KdBuf) : Prop :=
  IsSampleStart start ∧ (∀ rec ∈ body, Inner rec) ∧ ∃ pre, recs = pre ++ start :: body

theorem openSample_start (recs : List KdBuf) {rec : KdBuf} (h : IsSampleStart rec) :
    OpenSample (recs ++ [rec]) rec [] :=
  ⟨h, by simp, recs, rfl⟩

theorem OpenSample.concat {recs : List KdBuf} {start : KdBuf} {body : List KdBuf} {rec : KdBuf}
    (h : OpenSample recs start body) (hrec : Inner rec) :
    OpenSample (recs ++ [rec]) start (body ++ [rec]) := by
  obtain ⟨hstart, hbody, pre, rfl⟩ := h
  refine ⟨hstart, ?_, pre, by simp⟩
  intro r hr
  rcases List.mem_append.mp hr with hr | hr
  · exact hbody r hr
  · rw [List.mem_singleton.mp hr]
    exact hrec

section

variable (stripCodePtr : UInt64 → UInt64)

/-! ## One record -/

/-- Everything the next sample is made of: the parser without its statistics. -/
def Parser.core (p : Parser) : Parser := { p with stats := {} }

/-- The statistics are write-only: they influence neither the core nor the emitted sample. -/
theorem feed_core (p : Parser) (rec : KdBuf) :
    (p.feed stripCodePtr rec).1.core = (p.core.feed stripCodePtr rec).1.core ∧
      (p.feed stripCodePtr rec).2 = (p.core.feed stripCodePtr rec).2 := by
  unfold Parser.feed
  by_cases hwhere : rec.arg1 = Perf.csKsample.toUInt64 <;> cases eventOf rec <;>
    cases hs : p.state <;> simp [Parser.core, hs, hwhere, ParserState.isInSample]

theorem feed_eq_of_core_eq {p q : Parser} (h : p.core = q.core) (rec : KdBuf) :
    (p.feed stripCodePtr rec).1.core = (q.feed stripCodePtr rec).1.core ∧
      (p.feed stripCodePtr rec).2 = (q.feed stripCodePtr rec).2 := by
  obtain ⟨hp, hp'⟩ := feed_core stripCodePtr p rec
  obtain ⟨hq, hq'⟩ := feed_core stripCodePtr q rec
  rw [hp, hp', hq, hq', h]
  exact ⟨rfl, rfl⟩

/-- A START forgets everything read before it. -/
theorem feed_start {rec : KdBuf} (h : IsSampleStart rec) (p q : Parser) :
    (p.feed stripCodePtr rec).1.core = (q.feed stripCodePtr rec).1.core ∧
      (p.feed stripCodePtr rec).1.state = .inSample rec.arg5.toUInt32 rec.maskedTimestamp ∧
      (p.feed stripCodePtr rec).2 = none := by
  have h' : eventOf rec = .sampleStart := h
  simp [Parser.feed, h', Parser.core]

theorem feed_inner {rec : KdBuf} (h : Inner rec) (p : Parser) :
    (p.feed stripCodePtr rec).1.state = p.state ∧ (p.feed stripCodePtr rec).2 = none := by
  obtain ⟨hs, he⟩ := h
  unfold Parser.feed
  cases hev : eventOf rec with
  | sampleStart => exact absurd hev hs
  | sampleEnd => exact absurd hev he
  | other => exact ⟨rfl, rfl⟩
  | _ => dsimp only; split <;> exact ⟨rfl, rfl⟩

theorem feed_end {rec : KdBuf} (h : IsSampleEnd rec) (p : Parser) :
    (p.feed stripCodePtr rec).1.state = .idle ∧
      ((p.feed stripCodePtr rec).2.isSome = true ↔ p.state.isInSample = true) := by
  have h' : eventOf rec = .sampleEnd := h
  cases hs : p.state <;> simp [Parser.feed, h', hs, ParserState.isInSample]

/-- What an END emits carries the thread and the time the open sample was started with. -/
theorem feed_end_sample {rec : KdBuf} (h : IsSampleEnd rec) {p : Parser} {tid : UInt32} {ts : ℕ}
    (hs : p.state = .inSample tid ts) :
    ∃ s, (p.feed stripCodePtr rec).2 = some s ∧ s.tid = tid ∧ s.timestampNs = ts := by
  have h' : eventOf rec = .sampleEnd := h
  simp [Parser.feed, h', hs]

/-- Only an END emits, and only inside a sample. -/
theorem isSampleEnd_of_feed_eq_some {p : Parser} {rec : KdBuf} {s : Sample}
    (h : (p.feed stripCodePtr rec).2 = some s) :
    IsSampleEnd rec ∧ p.state = .inSample s.tid s.timestampNs := by
  rcases start_or_end_or_inner rec with hrec | hrec | hrec
  · rw [(feed_start stripCodePtr hrec p p).2.2] at h
    exact absurd h (by simp)
  · refine ⟨hrec, ?_⟩
    cases hs : p.state with
    | idle =>
        have hsome := (feed_end stripCodePtr hrec p).2
        rw [h, hs] at hsome
        simp [ParserState.isInSample] at hsome
    | inSample tid ts =>
        obtain ⟨s', hs', htid, hts⟩ := feed_end_sample stripCodePtr hrec hs
        rw [h] at hs'
        rw [Option.some.inj hs', htid, hts]
  · rw [(feed_inner stripCodePtr hrec p).2] at h
    exact absurd h (by simp)

/-! ## Runs -/

theorem parse_concat (recs : List KdBuf) (rec : KdBuf) :
    parse stripCodePtr (recs ++ [rec]) = ((parse stripCodePtr recs).feed stripCodePtr rec).1 :=
  (parser stripCodePtr).run_concat Parser.new recs rec

theorem samples_concat (recs : List KdBuf) (rec : KdBuf) :
    samples stripCodePtr (recs ++ [rec]) =
      samples stripCodePtr recs ++ ((parse stripCodePtr recs).feed stripCodePtr rec).2.toList :=
  (parser stripCodePtr).outputs_concat Parser.new recs rec

/-- Inner records leave the state alone. -/
theorem run_inner {p : Parser} {body : List KdBuf} (h : ∀ rec ∈ body, Inner rec) :
    ((parser stripCodePtr).run p body).state = p.state :=
  (parser stripCodePtr).run_invariant (I := fun q => q.state = p.state) rfl
    fun rec hrec q hq => ((feed_inner stripCodePtr (h rec hrec) q).1).trans hq

theorem outputs_inner {p : Parser} {body : List KdBuf} (h : ∀ rec ∈ body, Inner rec) :
    (parser stripCodePtr).outputs p body = [] :=
  (parser stripCodePtr).outputs_eq_nil fun rec hrec q => by
    rw [parser_emit, (feed_inner stripCodePtr (h rec hrec) q).2]
    rfl

/-- Two parsers with one core stay that way and emit the same. -/
theorem lockstep_of_core_eq {p q : Parser} (h : p.core = q.core) (recs : List KdBuf) :
    ((parser stripCodePtr).run p recs).core = ((parser stripCodePtr).run q recs).core ∧
      (parser stripCodePtr).outputs p recs = (parser stripCodePtr).outputs q recs :=
  (parser stripCodePtr).outputs_eq_of_lockstep (parser stripCodePtr)
    (R := fun a b => a.core = b.core) h fun rec _ a b hab => by
      obtain ⟨hcore, hout⟩ := feed_eq_of_core_eq stripCodePtr hab rec
      exact ⟨hcore, by rw [parser_emit, parser_emit, hout]⟩

/-- A START cuts the past off: from it on, every parser emits what a new one emits. -/
theorem outputs_start {start : KdBuf} (h : IsSampleStart start) (p : Parser)
    (recs : List KdBuf) :
    (parser stripCodePtr).outputs p (start :: recs) = samples stripCodePtr (start :: recs) := by
  rw [samples, Transducer.outputs_cons, Transducer.outputs_cons, parser_emit, parser_emit,
    (feed_start stripCodePtr h p p).2.2, (feed_start stripCodePtr h Parser.new p).2.2]
  exact (lockstep_of_core_eq stripCodePtr (feed_start stripCodePtr h p Parser.new).1 recs).2

/-- The parser's core while a sample is open is that of a new parser fed the open bracket. -/
theorem OpenSample.core_eq {recs : List KdBuf} {start : KdBuf} {body : List KdBuf}
    (h : OpenSample recs start body) :
    (parse stripCodePtr recs).core = (parse stripCodePtr (start :: body)).core := by
  obtain ⟨hstart, -, pre, rfl⟩ := h
  rw [parse, Transducer.run_append, Transducer.run_cons, parse, Transducer.run_cons]
  exact (lockstep_of_core_eq stripCodePtr (feed_start stripCodePtr hstart _ Parser.new).1 body).1

theorem OpenSample.state_eq {recs : List KdBuf} {start : KdBuf} {body : List KdBuf}
    (h : OpenSample recs start body) :
    (parse stripCodePtr recs).state = .inSample start.arg5.toUInt32 start.maskedTimestamp := by
  obtain ⟨hstart, hbody, pre, rfl⟩ := h
  rw [parse, Transducer.run_append, Transducer.run_cons, run_inner stripCodePtr hbody]
  exact (feed_start stripCodePtr hstart _ Parser.new).2.1

/-- Inside a sample, there is an open bracket. -/
theorem exists_openSample {recs : List KdBuf} {tid : UInt32} {ts : ℕ}
    (h : (parse stripCodePtr recs).state = .inSample tid ts) :
    ∃ start body, OpenSample recs start body := by
  induction recs using List.reverseRecOn with
  | nil => exact ParserState.noConfusion h
  | append_singleton recs rec ih =>
      rw [parse_concat] at h
      rcases start_or_end_or_inner rec with hrec | hrec | hrec
      · exact ⟨rec, [], openSample_start recs hrec⟩
      · rw [(feed_end stripCodePtr hrec _).1] at h
        exact ParserState.noConfusion h
      · rw [(feed_inner stripCodePtr hrec _).1] at h
        obtain ⟨start, body, hopen⟩ := ih h
        exact ⟨start, body ++ [rec], hopen.concat hrec⟩

/-- The bracket `start :: body ++ [stop]` fed to a new parser emits exactly what its END emits. -/
theorem samples_bracket {start stop : KdBuf} {body : List KdBuf} (hstart : IsSampleStart start)
    (hbody : ∀ rec ∈ body, Inner rec) :
    samples stripCodePtr (start :: body ++ [stop]) =
      ((parse stripCodePtr (start :: body)).feed stripCodePtr stop).2.toList := by
  rw [samples_concat]
  have hnil : samples stripCodePtr (start :: body) = [] := by
    rw [samples, Transducer.outputs_cons, parser_emit,
      (feed_start stripCodePtr hstart Parser.new Parser.new).2.2, outputs_inner stripCodePtr hbody]
    rfl
  rw [hnil, List.nil_append]

/-- While a sample is open, an END emits what it emits on the bracket alone. -/
theorem OpenSample.feed_eq {recs : List KdBuf} {start : KdBuf} {body : List KdBuf}
    (h : OpenSample recs start body) (stop : KdBuf) :
    ((parse stripCodePtr recs).feed stripCodePtr stop).2.toList =
      samples stripCodePtr (start :: body ++ [stop]) := by
  rw [samples_bracket stripCodePtr h.1 h.2.1]
  rw [(feed_eq_of_core_eq stripCodePtr (h.core_eq stripCodePtr) stop).2]

/-- A record emits a sample iff it is an END and a bracket is open. -/
theorem feed_isSome_iff (recs : List KdBuf) (rec : KdBuf) :
    ((parse stripCodePtr recs).feed stripCodePtr rec).2.isSome = true ↔
      IsSampleEnd rec ∧ ∃ start body, OpenSample recs start body := by
  constructor
  · intro h
    obtain ⟨s, hs⟩ := Option.isSome_iff_exists.mp h
    obtain ⟨hend, hstate⟩ := isSampleEnd_of_feed_eq_some stripCodePtr hs
    exact ⟨hend, exists_openSample stripCodePtr hstate⟩
  · rintro ⟨hend, start, body, hopen⟩
    rw [(feed_end stripCodePtr hend _).2, hopen.state_eq stripCodePtr]
    rfl

/-- The emitted sample is the open bracket's: its thread, its time, and what a new parser makes of
the bracket alone. -/
theorem OpenSample.sample_eq {recs : List KdBuf} {start : KdBuf} {body : List KdBuf}
    (h : OpenSample recs start body) {rec : KdBuf} {s : Sample}
    (hs : ((parse stripCodePtr recs).feed stripCodePtr rec).2 = some s) :
    s.tid = start.arg5.toUInt32 ∧ s.timestampNs = start.maskedTimestamp ∧
      samples stripCodePtr (start :: body ++ [rec]) = [s] := by
  have hstate := (isSampleEnd_of_feed_eq_some stripCodePtr hs).2
  rw [h.state_eq stripCodePtr] at hstate
  injection hstate with htid hts
  refine ⟨htid.symm, hts.symm, ?_⟩
  rw [← h.feed_eq stripCodePtr rec, hs]
  rfl

/-! ## Bookkeeping -/

/-- What one record does to the three sample counters. -/
theorem feed_stats (p : Parser) (rec : KdBuf) :
    (p.feed stripCodePtr rec).1.stats.samplesStarted =
        p.stats.samplesStarted + (if IsSampleStart rec then 1 else 0) ∧
      (p.feed stripCodePtr rec).1.stats.samplesEmitted =
        p.stats.samplesEmitted + (p.feed stripCodePtr rec).2.toList.length ∧
      (p.feed stripCodePtr rec).1.stats.samplesOrphaned =
        p.stats.samplesOrphaned +
          (if IsSampleStart rec ∧ p.state.isInSample = true then 1 else 0) := by
  rcases start_or_end_or_inner rec with hrec | hrec | hrec
  · have hev : eventOf rec = .sampleStart := hrec
    simp [Parser.feed, hev, hrec]
  · have hev : eventOf rec = .sampleEnd := hrec
    have hnot := not_isSampleStart_of_isSampleEnd hrec
    cases hs : p.state <;> simp [Parser.feed, hev, hnot, hs]
  · rw [(feed_inner stripCodePtr hrec p).2, if_neg hrec.1, if_neg fun h => hrec.1 h.1]
    unfold Parser.feed
    cases hev : eventOf rec with
    | sampleStart => exact absurd hev hrec.1
    | sampleEnd => exact absurd hev hrec.2
    | other => exact ⟨rfl, rfl, rfl⟩
    | _ => dsimp only; split <;> exact ⟨rfl, rfl, rfl⟩

/-- Started samples are emitted, orphaned by the next START, or still open. -/
def ParserStats.Balanced (p : Parser) : Prop :=
  p.stats.samplesStarted = p.stats.samplesEmitted + p.stats.samplesOrphaned +
    (if p.state.isInSample then 1 else 0)

theorem balanced_feed {p : Parser} (h : ParserStats.Balanced p) (rec : KdBuf) :
    ParserStats.Balanced (p.feed stripCodePtr rec).1 := by
  obtain ⟨hstarted, hemitted, horphaned⟩ := feed_stats stripCodePtr p rec
  unfold ParserStats.Balanced at h ⊢
  rw [hstarted, hemitted, horphaned]
  rcases start_or_end_or_inner rec with hrec | hrec | hrec
  · rw [(feed_start stripCodePtr hrec p p).2.1, (feed_start stripCodePtr hrec p p).2.2]
    cases hs : p.state <;> simp [hs, hrec, ParserState.isInSample] at h ⊢ <;> omega
  · have hnot := not_isSampleStart_of_isSampleEnd hrec
    have hev : eventOf rec = .sampleEnd := hrec
    cases hs : p.state <;>
      simp [Parser.feed, hs, hev, hnot, ParserState.isInSample] at h ⊢ <;> omega
  · rw [(feed_inner stripCodePtr hrec p).1, (feed_inner stripCodePtr hrec p).2]
    simp [hrec.1, h]

theorem balanced_parse (recs : List KdBuf) : ParserStats.Balanced (parse stripCodePtr recs) :=
  (parser stripCodePtr).run_invariant (I := ParserStats.Balanced) rfl
    fun rec _ _ hp => balanced_feed stripCodePtr hp rec

/-- Sample framing: samples come out exactly at an END with an open bracket, each with the thread,
the time and the content of that bracket alone, and no started sample is unaccounted for. -/
theorem sample_framing (recs : List KdBuf) :
    (∀ rec, ((parse stripCodePtr recs).feed stripCodePtr rec).2.isSome = true ↔
      IsSampleEnd rec ∧ ∃ start body, OpenSample recs start body) ∧
    (∀ rec s start body, OpenSample recs start body →
      ((parse stripCodePtr recs).feed stripCodePtr rec).2 = some s →
        s.tid = start.arg5.toUInt32 ∧ s.timestampNs = start.maskedTimestamp ∧
          samples stripCodePtr (start :: body ++ [rec]) = [s]) ∧
    (parse stripCodePtr recs).stats.samplesStarted =
      (parse stripCodePtr recs).stats.samplesEmitted +
        (parse stripCodePtr recs).stats.samplesOrphaned +
        (if (parse stripCodePtr recs).state.isInSample then 1 else 0) :=
  ⟨feed_isSome_iff stripCodePtr recs,
    fun _ _ _ _ hopen hs => hopen.sample_eq stripCodePtr hs,
    balanced_parse stripCodePtr recs⟩

end

end Stax.Kperf
