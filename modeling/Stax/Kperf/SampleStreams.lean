/-
# Stax.Kperf.SampleStreams — streams of whole samples, merged across CPUs.

A `Bracket` is one whole sample's records, a `SampleStream` a concatenation of brackets.  The parser
keeps one global sample state, so what matters for a merge of per-CPU streams is whether two
brackets overlap: a START read while a sample is open orphans the open one.  A merge emits the
samples of its streams exactly when no START falls inside an open bracket.
-/
import Stax.Kperf.ParserFraming
import Stax.Lib.Interleave

namespace Stax.Kperf

open Stax.Lib

/-! ## Brackets -/

/-- One whole sample: a START, inner records, an END. -/
structure Bracket where
  start : KdBuf
  body : List KdBuf
  stop : KdBuf
  start_isStart : IsSampleStart start
  body_inner : ∀ rec ∈ body, Inner rec
  stop_isEnd : IsSampleEnd stop

/-- The records of a bracket, from the one that opens it to the one that closes it. -/
def Bracket.records (b : Bracket) : List KdBuf := b.start :: b.body ++ [b.stop]

/-- A concatenation of whole samples. -/
def SampleStream (recs : List KdBuf) : Prop :=
  ∃ bs : List Bracket, recs = bs.flatMap Bracket.records

section

variable (stripCodePtr : UInt64 → UInt64)

/-- A bracket emits the same one sample from every parser state. -/
theorem outputs_bracket (b : Bracket) (p : Parser) :
    (parser stripCodePtr).outputs p b.records = samples stripCodePtr b.records :=
  outputs_start stripCodePtr b.start_isStart p (b.body ++ [b.stop])

theorem length_samples_bracket (b : Bracket) : (samples stripCodePtr b.records).length = 1 := by
  have hopen : OpenSample (b.start :: b.body) b.start b.body :=
    ⟨b.start_isStart, b.body_inner, [], rfl⟩
  rw [Bracket.records, samples_bracket stripCodePtr b.start_isStart b.body_inner]
  obtain ⟨s, hs, -, -⟩ :=
    feed_end_sample stripCodePtr b.stop_isEnd (hopen.state_eq stripCodePtr)
  rw [hs]
  rfl

/-- Brackets laid end to end emit their own samples, in order. -/
theorem outputs_brackets (bs : List Bracket) (p : Parser) :
    (parser stripCodePtr).outputs p (bs.flatMap Bracket.records) =
      bs.flatMap fun b => samples stripCodePtr b.records := by
  induction bs generalizing p with
  | nil => rfl
  | cons b bs ih =>
      rw [List.flatMap_cons, Transducer.outputs_append, outputs_bracket, ih, List.flatMap_cons]

theorem length_outputs_brackets (bs : List Bracket) (p : Parser) :
    ((parser stripCodePtr).outputs p (bs.flatMap Bracket.records)).length = bs.length := by
  rw [outputs_brackets]
  induction bs with
  | nil => rfl
  | cons b bs ih =>
      rw [List.flatMap_cons, List.length_append, length_samples_bracket, ih, List.length_cons]
      omega

/-! ## Overlapping brackets -/

/-- Between two STARTs there is an END: no START falls inside an open sample. -/
def NoOverlap (recs : List KdBuf) : Prop :=
  ∀ pre s₁ mid s₂ post, recs = pre ++ s₁ :: mid ++ s₂ :: post →
    IsSampleStart s₁ → IsSampleStart s₂ → ∃ rec ∈ mid, IsSampleEnd rec

/-- The counters of a run, from any state: samples opened, samples handed out, and orphans, which
never get fewer. -/
theorem run_stats (p : Parser) (recs : List KdBuf) :
    ((parser stripCodePtr).run p recs).stats.samplesStarted =
        p.stats.samplesStarted + recs.countP (fun rec => IsSampleStart rec) ∧
      ((parser stripCodePtr).run p recs).stats.samplesEmitted =
        p.stats.samplesEmitted + ((parser stripCodePtr).outputs p recs).length ∧
      p.stats.samplesOrphaned ≤
        ((parser stripCodePtr).run p recs).stats.samplesOrphaned := by
  induction recs generalizing p with
  | nil => exact ⟨rfl, rfl, le_rfl⟩
  | cons rec recs ih =>
      obtain ⟨hstarted, hemitted, horphaned⟩ := feed_stats stripCodePtr p rec
      obtain ⟨ihs, ihe, iho⟩ := ih (p.feed stripCodePtr rec).1
      rw [Transducer.run_cons, Transducer.outputs_cons, parser_next, parser_emit, ihs, ihe,
        hstarted, hemitted, List.countP_cons, List.length_append]
      refine ⟨?_, by omega, by omega⟩
      by_cases hrec : IsSampleStart rec
      · simp only [hrec, if_true, decide_true]
        omega
      · simp [hrec]

/-- Without an END, an open sample stays open. -/
theorem run_isInSample {p : Parser} (hp : p.state.isInSample = true) {recs : List KdBuf}
    (hrecs : ∀ rec ∈ recs, ¬ IsSampleEnd rec) :
    ((parser stripCodePtr).run p recs).state.isInSample = true :=
  (parser stripCodePtr).run_invariant (I := fun q => q.state.isInSample = true) hp
    fun rec hrec q hq => by
      rcases start_or_end_or_inner rec with hs | he | hi
      · rw [parser_next, (feed_start stripCodePtr hs q q).2.1]
        rfl
      · exact absurd he (hrecs rec hrec)
      · rw [parser_next, (feed_inner stripCodePtr hi q).1, hq]

/-- Two overlapping brackets orphan a sample. -/
theorem orphaned_of_overlap {recs : List KdBuf} (h : ¬ NoOverlap recs) :
    0 < (parse stripCodePtr recs).stats.samplesOrphaned := by
  simp only [NoOverlap, not_forall, not_exists, not_and] at h
  obtain ⟨pre, s₁, mid, s₂, post, rfl, hs₁, hs₂, hmid⟩ := h
  -- nothing closes the first sample before the second START
  have hopen : (parse stripCodePtr (pre ++ s₁ :: mid)).state.isInSample = true := by
    rw [parse, Transducer.run_append, Transducer.run_cons]
    apply run_isInSample stripCodePtr _ hmid
    rw [parser_next, (feed_start stripCodePtr hs₁ _ Parser.new).2.1]
    rfl
  have horphan := (feed_stats stripCodePtr (parse stripCodePtr (pre ++ s₁ :: mid)) s₂).2.2
  rw [if_pos ⟨hs₂, hopen⟩] at horphan
  have hmono := (run_stats stripCodePtr
    ((parse stripCodePtr (pre ++ s₁ :: mid)).feed stripCodePtr s₂).1 post).2.2
  rw [parse, Transducer.run_append, Transducer.run_cons, parser_next]
  exact lt_of_lt_of_le (by omega) hmono

/-- A stream with as many samples as STARTs has no overlap: nothing was orphaned. -/
theorem noOverlap_of_length {recs : List KdBuf}
    (h : (samples stripCodePtr recs).length = recs.countP (fun rec => IsSampleStart rec)) :
    NoOverlap recs := by
  by_contra hoverlap
  have horphan := orphaned_of_overlap stripCodePtr hoverlap
  have hbalanced := balanced_parse stripCodePtr recs
  obtain ⟨hstarted, hemitted, -⟩ := run_stats stripCodePtr Parser.new recs
  unfold ParserStats.Balanced at hbalanced
  -- started = emitted + orphaned + open, and all started samples are emitted
  unfold samples at h
  unfold parse at horphan hbalanced
  have hzero : Parser.new.stats.samplesStarted = 0 ∧ Parser.new.stats.samplesEmitted = 0 :=
    ⟨rfl, rfl⟩
  omega

end

/-- Every bracket has exactly one START. -/
theorem countP_start_brackets (bs : List Bracket) :
    (bs.flatMap Bracket.records).countP (fun rec => IsSampleStart rec) = bs.length := by
  induction bs with
  | nil => rfl
  | cons b bs ih =>
      have hbody : b.body.countP (fun rec => IsSampleStart rec) = 0 := by
        rw [List.countP_eq_zero]
        intro rec hrec
        simpa using (b.body_inner rec hrec).1
      have hstop := not_isSampleStart_of_isSampleEnd b.stop_isEnd
      rw [List.flatMap_cons, List.countP_append, ih, Bracket.records, List.length_cons]
      simp [List.countP_append, hbody, b.start_isStart, hstop]
      omega

/-! ## Merged streams -/

/-- The streams' brackets, each cpu's in order. -/
def streamOf (brackets : UInt32 → List Bracket) (cpu : UInt32) : List KdBuf :=
  (brackets cpu).flatMap Bracket.records

/-- No START comes before the first END. -/
def NoStartBeforeEnd (recs : List KdBuf) : Prop :=
  ∀ mid s post, recs = mid ++ s :: post → IsSampleStart s → ∃ rec ∈ mid, IsSampleEnd rec

theorem NoOverlap.noStartBeforeEnd {s : KdBuf} {recs : List KdBuf} (h : NoOverlap (s :: recs))
    (hs : IsSampleStart s) : NoStartBeforeEnd recs := by
  intro mid s₂ post hrecs hs₂
  exact h [] s mid s₂ post (by rw [hrecs]; rfl) hs hs₂

theorem NoOverlap.of_append {pre recs : List KdBuf} (h : NoOverlap (pre ++ recs)) :
    NoOverlap recs := by
  intro pre' s₁ mid s₂ post hrecs
  exact h (pre ++ pre') s₁ mid s₂ post (by rw [hrecs]; simp)

/-- While a bracket of `cpu` is open, a merge without overlap goes on with that bracket's next
record: every other stream stands at a START. -/
theorem next_is_own {cpus : List UInt32} {streams : UInt32 → List KdBuf} {recs : List KdBuf}
    (h : Interleaves KdBuf.cpuid cpus streams recs) (hno : NoStartBeforeEnd recs) {cpu : UInt32}
    (hcpu : cpu ∈ cpus) (hothers : ∀ c ∈ cpus, c ≠ cpu → SampleStream (streams c))
    {y : KdBuf} {rest : List KdBuf} (hstream : streams cpu = y :: rest) :
    ∃ tail, recs = y :: tail ∧
      Interleaves KdBuf.cpuid cpus (Function.update streams cpu rest) tail := by
  cases recs with
  | nil =>
      rw [h.nil_streams hcpu] at hstream
      exact absurd hstream (by simp)
  | cons z tail =>
      obtain ⟨rest', hz, htail⟩ := h.cons_inv
      by_cases hzcpu : z.cpuid = cpu
      · rw [hzcpu] at hz htail
        rw [hstream] at hz
        obtain ⟨rfl, rfl⟩ := List.cons.inj hz
        exact ⟨tail, rfl, htail⟩
      · -- a record of another cpu is the START of one of its brackets
        exfalso
        obtain ⟨bs, hbs⟩ := hothers z.cpuid (h.labelled z (by simp)) hzcpu
        rw [hz] at hbs
        cases bs with
        | nil => simp at hbs
        | cons b bs =>
            have hzstart : z = b.start := (List.cons.inj hbs).1
            obtain ⟨rec, hrec, -⟩ := hno [] z tail rfl (hzstart ▸ b.start_isStart)
            simp at hrec

/-- The rest of an open bracket comes out of such a merge in one piece. -/
theorem bracket_contiguous {cpus : List UInt32} {streams : UInt32 → List KdBuf}
    {recs : List KdBuf} (h : Interleaves KdBuf.cpuid cpus streams recs)
    (hno : NoStartBeforeEnd recs) {cpu : UInt32} (hcpu : cpu ∈ cpus)
    (hothers : ∀ c ∈ cpus, c ≠ cpu → SampleStream (streams c))
    {body : List KdBuf} {stop : KdBuf} {rest : List KdBuf} (hbody : ∀ rec ∈ body, Inner rec)
    (hstream : streams cpu = body ++ stop :: rest) :
    ∃ tail, recs = body ++ stop :: tail ∧
      Interleaves KdBuf.cpuid cpus (Function.update streams cpu rest) tail := by
  induction body generalizing streams recs with
  | nil => exact next_is_own h hno hcpu hothers hstream
  | cons y body ih =>
      have hcons : streams cpu = y :: (body ++ stop :: rest) := hstream
      obtain ⟨tail, rfl, htail⟩ := next_is_own h hno hcpu hothers hcons
      have hno' : NoStartBeforeEnd tail := by
        intro mid s post htl hs
        obtain ⟨rec, hrec, hend⟩ := hno (y :: mid) s post (by rw [htl]; rfl) hs
        rcases List.mem_cons.mp hrec with rfl | hrec
        · exact absurd hend (hbody _ (by simp)).2
        · exact ⟨rec, hrec, hend⟩
      have hothers' : ∀ c ∈ cpus, c ≠ cpu →
          SampleStream (Function.update streams cpu (body ++ stop :: rest) c) := by
        intro c hc hne
        rw [Function.update_of_ne hne]
        exact hothers c hc hne
      obtain ⟨tail', rfl, htail'⟩ := ih htail hno' hothers'
        (fun rec hrec => hbody rec (List.mem_cons_of_mem y hrec)) (by rw [Function.update_self])
      rw [Function.update_idem] at htail'
      exact ⟨tail', rfl, htail'⟩

theorem streamOf_update (brackets : UInt32 → List Bracket) (cpu : UInt32) (bs : List Bracket) :
    Function.update (streamOf brackets) cpu (bs.flatMap Bracket.records) =
      streamOf (Function.update brackets cpu bs) := by
  funext c
  by_cases hc : c = cpu
  · simp [streamOf, hc]
  · simp [streamOf, Function.update_of_ne hc]

/-- A merge without overlap starts with the first bracket of the first record's cpu, whole. -/
theorem merge_head {cpus : List UInt32} {brackets : UInt32 → List Bracket} {s : KdBuf}
    {recs : List KdBuf} (h : Interleaves KdBuf.cpuid cpus (streamOf brackets) (s :: recs))
    (hno : NoOverlap (s :: recs)) :
    ∃ b bs tail, brackets s.cpuid = b :: bs ∧ s :: recs = b.records ++ tail ∧
      Interleaves KdBuf.cpuid cpus (streamOf (Function.update brackets s.cpuid bs)) tail := by
  obtain ⟨rest, hrest, htail⟩ := h.cons_inv
  have hcpu : s.cpuid ∈ cpus := h.labelled s (by simp)
  cases hb : brackets s.cpuid with
  | nil => simp [streamOf, hb] at hrest
  | cons b bs =>
      simp only [streamOf, hb, List.flatMap_cons, Bracket.records, List.cons_append,
        List.append_assoc] at hrest
      obtain ⟨rfl, hbody⟩ := List.cons.inj hrest
      have hothers : ∀ c ∈ cpus, c ≠ b.start.cpuid → SampleStream
          (Function.update (streamOf brackets) b.start.cpuid rest c) := by
        intro c _ hne
        rw [Function.update_of_ne hne]
        exact ⟨brackets c, rfl⟩
      obtain ⟨tail, rfl, hmerge⟩ := bracket_contiguous htail
        (hno.noStartBeforeEnd b.start_isStart) hcpu hothers b.body_inner
        (by rw [Function.update_self]; exact hbody.symm)
      rw [Function.update_idem, List.nil_append, streamOf_update] at hmerge
      exact ⟨b, bs, tail, rfl, by simp [Bracket.records], hmerge⟩

section

variable (stripCodePtr : UInt64 → UInt64)

/-- The samples of some brackets. -/
def bracketSamples (bs : List Bracket) : List Sample :=
  bs.flatMap fun b => samples stripCodePtr b.records

theorem bracketSamples_update (brackets : UInt32 → List Bracket) (cpu : UInt32)
    (bs : List Bracket) :
    (fun c => bracketSamples stripCodePtr (Function.update brackets cpu bs c)) =
      Function.update (fun c => bracketSamples stripCodePtr (brackets c)) cpu
        (bracketSamples stripCodePtr bs) := by
  funext c
  by_cases hc : c = cpu
  · simp [hc]
  · simp [Function.update_of_ne hc]

/-- A merge without overlap emits, up to order, the samples of its streams' brackets. -/
theorem outputs_merge_perm {cpus : List UInt32} (hcpus : cpus.Nodup)
    {brackets : UInt32 → List Bracket} {recs : List KdBuf}
    (h : Interleaves KdBuf.cpuid cpus (streamOf brackets) recs) (hno : NoOverlap recs)
    (p : Parser) :
    ((parser stripCodePtr).outputs p recs).Perm
      (cpus.flatMap fun cpu => bracketSamples stripCodePtr (brackets cpu)) := by
  -- each step takes one whole bracket off the merge
  induction hn : recs.length using Nat.strong_induction_on generalizing recs brackets p with
  | h n ih =>
      cases recs with
      | nil =>
          have hempty : ∀ cpu ∈ cpus, bracketSamples stripCodePtr (brackets cpu) = [] := by
            intro cpu hcpu
            have hnil := h.nil_streams hcpu
            unfold streamOf at hnil
            cases hb : brackets cpu with
            | nil => rfl
            | cons b bs => simp [hb, Bracket.records] at hnil
          rw [List.flatMap_eq_nil_iff.mpr hempty]
          exact List.Perm.refl _
      | cons s recs =>
          have hcpu : s.cpuid ∈ cpus := h.labelled s (by simp)
          obtain ⟨b, bs, tail, hb, hrecs, hmerge⟩ := merge_head h hno
          rw [hrecs] at hno hn ⊢
          have hlen : tail.length < n := by
            rw [← hn, List.length_append, Bracket.records]
            simp
          have hperm := ih tail.length hlen hmerge hno.of_append
            ((parser stripCodePtr).run p b.records) rfl
          have hfirst : bracketSamples stripCodePtr (brackets s.cpuid) =
              samples stripCodePtr b.records ++ bracketSamples stripCodePtr bs := by
            rw [hb]
            exact List.flatMap_cons
          rw [bracketSamples_update] at hperm
          rw [Transducer.outputs_append, outputs_bracket]
          exact (hperm.append_left _).trans
            (flatMap_update_perm hcpus hcpu
              (fun cpu => bracketSamples stripCodePtr (brackets cpu)) hfirst).symm

/-- Merging the streams of several cpus changes nothing but the order of the samples exactly when
no START falls inside an open sample; any overlap loses a sample. -/
theorem merged_samples_perm_iff {cpus : List UInt32} (hcpus : cpus.Nodup)
    {streams : UInt32 → List KdBuf} (hstreams : ∀ cpu ∈ cpus, SampleStream (streams cpu))
    {recs : List KdBuf} (hmerge : Interleaves KdBuf.cpuid cpus streams recs) :
    (samples stripCodePtr recs).Perm (samples stripCodePtr (cpus.flatMap streams)) ↔
      NoOverlap recs := by
  choose! brackets hbrackets using hstreams
  have hmerge' : Interleaves KdBuf.cpuid cpus (streamOf brackets) recs :=
    ⟨hmerge.labelled, fun cpu hcpu => (hmerge.stream cpu hcpu).trans (hbrackets cpu hcpu)⟩
  have hseq : cpus.flatMap streams = (cpus.flatMap brackets).flatMap Bracket.records := by
    rw [List.flatMap_assoc]
    exact List.flatMap_congr hbrackets
  rw [hseq]
  constructor
  · -- as many samples as STARTs: nothing was orphaned
    intro hperm
    apply noOverlap_of_length stripCodePtr
    have hstarts := (hmerge.perm hcpus).countP_eq fun rec => IsSampleStart rec
    rw [hstarts, hseq, countP_start_brackets, hperm.length_eq]
    exact length_outputs_brackets stripCodePtr _ Parser.new
  · intro hno
    have hperm := outputs_merge_perm stripCodePtr hcpus hmerge' hno Parser.new
    unfold samples at hperm ⊢
    rw [outputs_brackets, List.flatMap_assoc]
    exact hperm

end

/-! ## One tick on two cpus -/

/-- What `cpu` writes at a tick: one sample of its own thread, with one user frame. -/
def tickBracket (cpu : UInt32) : Bracket where
  start := startRecord 100 (cpu.toUInt64 + 1) cpu
  body := [uhdrRecord 101 (cpu.toUInt64 + 1) cpu 1 0,
    udataRecord 102 (cpu.toUInt64 + 1) cpu (cpu.toUInt64 + 16) 0 0 0]
  stop := endRecord 103 (cpu.toUInt64 + 1) cpu
  start_isStart := eventOf_startRecord _ _ _
  body_inner := by simp [Inner, IsSampleStart, IsSampleEnd]
  stop_isEnd := eventOf_endRecord _ _ _

/-- The records of one empty sample on a cpu. -/
def tickStream (cpu : UInt32) : List KdBuf := (tickBracket cpu).records

theorem sampleStream_tickStream (cpu : UInt32) : SampleStream (tickStream cpu) :=
  ⟨[tickBracket cpu], by simp [tickStream]⟩

/-- The ring's order when both cpus sample at once: the records sorted by time. -/
def tickMerge : List KdBuf :=
  [(tickBracket 0).start, (tickBracket 1).start] ++
    (tickBracket 0).body ++ (tickBracket 1).body ++ [(tickBracket 0).stop, (tickBracket 1).stop]

theorem interleaves_tickMerge : Interleaves KdBuf.cpuid [0, 1] tickStream tickMerge where
  labelled := by decide
  stream := by
    intro cpu hcpu
    rcases List.mem_pair.mp hcpu with rfl | rfl
    · decide +kernel
    · decide +kernel

/-- Two cpus that sample at once: thread 1's sample is lost and thread 2's carries both stacks'
frames. -/
theorem tickMerge_not_perm :
    Interleaves KdBuf.cpuid [0, 1] tickStream tickMerge ∧
      (∀ cpu ∈ [(0 : UInt32), 1], SampleStream (tickStream cpu)) ∧
      ¬ (samples id tickMerge).Perm (samples id ([0, 1].flatMap tickStream)) := by
  refine ⟨interleaves_tickMerge, fun cpu _ => sampleStream_tickStream cpu, ?_⟩
  intro hperm
  have hlength := hperm.length_eq
  rw [show (samples id tickMerge).length = 1 by decide +kernel,
    show (samples id ([0, 1].flatMap tickStream)).length = 2 by decide +kernel] at hlength
  exact absurd hlength (by decide)

/-- One cpu after the other, the two samples do not overlap. -/
theorem merged_samples_tick : NoOverlap (tickStream 1 ++ tickStream 0) := by
  have hmerge : Interleaves KdBuf.cpuid [0, 1] tickStream (tickStream 1 ++ tickStream 0) :=
    { labelled := by decide
      stream := by
        intro cpu hcpu
        rcases List.mem_pair.mp hcpu with rfl | rfl
        · decide +kernel
        · decide +kernel }
  apply (merged_samples_perm_iff id (by decide) (fun cpu _ => sampleStream_tickStream cpu)
    hmerge).mp
  have hswap : samples id (tickStream 1 ++ tickStream 0) =
      (samples id ([0, 1].flatMap tickStream)).reverse := by decide +kernel
  rw [hswap]
  exact List.reverse_perm _

end Stax.Kperf
