/-
# Stax.Kperf.StreamLoss — samples across evicted batches.

The queues between the kernel and the parser drop whole batches, so the parser may read a stream
with gaps at arbitrary record boundaries.  A `MarkedStream` is the full stream with every record
marked as kept or evicted; the gaps are its maximal evicted runs.  The parser has no gap marker: a
START whose bracket lost records, followed by the END of this or of a later sample, is reassembled
as if it were whole.  As long as no bracket is torn this way, loss only loses samples; every torn
bracket is emitted as a sample.
-/
import Stax.Kperf.SampleStreams

namespace Stax.Kperf

open Stax.Lib

/-- A stream with each record marked as kept (`true`) or evicted. -/
abbrev MarkedStream := List (KdBuf × Bool)

/-- What was written. -/
def written (F : MarkedStream) : List KdBuf := F.map Prod.fst

/-- What the parser reads. -/
def keptOf (F : MarkedStream) : List KdBuf := (F.filter Prod.snd).map Prod.fst

theorem keptOf_append (F G : MarkedStream) : keptOf (F ++ G) = keptOf F ++ keptOf G := by
  simp [keptOf]

/-- A cut of what was kept lifts to a cut of the full stream, at a kept record. -/
theorem keptOf_eq_append {F : MarkedStream} {xs ys : List KdBuf} {rec : KdBuf}
    (h : keptOf F = xs ++ rec :: ys) :
    ∃ G H : MarkedStream, F = G ++ (rec, true) :: H ∧ keptOf G = xs ∧ keptOf H = ys := by
  obtain ⟨G', H', hsplit, hG, hH⟩ := List.map_eq_append_iff.mp h
  obtain ⟨x, H'', rfl, hx, hH''⟩ := List.map_eq_cons_iff.mp hH
  obtain ⟨G, H, rfl, hG', hcons⟩ := List.filter_eq_append_iff.mp hsplit
  obtain ⟨I, J, rfl, hI, hkept, hJ⟩ := List.filter_eq_cons_iff.mp hcons
  -- the evicted records right before the cut go to its left side
  refine ⟨G ++ I, J, ?_, ?_, ?_⟩
  · rw [List.append_assoc, show x = (rec, true) from Prod.ext hx hkept]
  · have hnil : keptOf I = [] := by
      rw [keptOf, List.filter_eq_nil_iff.mpr hI]
      rfl
    rw [keptOf_append, hnil, List.append_nil, keptOf, hG', hG]
  · rw [keptOf, hJ, hH'']

/-- Records that leave the open sample alone: walk errors, which are only counted, and records
that fit no arm. -/
def Ignored (rec : KdBuf) : Prop := eventOf rec = .walkError ∨ eventOf rec = .other

instance : DecidablePred Ignored := fun rec =>
  inferInstanceAs (Decidable (eventOf rec = _ ∨ eventOf rec = _))

theorem Ignored.inner {rec : KdBuf} (h : Ignored rec) : Inner rec := by
  unfold Ignored at h
  unfold Inner IsSampleStart IsSampleEnd
  rcases h with h | h <;> simp [h]

/-- No torn bracket is closed: when the next START or END kept after a kept START is an END, only
ignored records between the two were evicted. -/
def NoTornSample (F : MarkedStream) : Prop :=
  ∀ (pre : MarkedStream) start (mid : MarkedStream) stop post,
    F = pre ++ (start, true) :: mid ++ (stop, true) :: post →
    IsSampleStart start → IsSampleEnd stop → (∀ rec ∈ keptOf mid, Inner rec) →
      ∀ x ∈ mid, x.2 = false → Ignored x.1

section

variable (stripCodePtr : UInt64 → UInt64)

theorem feed_ignored {rec : KdBuf} (h : Ignored rec) (p : Parser) :
    (p.feed stripCodePtr rec).1.core = p.core := by
  unfold Parser.feed
  rcases h with h | h
  · rw [h]
    dsimp only
    split <;> rfl
  · rw [h]

/-- Evicting ignored records does not show in the core. -/
theorem core_run_kept {mid : MarkedStream} (h : ∀ x ∈ mid, x.2 = false → Ignored x.1)
    {p q : Parser} (hpq : p.core = q.core) :
    ((parser stripCodePtr).run p (written mid)).core =
      ((parser stripCodePtr).run q (keptOf mid)).core := by
  induction mid generalizing p q with
  | nil => exact hpq
  | cons x mid ih =>
      have hmid : ∀ y ∈ mid, y.2 = false → Ignored y.1 := fun y hy =>
        h y (List.mem_cons_of_mem x hy)
      obtain ⟨rec, kept⟩ := x
      cases kept with
      | true => exact ih hmid (feed_eq_of_core_eq stripCodePtr hpq rec).1
      | false =>
          -- evicted: only the parser of the full stream reads it
          have hrec : Ignored rec := h (rec, false) (by simp) rfl
          exact ih hmid ((feed_ignored stripCodePtr hrec p).trans hpq)

/-- Every sample read from what was kept comes from a kept START and the kept END after it, with no
other kept START or END between them. -/
theorem exists_kept_bracket {F : MarkedStream} {s : Sample}
    (hs : s ∈ samples stripCodePtr (keptOf F)) :
    ∃ (pre : MarkedStream) (start : KdBuf) (mid : MarkedStream) (stop : KdBuf)
      (post : MarkedStream), F = pre ++ (start, true) :: mid ++ (stop, true) :: post ∧
        IsSampleStart start ∧ IsSampleEnd stop ∧ (∀ rec ∈ keptOf mid, Inner rec) ∧
        samples stripCodePtr (start :: keptOf mid ++ [stop]) = [s] := by
  obtain ⟨recs, stop, tail, hkept, hemit⟩ := (parser stripCodePtr).mem_outputs.mp hs
  have hsome : ((parse stripCodePtr recs).feed stripCodePtr stop).2 = some s := by
    exact Option.mem_toList.mp hemit
  obtain ⟨hstop, start, body, hopen⟩ :=
    (feed_isSome_iff stripCodePtr recs stop).mp (by rw [hsome]; rfl)
  obtain ⟨-, -, hsample⟩ := hopen.sample_eq stripCodePtr hsome
  obtain ⟨hstart, hbody, recs', rfl⟩ := hopen
  obtain ⟨G, post, rfl, hG, -⟩ := keptOf_eq_append hkept
  obtain ⟨pre, mid, rfl, -, hmid⟩ := keptOf_eq_append hG
  refine ⟨pre, start, mid, stop, post, rfl, hstart, hstop, ?_, ?_⟩
  · rw [hmid]
    exact hbody
  · rw [hmid]
    exact hsample

/-- A bracket in the full stream, whatever stands around it, emits its sample. -/
theorem mem_samples_of_bracket {start stop : KdBuf} {body : List KdBuf}
    (hstart : IsSampleStart start) {s : Sample} (pre post : List KdBuf)
    (hs : s ∈ samples stripCodePtr (start :: body ++ [stop])) :
    s ∈ samples stripCodePtr (pre ++ (start :: body ++ [stop]) ++ post) := by
  have hcut := outputs_start stripCodePtr hstart ((parser stripCodePtr).run Parser.new pre)
    (body ++ [stop])
  unfold samples at hs ⊢
  rw [Transducer.outputs_append, Transducer.outputs_append]
  apply List.mem_append_left
  apply List.mem_append_right
  rw [← List.cons_append] at hcut
  rw [hcut]
  exact hs

theorem written_bracket (pre : MarkedStream) (start : KdBuf) (mid : MarkedStream) (stop : KdBuf)
    (post : MarkedStream) :
    written (pre ++ (start, true) :: mid ++ (stop, true) :: post) =
      written pre ++ (start :: written mid ++ [stop]) ++ written post := by
  simp [written]

theorem keptOf_bracket (pre : MarkedStream) (start : KdBuf) (mid : MarkedStream) (stop : KdBuf)
    (post : MarkedStream) :
    keptOf (pre ++ (start, true) :: mid ++ (stop, true) :: post) =
      keptOf pre ++ (start :: keptOf mid ++ [stop]) ++ keptOf post := by
  simp [keptOf]

/-- A bracket that lost ignored records only emits what it emitted as it was written. -/
theorem samples_of_ignored {mid : MarkedStream} (hinner : ∀ rec ∈ keptOf mid, Inner rec)
    (hignored : ∀ x ∈ mid, x.2 = false → Ignored x.1) {start : KdBuf}
    (hstart : IsSampleStart start) (stop : KdBuf) :
    samples stripCodePtr (start :: written mid ++ [stop]) =
      samples stripCodePtr (start :: keptOf mid ++ [stop]) := by
  have hfull : ∀ rec ∈ written mid, Inner rec := by
    intro rec hrec
    obtain ⟨⟨rec', kept⟩, hx, rfl⟩ := List.mem_map.mp hrec
    cases kept with
    | true => exact hinner _ (List.mem_map.mpr ⟨_, List.mem_filter.mpr ⟨hx, rfl⟩, rfl⟩)
    | false => exact (hignored _ hx rfl).inner
  have hcore : (parse stripCodePtr (start :: written mid)).core =
      (parse stripCodePtr (start :: keptOf mid)).core :=
    core_run_kept stripCodePtr hignored rfl
  rw [samples_bracket stripCodePtr hstart hfull, samples_bracket stripCodePtr hstart hinner,
    (feed_eq_of_core_eq stripCodePtr hcore stop).2]

/-- A kept START and a kept END with only inner records kept between them are read as a sample. -/
theorem exists_sample_of_bracket {start stop : KdBuf} {mid : MarkedStream}
    (hstart : IsSampleStart start) (hinner : ∀ rec ∈ keptOf mid, Inner rec)
    (hstop : IsSampleEnd stop) (pre post : MarkedStream) :
    ∃ s ∈ samples stripCodePtr (keptOf (pre ++ (start, true) :: mid ++ (stop, true) :: post)),
      samples stripCodePtr (start :: keptOf mid ++ [stop]) = [s] := by
  let b : Bracket := ⟨start, keptOf mid, stop, hstart, hinner, hstop⟩
  obtain ⟨s, hs⟩ := List.length_eq_one_iff.mp (length_samples_bracket stripCodePtr b)
  refine ⟨s, ?_, hs⟩
  have hbracket : s ∈ samples stripCodePtr (start :: keptOf mid ++ [stop]) := by
    show s ∈ samples stripCodePtr b.records
    rw [hs]
    exact List.mem_singleton_self s
  rw [keptOf_bracket]
  exact mem_samples_of_bracket stripCodePtr hstart (keptOf pre) (keptOf post) hbracket

/-- Loss only loses, as long as no torn bracket is closed: every sample read from what was kept is
one of the full stream.  When a torn bracket is closed, the parser emits it as a sample. -/
theorem samples_under_loss (F : MarkedStream) :
    (NoTornSample F →
      ∀ s ∈ samples stripCodePtr (keptOf F), s ∈ samples stripCodePtr (written F)) ∧
    (¬ NoTornSample F →
      ∃ (pre : MarkedStream) (start : KdBuf) (mid : MarkedStream) (stop : KdBuf)
        (post : MarkedStream), F = pre ++ (start, true) :: mid ++ (stop, true) :: post ∧
          (∃ x ∈ mid, x.2 = false ∧ ¬ Ignored x.1) ∧
          ∃ s ∈ samples stripCodePtr (keptOf F),
            samples stripCodePtr (start :: keptOf mid ++ [stop]) = [s]) := by
  constructor
  · intro hwhole s hs
    obtain ⟨pre, start, mid, stop, post, rfl, hstart, hstop, hinner, hsample⟩ :=
      exists_kept_bracket stripCodePtr hs
    have hignored := hwhole pre start mid stop post rfl hstart hstop hinner
    have hbracket : s ∈ samples stripCodePtr (start :: written mid ++ [stop]) := by
      rw [samples_of_ignored stripCodePtr hinner hignored hstart, hsample]
      exact List.mem_singleton_self s
    rw [written_bracket]
    exact mem_samples_of_bracket stripCodePtr hstart (written pre) (written post) hbracket
  · intro htorn
    simp only [NoTornSample, not_forall] at htorn
    obtain ⟨pre, start, mid, stop, post, rfl, hstart, hstop, hinner, x, hx, hevicted, hx'⟩ := htorn
    exact ⟨pre, start, mid, stop, post, rfl, ⟨x, hx, hevicted, hx'⟩,
      exists_sample_of_bracket stripCodePtr hstart hinner hstop pre post⟩

end

/-- Two samples of one cpu, from the user stack of the first to the START of the second evicted. -/
def tornStream : MarkedStream :=
  [(startRecord 100 1 0, true), (uhdrRecord 101 1 0 1 0, true),
    (udataRecord 102 1 0 16 0 0 0, false), (endRecord 103 1 0, false),
    (startRecord 200 2 0, false), (uhdrRecord 201 2 0 1 0, true),
    (udataRecord 202 2 0 17 0 0 0, true), (endRecord 203 2 0, true)]

/-- One gap, and the first sample comes out with the second one's user stack. -/
theorem tornStream_mixes :
    SampleStream (written tornStream) ∧ (∀ rec ∈ written tornStream, rec.cpuid = 0) ∧
      ∃ s ∈ samples id (keptOf tornStream),
        s.tid = 1 ∧ s.userBacktrace = [17] ∧ s ∉ samples id (written tornStream) := by
  refine ⟨?_, by decide, ?_⟩
  · let first : Bracket := ⟨startRecord 100 1 0,
      [uhdrRecord 101 1 0 1 0, udataRecord 102 1 0 16 0 0 0], endRecord 103 1 0,
      by simp [IsSampleStart], by simp [Inner, IsSampleStart, IsSampleEnd],
      by simp [IsSampleEnd]⟩
    let second : Bracket := ⟨startRecord 200 2 0,
      [uhdrRecord 201 2 0 1 0, udataRecord 202 2 0 17 0 0 0], endRecord 203 2 0,
      by simp [IsSampleStart], by simp [Inner, IsSampleStart, IsSampleEnd],
      by simp [IsSampleEnd]⟩
    exact ⟨[first, second], rfl⟩
  · refine ⟨⟨100, 1, [17], [], []⟩, ?_, rfl, rfl, ?_⟩
    · decide +kernel
    · decide +kernel

end Stax.Kperf
