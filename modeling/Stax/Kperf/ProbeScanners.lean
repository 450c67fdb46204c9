/-
# Stax.Kperf.ProbeScanners — the fast scanners next to the parser.

Two scanners watch the same records as the parser without reassembling anything: the client's
`KperfProbeTriggerScanner` races a probe against the sampled thread as soon as a user header
announces frames, and staxd's `KperfSampleAgeScanner` measures how old a sample is at that record.
Both keep the open sample and whether it has triggered.  The invariant that ties them to the
parser: the pending sample is the parser's open sample, and one that has not triggered has no user
frame and expects none.
-/
import Stax.Kperf.ParserFraming

namespace Stax.Kperf

open Stax.Lib

/-! ## The client's probe scanner -/

/-- A sample that is open: whose it is, when it began, and whether its trigger has been reported. -/
structure KperfProbeTriggerScanner.PendingKperfSample where
  tid : UInt32
  timestamp : ℕ
  triggered : Bool
  deriving DecidableEq, Repr

/-- The client's scanner, which looks for the moment a sample's user stack is announced. -/
structure KperfProbeTriggerScanner where
  pending : Option KperfProbeTriggerScanner.PendingKperfSample := none
  deriving DecidableEq, Repr

/-- Feed one record; the first header of the open sample that announces user frames triggers. -/
def KperfProbeTriggerScanner.feed (self : KperfProbeTriggerScanner) (rec : KdBuf) :
    KperfProbeTriggerScanner × Option (UInt32 × ℕ) :=
  match eventOf rec with
  | .sampleStart =>
      ({ pending := some { tid := rec.arg5.toUInt32
                           timestamp := rec.maskedTimestamp
                           triggered := false } }, none)
  | .sampleEnd => ({ pending := none }, none)
  | .userHeader =>
      match self.pending with
      | none => (self, none)
      | some pending =>
          if pending.triggered then (self, none)
          else
            let userFrames := saturatingAdd32 (asU32 rec.arg2) (asU32 rec.arg4)
            if userFrames = 0 then (self, none)
            else
              ({ pending := some { pending with triggered := true } },
                some (pending.tid, pending.timestamp))
  | _ => (self, none)

/-! ## staxd's age scanner -/

/-- A sample that is open: when it began, and whether its age has been taken. -/
structure KperfSampleAgeScanner.PendingKperfSample where
  timestamp : ℕ
  triggered : Bool
  deriving DecidableEq, Repr

/-- The daemon's scanner, which takes the time of the same moments without looking at the thread. -/
structure KperfSampleAgeScanner where
  pending : Option KperfSampleAgeScanner.PendingKperfSample := none
  deriving DecidableEq, Repr

/-- One record of the daemon's scanner, with the time of the sample it triggers for. -/
def KperfSampleAgeScanner.feed (self : KperfSampleAgeScanner) (rec : KdBuf) :
    KperfSampleAgeScanner × Option ℕ :=
  match eventOf rec with
  | .sampleStart =>
      ({ pending := some { timestamp := rec.maskedTimestamp, triggered := false } }, none)
  | .sampleEnd => ({ pending := none }, none)
  | .userHeader =>
      match self.pending with
      | none => (self, none)
      | some pending =>
          if pending.triggered then (self, none)
          else
            let userFrames := saturatingAdd32 (asU32 rec.arg2) (asU32 rec.arg4)
            if userFrames = 0 then (self, none)
            else ({ pending := some { pending with triggered := true } }, some pending.timestamp)
  | _ => (self, none)

/-! ## Runs -/

/-- The client's scanner as a machine that emits threads and times. -/
def probeScanner : Transducer KperfProbeTriggerScanner KdBuf (UInt32 × ℕ) where
  step self rec := ((self.feed rec).1, (self.feed rec).2.toList)

/-- The daemon's scanner as a machine that emits times. -/
def ageScanner : Transducer KperfSampleAgeScanner KdBuf ℕ where
  step self rec := ((self.feed rec).1, (self.feed rec).2.toList)

/-- The client's scanner after some records. -/
def probeScan (recs : List KdBuf) : KperfProbeTriggerScanner := probeScanner.run {} recs

/-- Every trigger the client's scanner returned, in order. -/
def probeTriggers (recs : List KdBuf) : List (UInt32 × ℕ) := probeScanner.outputs {} recs

/-- The daemon's scanner after some records. -/
def ageScan (recs : List KdBuf) : KperfSampleAgeScanner := ageScanner.run {} recs

/-- Thread and time of a sample: what a trigger carries. -/
def Sample.key (s : Sample) : UInt32 × ℕ := (s.tid, s.timestampNs)

/-- The sample has a frame of its user stack at least. -/
def Sample.hasUserStack (s : Sample) : Bool := !s.userBacktrace.isEmpty

/-! ## The age scanner forgets the thread -/

/-- The daemon's scanner that has seen the same, which forgets the thread. -/
def KperfProbeTriggerScanner.toAge (sc : KperfProbeTriggerScanner) : KperfSampleAgeScanner where
  pending := sc.pending.map fun pending => ⟨pending.timestamp, pending.triggered⟩

theorem toAge_feed (sc : KperfProbeTriggerScanner) (rec : KdBuf) :
    sc.toAge.feed rec = ((sc.feed rec).1.toAge, (sc.feed rec).2.map Prod.snd) := by
  unfold KperfSampleAgeScanner.feed KperfProbeTriggerScanner.feed
  cases eventOf rec with
  | userHeader =>
      obtain ⟨_ | ⟨tid, ts, _ | _⟩⟩ := sc
      · rfl
      · simp only [KperfProbeTriggerScanner.toAge, Option.map_some, Bool.false_eq_true, if_false]
        split <;> rfl
      · rfl
  | _ => rfl

theorem ageScan_eq (recs : List KdBuf) : ageScan recs = (probeScan recs).toAge := by
  induction recs using List.reverseRecOn with
  | nil => rfl
  | append_singleton recs rec ih =>
      unfold ageScan probeScan at ih ⊢
      rw [Transducer.run_concat, Transducer.run_concat, ih]
      exact congrArg Prod.fst (toAge_feed _ rec)

/-! ## One trigger a bracket -/

/-- 1 while the open sample can still trigger. -/
def KperfProbeTriggerScanner.armed (sc : KperfProbeTriggerScanner) : ℕ :=
  match sc.pending with
  | none => 0
  | some pending => if pending.triggered then 0 else 1

theorem armed_le_one (sc : KperfProbeTriggerScanner) : sc.armed ≤ 1 := by
  unfold KperfProbeTriggerScanner.armed
  split
  · exact Nat.zero_le 1
  · split <;> decide

/-- An inner record triggers exactly when it disarms the open sample. -/
theorem length_trigger_add_armed {rec : KdBuf} (hrec : Inner rec)
    (sc : KperfProbeTriggerScanner) :
    (sc.feed rec).2.toList.length + (sc.feed rec).1.armed = sc.armed := by
  unfold KperfProbeTriggerScanner.feed
  cases hev : eventOf rec with
  | sampleStart => exact absurd hev hrec.1
  | sampleEnd => exact absurd hev hrec.2
  | userHeader =>
      obtain ⟨_ | ⟨tid, ts, _ | _⟩⟩ := sc
      · rfl
      · simp only [Bool.false_eq_true, if_false]
        split <;> rfl
      · rfl
  | _ => exact Nat.zero_add _

theorem length_triggers_add_armed {body : List KdBuf} (hbody : ∀ rec ∈ body, Inner rec)
    (sc : KperfProbeTriggerScanner) :
    (probeScanner.outputs sc body).length + (probeScanner.run sc body).armed = sc.armed :=
  probeScanner.length_outputs_add fun rec hrec sc => length_trigger_add_armed (hbody rec hrec) sc

theorem probe_feed_start {start : KdBuf} (h : IsSampleStart start)
    (sc : KperfProbeTriggerScanner) :
    sc.feed start =
      ({ pending := some ⟨start.arg5.toUInt32, start.maskedTimestamp, false⟩ }, none) := by
  have hev : eventOf start = .sampleStart := h
  rw [KperfProbeTriggerScanner.feed, hev]

/-- Over one open bracket the scanner returns at most one trigger. -/
theorem length_triggers_le_one {start : KdBuf} {body : List KdBuf} (hstart : IsSampleStart start)
    (hbody : ∀ rec ∈ body, Inner rec) (sc : KperfProbeTriggerScanner) :
    (probeScanner.outputs sc (start :: body)).length ≤ 1 := by
  have hsilent : probeScanner.emit sc start = [] := by
    show (sc.feed start).2.toList = []
    rw [probe_feed_start hstart]
    rfl
  rw [Transducer.outputs_cons, hsilent, List.nil_append]
  have hcount := length_triggers_add_armed hbody (probeScanner.next sc start)
  have harmed := armed_le_one (probeScanner.next sc start)
  omega

theorem probeScan_append (recs more : List KdBuf) :
    probeScan (recs ++ more) = probeScanner.run (probeScan recs) more :=
  probeScanner.run_append {} recs more

/-- A bracket that is armed by its START and disarmed by its end triggered in between. -/
theorem exists_trigger_of_disarmed {pre : List KdBuf} {start : KdBuf} {body : List KdBuf}
    (hstart : IsSampleStart start) (hbody : ∀ rec ∈ body, Inner rec)
    (hdisarmed : (probeScan (pre ++ start :: body)).armed = 0) :
    ∃ mid hdr rest t, body = mid ++ hdr :: rest ∧
      ((probeScan (pre ++ start :: mid)).feed hdr).2 = some t := by
  have hsplit : ∀ mid, probeScan (pre ++ start :: mid) =
      probeScanner.run (probeScan (pre ++ [start])) mid := by
    intro mid
    rw [← probeScan_append, List.append_assoc]
    rfl
  have harmed : (probeScan (pre ++ [start])).armed = 1 := by
    rw [probeScan_append]
    show ((probeScan pre).feed start).1.armed = 1
    rw [probe_feed_start hstart]
    rfl
  -- triggers plus what is left armed make up what was armed at the START
  have hcount := length_triggers_add_armed hbody (probeScan (pre ++ [start]))
  rw [← hsplit, hdisarmed, harmed, Nat.add_zero] at hcount
  obtain ⟨t, ht⟩ := List.length_eq_one_iff.mp hcount
  have hmem : t ∈ probeScanner.outputs (probeScan (pre ++ [start])) body := by
    rw [ht]
    exact List.mem_singleton_self t
  obtain ⟨mid, hdr, rest, rfl, hemit⟩ := probeScanner.mem_outputs.mp hmem
  rw [← hsplit] at hemit
  exact ⟨mid, hdr, rest, t, rfl, Option.mem_toList.mp hemit⟩

/-! ## In step with the parser -/

/-- The scanner's pending sample is the parser's open one; until it has triggered, no user frame
has been read or announced. -/
def InStep (p : Parser) (sc : KperfProbeTriggerScanner) : Prop :=
  match sc.pending with
  | none => p.state = .idle
  | some pending =>
      p.state = .inSample pending.tid pending.timestamp ∧
        (pending.triggered = false → p.userFrames = [] ∧ p.userRemaining = 0)

/-- The key of the open sample, once it has triggered. -/
def KperfProbeTriggerScanner.triggeredKey (sc : KperfProbeTriggerScanner) : List (UInt32 × ℕ) :=
  match sc.pending with
  | none => []
  | some pending => if pending.triggered then [(pending.tid, pending.timestamp)] else []

theorem armed_of_triggeredKey {sc : KperfProbeTriggerScanner} {key : UInt32 × ℕ}
    (h : sc.triggeredKey = [key]) : sc.armed = 0 := by
  obtain ⟨_ | ⟨tid, ts, _ | _⟩⟩ := sc
  · rfl
  · exact absurd h (by simp [KperfProbeTriggerScanner.triggeredKey])
  · rfl

section

variable (stripCodePtr : UInt64 → UInt64)

/-- Removing or moving the fixup frame makes no frame out of nothing. -/
theorem cutAtNull_normalize_nil (main : ℕ) :
    cutAtNull (normalizeUserFixup stripCodePtr main []) = [] := by
  simp [normalizeUserFixup, cutAtNull]

/-- A record leaves the scanner and the parser in step. -/
theorem inStep_feed {p : Parser} {sc : KperfProbeTriggerScanner} (h : InStep p sc) (rec : KdBuf) :
    InStep (p.feed stripCodePtr rec).1 (sc.feed rec).1 := by
  unfold Parser.feed KperfProbeTriggerScanner.feed
  obtain ⟨_ | ⟨tid, ts, _ | _⟩⟩ := sc
  · -- no open sample: only a START changes that
    have hs : p.state = .idle := h
    by_cases hwhere : rec.arg1 = Perf.csKsample.toUInt64 <;> cases eventOf rec <;>
      simp [InStep, hs, hwhere, ParserState.isInSample]
  · -- open and silent: data records append nothing, a header arms both sides at once
    obtain ⟨hs, hquiet⟩ : p.state = .inSample tid ts ∧
        (false = false → p.userFrames = [] ∧ p.userRemaining = 0) := h
    obtain ⟨hframes, hremaining⟩ := hquiet rfl
    by_cases hzero : saturatingAdd32 (asU32 rec.arg2) (asU32 rec.arg4) = 0 <;>
      by_cases hwhere : rec.arg1 = Perf.csKsample.toUInt64 <;> cases eventOf rec <;>
      simp [InStep, hs, hwhere, hzero, hframes, hremaining, appendChunk, ParserState.isInSample]
  · have hs : p.state = .inSample tid ts := (show _ ∧ _ from h).1
    by_cases hwhere : rec.arg1 = Perf.csKsample.toUInt64 <;> cases eventOf rec <;>
      simp [InStep, hs, hwhere, ParserState.isInSample]

theorem inStep_parse (recs : List KdBuf) : InStep (parse stripCodePtr recs) (probeScan recs) := by
  induction recs using List.reverseRecOn with
  | nil => rfl
  | append_singleton recs rec ih =>
      rw [parse_concat, probeScan, Transducer.run_concat]
      exact inStep_feed stripCodePtr ih rec

/-- A trigger names the open sample. -/
theorem trigger_state {p : Parser} {sc : KperfProbeTriggerScanner} (h : InStep p sc)
    {rec : KdBuf} {t : UInt32 × ℕ} (ht : (sc.feed rec).2 = some t) :
    p.state = .inSample t.1 t.2 := by
  unfold KperfProbeTriggerScanner.feed at ht
  obtain ⟨_ | ⟨tid, ts, _ | _⟩⟩ := sc
  · cases hev : eventOf rec <;> simp [hev] at ht
  · obtain ⟨hs, -⟩ : p.state = .inSample tid ts ∧ _ := h
    by_cases hzero : saturatingAdd32 (asU32 rec.arg2) (asU32 rec.arg4) = 0 <;>
      cases hev : eventOf rec <;> simp [hev, hzero] at ht
    rw [hs, ← ht]
  · cases hev : eventOf rec <;> simp [hev] at ht

/-- A sample with a user stack has triggered by the time its END is read. -/
theorem triggeredKey_of_emitted {p : Parser} {sc : KperfProbeTriggerScanner} (h : InStep p sc)
    {rec : KdBuf} {s : Sample} (hs : (p.feed stripCodePtr rec).2 = some s)
    (hstack : s.hasUserStack = true) : sc.triggeredKey = [s.key] := by
  obtain ⟨hend, hstate⟩ := isSampleEnd_of_feed_eq_some stripCodePtr hs
  obtain ⟨_ | ⟨tid, ts, _ | _⟩⟩ := sc
  · rw [show p.state = .idle from h] at hstate
    exact ParserState.noConfusion hstate
  · -- open but silent: no frame was read, so the user stack is empty
    exfalso
    obtain ⟨-, hquiet⟩ : p.state = .inSample tid ts ∧
      (false = false → p.userFrames = [] ∧ p.userRemaining = 0) := h
    have hev : eventOf rec = .sampleEnd := hend
    simp only [Parser.feed, hev, hstate, (hquiet rfl).1, cutAtNull_normalize_nil,
      Option.some.injEq] at hs
    rw [← hs] at hstack
    exact Bool.false_ne_true hstack
  · obtain ⟨hopen, -⟩ : p.state = .inSample tid ts ∧ _ := h
    rw [hopen] at hstate
    injection hstate with htid hts
    rw [Sample.key, ← htid, ← hts]
    rfl

/-- One record: what it adds to the samples with a user stack was triggered before, and an open
sample that has triggered did so before or at this record. -/
theorem key_step {p : Parser} {sc : KperfProbeTriggerScanner} (h : InStep p sc) (rec : KdBuf) :
    (((p.feed stripCodePtr rec).2.toList.filter Sample.hasUserStack).map Sample.key ++
      (sc.feed rec).1.triggeredKey).Sublist (sc.triggeredKey ++ (sc.feed rec).2.toList) := by
  rcases start_or_end_or_inner rec with hrec | hrec | hrec
  · rw [(feed_start stripCodePtr hrec p p).2.2, probe_feed_start hrec]
    exact List.nil_sublist _
  · have hev : eventOf rec = .sampleEnd := hrec
    have hclosed : sc.feed rec = ({ pending := none }, none) := by
      rw [KperfProbeTriggerScanner.feed, hev]
    rw [hclosed]
    cases hs : (p.feed stripCodePtr rec).2 with
    | none => exact List.nil_sublist _
    | some s =>
        cases hstack : s.hasUserStack with
        | false => simp [hstack, KperfProbeTriggerScanner.triggeredKey]
        | true =>
            rw [triggeredKey_of_emitted stripCodePtr h hs hstack]
            simp [hstack, KperfProbeTriggerScanner.triggeredKey]
  · rw [(feed_inner stripCodePtr hrec p).2]
    unfold KperfProbeTriggerScanner.feed
    cases hev : eventOf rec with
    | sampleStart => exact absurd hev hrec.1
    | sampleEnd => exact absurd hev hrec.2
    | userHeader =>
        obtain ⟨_ | ⟨tid, ts, _ | _⟩⟩ := sc
        · exact List.nil_sublist _
        · simp only [Bool.false_eq_true, if_false]
          split <;> simp [KperfProbeTriggerScanner.triggeredKey]
        · simp [KperfProbeTriggerScanner.triggeredKey]
    | _ => simp

theorem keys_sublist_triggers (recs : List KdBuf) :
    (((samples stripCodePtr recs).filter Sample.hasUserStack).map Sample.key ++
      (probeScan recs).triggeredKey).Sublist (probeTriggers recs) := by
  induction recs using List.reverseRecOn with
  | nil => exact List.Sublist.refl _
  | append_singleton recs rec ih =>
      have hstep := key_step stripCodePtr (inStep_parse stripCodePtr recs) rec
      have htriggers : probeTriggers (recs ++ [rec]) =
          probeTriggers recs ++ ((probeScan recs).feed rec).2.toList :=
        probeScanner.outputs_concat {} recs rec
      have hscan : probeScan (recs ++ [rec]) = ((probeScan recs).feed rec).1 :=
        probeScanner.run_concat {} recs rec
      rw [samples_concat, htriggers, hscan, List.filter_append, List.map_append, List.append_assoc]
      apply (hstep.append_left _).trans
      rw [← List.append_assoc]
      exact ih.append_right _

/-- The trigger of an emitted sample with a user stack lies inside that sample's bracket. -/
theorem exists_trigger_in_bracket {recs : List KdBuf} {rec : KdBuf} {s : Sample}
    (hs : ((parse stripCodePtr recs).feed stripCodePtr rec).2 = some s)
    (hstack : s.hasUserStack = true) :
    ∃ pre start mid hdr rest, recs = pre ++ start :: mid ++ hdr :: rest ∧
      OpenSample recs start (mid ++ hdr :: rest) ∧
      ((probeScan (pre ++ start :: mid)).feed hdr).2 = some s.key := by
  obtain ⟨-, hstate⟩ := isSampleEnd_of_feed_eq_some stripCodePtr hs
  obtain ⟨start, body, hopen⟩ := exists_openSample stripCodePtr hstate
  obtain ⟨hstart, hbody, pre, rfl⟩ := hopen
  -- armed after the START, disarmed at the END: one trigger in between
  have hkey := triggeredKey_of_emitted stripCodePtr (inStep_parse stripCodePtr _) hs hstack
  obtain ⟨mid, hdr, rest, t, rfl, htrigger⟩ :=
    exists_trigger_of_disarmed hstart hbody (armed_of_triggeredKey hkey)
  have hmid : OpenSample (pre ++ start :: mid) start mid :=
    ⟨hstart, fun r hr => hbody r (List.mem_append_left _ hr), pre, rfl⟩
  have hopen : OpenSample (pre ++ start :: (mid ++ hdr :: rest)) start (mid ++ hdr :: rest) :=
    ⟨hstart, hbody, pre, rfl⟩
  refine ⟨pre, start, mid, hdr, rest, by simp, hopen, ?_⟩
  -- both name the sample this START opened
  have hnamed := trigger_state (inStep_parse stripCodePtr _) htrigger
  rw [hmid.state_eq stripCodePtr, ← hopen.state_eq stripCodePtr, hstate] at hnamed
  injection hnamed with htid hts
  rw [htrigger, Sample.key, htid, hts]

/-- The scanners agree with the parser, on every stream: a trigger carries the parser's open
sample, an open sample triggers at most once, the samples with a user stack are among the triggers
in order, each triggered inside its own bracket, and the age scanner fires at the same records. -/
theorem probe_scanners_agree (recs : List KdBuf) :
    (∀ rec tid ts, ((probeScan recs).feed rec).2 = some (tid, ts) →
      (parse stripCodePtr recs).state = .inSample tid ts) ∧
    (∀ pre start body, recs = pre ++ start :: body → OpenSample recs start body →
      (probeScanner.outputs (probeScan pre) (start :: body)).length ≤ 1) ∧
    (((samples stripCodePtr recs).filter Sample.hasUserStack).map Sample.key).Sublist
      (probeTriggers recs) ∧
    (∀ rec s, ((parse stripCodePtr recs).feed stripCodePtr rec).2 = some s →
      s.hasUserStack = true →
        ∃ pre start mid hdr rest, recs = pre ++ start :: mid ++ hdr :: rest ∧
          OpenSample recs start (mid ++ hdr :: rest) ∧
          ((probeScan (pre ++ start :: mid)).feed hdr).2 = some s.key) ∧
    (∀ rec, ((ageScan recs).feed rec).2 = ((probeScan recs).feed rec).2.map Prod.snd) := by
  refine ⟨?_, ?_, ?_, ?_, ?_⟩
  · intro rec tid ts ht
    exact trigger_state (inStep_parse stripCodePtr recs) ht
  · intro pre start body _ hopen
    exact length_triggers_le_one hopen.1 hopen.2.1 _
  · exact (List.sublist_append_left _ _).trans (keys_sublist_triggers stripCodePtr recs)
  · intro rec s hs hstack
    exact exists_trigger_in_bracket stripCodePtr hs hstack
  · intro rec
    rw [ageScan_eq]
    exact congrArg Prod.snd (toAge_feed _ rec)

end

end Stax.Kperf
