/-
# Stax.Kperf.StackReassembly — what one sample's records reassemble to.

Inside a bracket the parser is three independent readers: user records move only the user stack,
kernel records only the kernel stack, counter records only the counters.  Each reader sees its own
records in order, so their interleaving does not matter, and each chunked stack comes back whole.
The END then puts the user stack in call order (`callOrder`, the specification of
`normalizeUserFixup`), cuts both stacks at the first NULL frame and drops the counters' padding.
-/
import Stax.Kperf.ParserFraming

namespace Stax.Kperf

open Stax.Lib

/-! ## The three readers -/

/-- The record is of a user stack. -/
def isUserRecord (rec : KdBuf) : Bool :=
  eventOf rec == .userHeader || eventOf rec == .userData

/-- The record is of a kernel stack. -/
def isKernelRecord (rec : KdBuf) : Bool :=
  eventOf rec == .kernelHeader || eventOf rec == .kernelData

/-- The record is of the performance counters. -/
def isPmcRecord (rec : KdBuf) : Bool := eventOf rec == .pmcData

/-- The user side of the parser: announced main frames, frames read, frames still to come. -/
def Parser.userSide (p : Parser) : ℕ × List UInt64 × ℕ :=
  (p.userMainFrames, p.userFrames, p.userRemaining)

/-- What the parser has of the kernel stack. -/
def Parser.kernelSide (p : Parser) : List UInt64 × ℕ := (p.kernelFrames, p.kernelRemaining)

/-- How a user record moves the user side. -/
def userStep (u : ℕ × List UInt64 × ℕ) (rec : KdBuf) : ℕ × List UInt64 × ℕ :=
  if eventOf rec = .userHeader then
    (asU32 rec.arg2, u.2.1, saturatingAdd32 (asU32 rec.arg2) (asU32 rec.arg4))
  else (u.1, appendChunk rec u.2.1 u.2.2)

/-- What a record of the kernel stack does to that side. -/
def kernelStep (k : List UInt64 × ℕ) (rec : KdBuf) : List UInt64 × ℕ :=
  if eventOf rec = .kernelHeader then
    (k.1, saturatingAdd32 (asU32 rec.arg2) (asU32 rec.arg4))
  else appendChunk rec k.1 k.2

/-- What a record of the performance counters does to that side. -/
def pmcStep (pmc : List UInt64) (rec : KdBuf) : List UInt64 := pmc ++ rec.args

section

variable (stripCodePtr : UInt64 → UInt64)

/-- One inner record, seen by the three readers: each moves on its own records and on no others. -/
theorem feed_inner_sides {p : Parser} (hin : p.state.isInSample = true) {rec : KdBuf}
    (hrec : Inner rec) :
    (p.feed stripCodePtr rec).1.userSide =
        (if isUserRecord rec then userStep p.userSide rec else p.userSide) ∧
      (p.feed stripCodePtr rec).1.kernelSide =
        (if isKernelRecord rec then kernelStep p.kernelSide rec else p.kernelSide) ∧
      (p.feed stripCodePtr rec).1.pmc =
        (if isPmcRecord rec then pmcStep p.pmc rec else p.pmc) := by
  obtain ⟨hs, he⟩ := hrec
  unfold Parser.feed isUserRecord isKernelRecord isPmcRecord
  cases hev : eventOf rec with
  | sampleStart => exact absurd hev hs
  | sampleEnd => exact absurd hev he
  | walkError =>
      by_cases hwhere : rec.arg1 = Perf.csKsample.toUInt64 <;>
        simp [hwhere, Parser.userSide, Parser.kernelSide]
  | _ => simp [hin, hev, Parser.userSide, Parser.kernelSide, userStep, kernelStep, pmcStep]

/-- Within a sample the three sides are fed independently of one another. -/
theorem run_inner_sides {p : Parser} (hin : p.state.isInSample = true) {body : List KdBuf}
    (hbody : ∀ rec ∈ body, Inner rec) :
    ((parser stripCodePtr).run p body).userSide =
        (body.filter isUserRecord).foldl userStep p.userSide ∧
      ((parser stripCodePtr).run p body).kernelSide =
        (body.filter isKernelRecord).foldl kernelStep p.kernelSide ∧
      ((parser stripCodePtr).run p body).pmc =
        (body.filter isPmcRecord).foldl pmcStep p.pmc := by
  have hI : ∀ rec ∈ body, ∀ q : Parser, q.state.isInSample = true →
      ((parser stripCodePtr).next q rec).state.isInSample = true := by
    intro rec hrec q hq
    rw [parser_next, (feed_inner stripCodePtr (hbody rec hrec) q).1, hq]
  refine ⟨?_, ?_, ?_⟩
  · refine (parser stripCodePtr).run_component Parser.userSide userStep isUserRecord hin hI ?_ ?_
    · intro rec hrec q hq hmine
      rw [parser_next, (feed_inner_sides stripCodePtr hq (hbody rec hrec)).1, if_pos hmine]
    · intro rec hrec q hq hother
      rw [parser_next, (feed_inner_sides stripCodePtr hq (hbody rec hrec)).1, hother]
      rfl
  · refine (parser stripCodePtr).run_component Parser.kernelSide kernelStep isKernelRecord
      hin hI ?_ ?_
    · intro rec hrec q hq hmine
      rw [parser_next, (feed_inner_sides stripCodePtr hq (hbody rec hrec)).2.1, if_pos hmine]
    · intro rec hrec q hq hother
      rw [parser_next, (feed_inner_sides stripCodePtr hq (hbody rec hrec)).2.1, hother]
      rfl
  · refine (parser stripCodePtr).run_component Parser.pmc pmcStep isPmcRecord hin hI ?_ ?_
    · intro rec hrec q hq hmine
      rw [parser_next, (feed_inner_sides stripCodePtr hq (hbody rec hrec)).2.2, if_pos hmine]
    · intro rec hrec q hq hother
      rw [parser_next, (feed_inner_sides stripCodePtr hq (hbody rec hrec)).2.2, hother]
      rfl

/-! ## Chunked stacks -/

/-- `recs` carry `frames` in groups of four words, the last group padded arbitrarily. -/
def Carries (recs : List KdBuf) (frames : List UInt64) : Prop :=
  recs.length = (frames.length + 3) / 4 ∧
    (recs.flatMap KdBuf.args).take frames.length = frames

/-- Reading chunks appends the words carried, as far as the header announced them. -/
theorem foldl_appendChunk (recs : List KdBuf) (frames : List UInt64) (remaining : ℕ) :
    recs.foldl (fun u rec => appendChunk rec u.1 u.2) (frames, remaining) =
      (frames ++ (recs.flatMap KdBuf.args).take remaining, remaining - 4 * recs.length) := by
  induction recs generalizing frames remaining with
  | nil => simp
  | cons rec recs ih =>
      have htake : rec.args.take (min remaining 4) = rec.args.take remaining :=
        List.take_eq_take_iff.mpr (by rw [KdBuf.length_args]; omega)
      rw [List.foldl_cons, appendChunk, htake, ih, List.flatMap_cons, List.take_append,
        List.append_assoc, KdBuf.length_args, List.length_cons]
      congr 1
      omega

/-- Chunks leave the announced main frames alone. -/
theorem foldl_snd_appendChunk (recs : List KdBuf) (main : ℕ) (u : List UInt64 × ℕ) :
    recs.foldl (fun u rec => (u.1, appendChunk rec u.2.1 u.2.2)) (main, u) =
      (main, recs.foldl (fun u rec => appendChunk rec u.1 u.2) u) := by
  induction recs generalizing u with
  | nil => rfl
  | cons rec recs ih => exact ih _

/-- A stack as kperf sends it: one header announcing `main` plus some async frames, then exactly
the announced frames. -/
def SendsStack (header data : KperfEvent) (recs : List KdBuf) (main : ℕ)
    (frames : List UInt64) : Prop :=
  ∃ hdr chunks, recs = hdr :: chunks ∧ eventOf hdr = header ∧ asU32 hdr.arg2 = main ∧
    asU32 hdr.arg2 + asU32 hdr.arg4 = frames.length ∧
    (∀ rec ∈ chunks, eventOf rec = data) ∧ Carries chunks frames

/-- The records of a user stack, from any state without frames, give its frames and where the main
ones end. -/
theorem foldl_userStep {recs : List KdBuf} {main : ℕ} {frames : List UInt64}
    (h : SendsStack .userHeader .userData recs main frames) (hlen : frames.length < 2 ^ 32)
    (m r : ℕ) : (recs.foldl userStep (m, [], r)).1 = main ∧
      (recs.foldl userStep (m, [], r)).2.1 = frames := by
  obtain ⟨hdr, chunks, rfl, hhdr, hmain, hsum, hdata, -, hcarries⟩ := h
  -- after the header the announced count is exact: it does not saturate
  have hhead : userStep (m, [], r) hdr = (main, [], frames.length) := by
    rw [userStep, if_pos hhdr, saturatingAdd32_eq (by omega), hsum, hmain]
  have hchunks : chunks.foldl userStep (main, [], frames.length) =
      chunks.foldl (fun u rec => (u.1, appendChunk rec u.2.1 u.2.2)) (main, [], frames.length) := by
    apply List.foldl_ext
    intro u rec hrec
    have hnot : eventOf rec ≠ .userHeader := by
      rw [hdata rec hrec]
      decide
    exact if_neg hnot
  rw [List.foldl_cons, hhead, hchunks, foldl_snd_appendChunk, foldl_appendChunk, hcarries]
  exact ⟨rfl, rfl⟩

theorem foldl_kernelStep {recs : List KdBuf} {main : ℕ} {frames : List UInt64}
    (h : SendsStack .kernelHeader .kernelData recs main frames) (hlen : frames.length < 2 ^ 32)
    (r : ℕ) : (recs.foldl kernelStep ([], r)).1 = frames := by
  obtain ⟨hdr, chunks, rfl, hhdr, hmain, hsum, hdata, -, hcarries⟩ := h
  have hhead : kernelStep ([], r) hdr = ([], frames.length) := by
    rw [kernelStep, if_pos hhdr, saturatingAdd32_eq (by omega), hsum]
  have hchunks : chunks.foldl kernelStep ([], frames.length) =
      chunks.foldl (fun u rec => appendChunk rec u.1 u.2) ([], frames.length) := by
    apply List.foldl_ext
    intro k rec hrec
    have hnot : eventOf rec ≠ .kernelHeader := by
      rw [hdata rec hrec]
      decide
    exact if_neg hnot
  rw [List.foldl_cons, hhead, hchunks, foldl_appendChunk, hcarries]
  rfl

theorem foldl_pmcStep (recs : List KdBuf) (pmc : List UInt64) :
    recs.foldl pmcStep pmc = pmc ++ recs.flatMap KdBuf.args := by
  induction recs generalizing pmc with
  | nil => simp
  | cons rec recs ih => rw [List.foldl_cons, ih, pmcStep, List.flatMap_cons, List.append_assoc]

/-! ## Call order -/

/-- The user stack in call order: the fixup frame, the last of the `main` frames, belongs right
after the saved PC, unless it is NULL or repeats the frame that is already there. -/
def callOrder (main : ℕ) (frames : List UInt64) : List UInt64 :=
  let fixup := stripCodePtr (frames.getD (main - 1) 0)
  if main < 2 ∨ fixup = 0 then frames
  else if main > 2 ∧ stripCodePtr (frames.getD 1 0) = fixup then
    frames.take (main - 1) ++ frames.drop main
  else
    frames.take 1 ++ [fixup] ++ (frames.take (main - 1)).drop 1 ++ frames.drop main

/-- Removing the fixup frame and inserting it after the saved PC, as list slices. -/
theorem insertIdx_eraseIdx_fixup {frames : List UInt64} {main : ℕ} (hmain : 2 ≤ main)
    (hlen : main ≤ frames.length) (fixup : UInt64) :
    (frames.eraseIdx (main - 1)).insertIdx 1 fixup =
      frames.take 1 ++ [fixup] ++ (frames.take (main - 1)).drop 1 ++ frames.drop main := by
  have herase : frames.eraseIdx (main - 1) = frames.take (main - 1) ++ frames.drop main := by
    rw [List.eraseIdx_eq_take_drop_succ, show main - 1 + 1 = main by omega]
  -- the saved PC is the first frame; the fixup goes right behind it
  obtain ⟨pc, rest, rfl⟩ : ∃ pc rest, frames = pc :: rest := by
    cases frames with
    | nil => simp at hlen; omega
    | cons pc rest => exact ⟨pc, rest, rfl⟩
  obtain ⟨n, rfl⟩ : ∃ n, main = n + 2 := ⟨main - 2, by omega⟩
  rw [herase]
  simp [List.insertIdx_succ_cons]

/-- The fixup puts the frames into the order of the calls. -/
theorem normalizeUserFixup_eq {main : ℕ} {frames : List UInt64} (hlen : main ≤ frames.length) :
    normalizeUserFixup stripCodePtr main frames = callOrder stripCodePtr main frames := by
  have hmin : min main frames.length = main := by omega
  unfold normalizeUserFixup callOrder
  simp only [hmin]
  by_cases hmain : main < 2
  · simp [hmain]
  · have hidx : main - 1 < frames.length := by omega
    have hone : 1 < frames.length := by omega
    rw [dif_neg hmain, List.getD_eq_getElem _ 0 hidx]
    by_cases hnull : stripCodePtr frames[main - 1] = 0
    · simp [hnull]
    · have hfixup : ¬ (main < 2 ∨ stripCodePtr frames[main - 1] = 0) := by simp [hmain, hnull]
      rw [if_neg hnull, if_neg hfixup, List.getD_eq_getElem _ 0 hone,
        List.getElem?_eq_getElem hone]
      -- the two ways of saying that the fixup repeats the next frame
      have hdup : (main - 1 > 1 ∧
            Option.map stripCodePtr (some frames[1]) = some (stripCodePtr frames[main - 1])) ↔
          (main > 2 ∧ stripCodePtr frames[1] = stripCodePtr frames[main - 1]) := by
        rw [Option.map_some, Option.some.injEq]
        exact and_congr_left fun _ => by omega
      simp only [hdup]
      split
      · rw [List.eraseIdx_eq_take_drop_succ, show main - 1 + 1 = main by omega]
      · exact insertIdx_eraseIdx_fixup (by omega) hlen _

/-! ## One whole sample -/

/-- The records between START and END of one sample, in any interleaving and with any ignored
records between them: `user`, `kernel` and `counters` are what its records carry. -/
structure SampleBody (body : List KdBuf) (main : ℕ) (user kernel counters : List UInt64) :
    Prop where
  inner : ∀ rec ∈ body, Inner rec
  user_records : SendsStack .userHeader .userData (body.filter isUserRecord) main user
  user_length : user.length < 2 ^ 32
  kernel_records :
    ∃ kmain, SendsStack .kernelHeader .kernelData (body.filter isKernelRecord) kmain kernel
  kernel_length : kernel.length < 2 ^ 32
  counter_records : (body.filter isPmcRecord).flatMap KdBuf.args = counters

/-- The announced main frames are among the frames sent. -/
theorem SampleBody.main_le {body : List KdBuf} {main : ℕ} {user kernel counters : List UInt64}
    (h : SampleBody body main user kernel counters) : main ≤ user.length := by
  obtain ⟨hdr, chunks, -, -, hmain, hsum, -⟩ := h.user_records
  omega

/-- The parser right before the END of a whole sample. -/
theorem SampleBody.run_eq {body : List KdBuf} {main : ℕ} {user kernel counters : List UInt64}
    (h : SampleBody body main user kernel counters) {start : KdBuf}
    (hstart : IsSampleStart start) (p : Parser) :
    let q := (parser stripCodePtr).run p (start :: body)
    q.state = .inSample start.arg5.toUInt32 start.maskedTimestamp ∧
      q.userMainFrames = main ∧ q.userFrames = user ∧ q.kernelFrames = kernel ∧
      q.pmc = counters := by
  have hev : eventOf start = .sampleStart := hstart
  have hfirst : (p.feed stripCodePtr start).1.userSide = (0, [], 0) ∧
      (p.feed stripCodePtr start).1.kernelSide = ([], 0) ∧
      (p.feed stripCodePtr start).1.pmc = [] := by
    simp [Parser.feed, hev, Parser.userSide, Parser.kernelSide]
  have hstate := (feed_start stripCodePtr hstart p p).2.1
  obtain ⟨huser, hkernel, hpmc⟩ := run_inner_sides stripCodePtr
    (p := (p.feed stripCodePtr start).1) (by rw [hstate]; rfl) h.inner
  rw [hfirst.1] at huser
  rw [hfirst.2.1] at hkernel
  rw [hfirst.2.2, foldl_pmcStep, h.counter_records, List.nil_append] at hpmc
  obtain ⟨hmain, hframes⟩ := foldl_userStep h.user_records h.user_length 0 0
  obtain ⟨kmain, hk⟩ := h.kernel_records
  have hkframes := foldl_kernelStep hk h.kernel_length 0
  rw [← huser] at hmain hframes
  rw [← hkernel] at hkframes
  refine ⟨?_, hmain, hframes, hkframes, hpmc⟩
  rw [Transducer.run_cons, run_inner stripCodePtr h.inner, parser_next, hstate]

/-- Stack reassembly: a whole sample emits exactly one `Sample`, whatever was read before it and
however its records are interleaved: the kernel stack cut at its first NULL frame, the counters
without trailing zeros, and the user stack in call order cut at its first NULL frame. -/
theorem sample_reassembly {start stop : KdBuf} {body : List KdBuf} {main : ℕ}
    {user kernel counters : List UInt64} (hstart : IsSampleStart start) (hstop : IsSampleEnd stop)
    (hbody : SampleBody body main user kernel counters) (p : Parser) :
    (parser stripCodePtr).outputs p (start :: body ++ [stop]) =
      [{ timestampNs := start.maskedTimestamp
         tid := start.arg5.toUInt32
         userBacktrace := (callOrder stripCodePtr main user).takeWhile (· != 0)
         kernelBacktrace := kernel.takeWhile (· != 0)
         pmc := counters.rdropWhile (· == 0) }] := by
  obtain ⟨hstate, hmain, huser, hkernel, hpmc⟩ := hbody.run_eq stripCodePtr hstart p
  have hev : eventOf stop = .sampleEnd := hstop
  have hsilent : (parser stripCodePtr).outputs p (start :: body) = [] := by
    rw [Transducer.outputs_cons, parser_emit, (feed_start stripCodePtr hstart p p).2.2,
      outputs_inner stripCodePtr hbody.inner]
    rfl
  rw [Transducer.outputs_concat, hsilent, parser_emit, Parser.feed, hev]
  simp only [hstate, hmain, huser, hkernel, hpmc, trimPmc_eq, cutAtNull_eq,
    normalizeUserFixup_eq stripCodePtr hbody.main_le]
  rfl

end

/-- A sample with five main and one async user frame, one kernel frame and two counters, its
records shuffled: the fixup frame `99` moves behind the saved PC. -/
theorem sample_reassembly_shuffled :
    samples id
        ([startRecord 123 42 0, pmcRecord 123 42 0 7 8 0 0, khdrRecord 123 42 0 1 0,
          uhdrRecord 123 42 0 5 1, udataRecord 123 42 0 10 20 30 40,
          kdataRecord 123 42 0 5 1 1 1, udataRecord 123 42 0 99 200 3 3] ++
        [endRecord 123 42 0]) =
      [{ timestampNs := 123
         tid := 42
         userBacktrace := [10, 99, 20, 30, 40, 200]
         kernelBacktrace := [5]
         pmc := [7, 8] }] := by
  have hbody : SampleBody
      [pmcRecord 123 42 0 7 8 0 0, khdrRecord 123 42 0 1 0, uhdrRecord 123 42 0 5 1,
        udataRecord 123 42 0 10 20 30 40, kdataRecord 123 42 0 5 1 1 1,
        udataRecord 123 42 0 99 200 3 3]
      5 [10, 20, 30, 40, 99, 200] [5] [7, 8, 0, 0] :=
    { inner := by decide
      user_records := ⟨uhdrRecord 123 42 0 5 1,
        [udataRecord 123 42 0 10 20 30 40, udataRecord 123 42 0 99 200 3 3],
        by decide, by decide, by decide, by decide, by decide, by decide, by decide⟩
      user_length := by decide
      kernel_records := ⟨1, khdrRecord 123 42 0 1 0, [kdataRecord 123 42 0 5 1 1 1],
        by decide, by decide, by decide, by decide, by decide, by decide, by decide⟩
      kernel_length := by decide
      counter_records := by decide }
  exact (sample_reassembly id (by decide) (by decide) hbody Parser.new).trans (by decide)

end Stax.Kperf
