/-
# Stax.Kperf.Parser — the sample parser.

The state machine that turns the kdebug records kperf emits into one `Sample` per START..END
bracket.  A bracket opens at `PERF_GEN_EVENT | DBG_FUNC_START`, carries user-stack, kernel-stack and
counter records in any number, and closes at `PERF_GEN_EVENT | DBG_FUNC_END`, where the user stack
is put in call order, the stacks are cut at the first NULL frame and the counters lose their zero
padding.

`stripCodePtr` (the `xpaci` instruction on arm64, the identity elsewhere) is a parameter throughout.
-/
import Stax.Kdebug
import Stax.Lib.Transducer

namespace Stax.Kperf

open Stax.Lib

/-! ## The records kperf emits -/

/-- The arms of the `match (subclass, code, func)` over `DBG_PERF` records; a record of another
class, or one that fits no arm, is `other`. -/
inductive KperfEvent where
  | sampleStart
  | sampleEnd
  | userHeader
  | userData
  | kernelHeader
  | kernelData
  | pmcData
  | walkError
  | other
  deriving DecidableEq, Repr

/-- What a debugid says its record is; every record of another class or with other codes is passed
over. -/
def kperfEvent (debugid : UInt32) : KperfEvent :=
  if kdbgClass debugid ≠ dbgPerf then .other
  else
    let subclass := kdbgSubclass debugid
    let code := kdbgCode debugid
    let func := kdbgFunc debugid
    if subclass = Perf.scGeneric ∧ code = 0 ∧ func = dbgFuncStart then .sampleStart
    else if subclass = Perf.scGeneric ∧ code = 0 ∧ func = dbgFuncEnd then .sampleEnd
    else if subclass = Perf.scCallstack ∧ code = Perf.csUhdr then .userHeader
    else if subclass = Perf.scCallstack ∧ code = Perf.csUdata then .userData
    else if subclass = Perf.scCallstack ∧ code = Perf.csKhdr then .kernelHeader
    else if subclass = Perf.scCallstack ∧ code = Perf.csKdata then .kernelData
    else if subclass = Perf.scKpc ∧ code = Perf.kpcDataThread then .pmcData
    else if subclass = Perf.scCallstack ∧ code = Perf.csError then .walkError
    else .other

/-- The record's arm. -/
abbrev eventOf (rec : KdBuf) : KperfEvent := kperfEvent rec.debugid

/-! ## Parser state -/

/-- One completed sample.  Both backtraces are callee-most first. -/
structure Sample where
  timestampNs : ℕ
  tid : UInt32
  userBacktrace : List UInt64
  kernelBacktrace : List UInt64
  pmc : List UInt64
  deriving DecidableEq, Repr

/-- What the parser has counted: samples handed out, opened and left open, and stack walks that
failed. -/
structure ParserStats where
  samplesEmitted : ℕ := 0
  samplesStarted : ℕ := 0
  samplesOrphaned : ℕ := 0
  userWalkErrors : ℕ := 0
  kernelWalkErrors : ℕ := 0
  deriving DecidableEq, Repr

/-- Whether a sample is open, and then whose it is and when it began. -/
inductive ParserState where
  | idle
  | inSample (tid : UInt32) (timestampNs : ℕ)
  deriving DecidableEq, Repr

/-- `matches!(state, State::InSample { .. })`. -/
def ParserState.isInSample : ParserState → Bool
  | .idle => false
  | .inSample _ _ => true

/-- The parser between two records, with the frames and counters gathered for the sample that is
open. -/
structure Parser where
  state : ParserState
  userFrames : List UInt64
  kernelFrames : List UInt64
  pmc : List UInt64
  userMainFrames : ℕ
  userRemaining : ℕ
  kernelRemaining : ℕ
  stats : ParserStats
  deriving DecidableEq, Repr

/-- A parser that has seen nothing. -/
def Parser.new : Parser where
  state := .idle
  userFrames := []
  kernelFrames := []
  pmc := []
  userMainFrames := 0
  userRemaining := 0
  kernelRemaining := 0
  stats := {}

/-! ## Records as kperf writes them

The builders of the parser's own tests, with the time, thread and cpu as arguments. -/

/-- A record of the kperf class, as the kernel writes it for a thread on a cpu. -/
def perfRecord (subclass : UInt8) (code : UInt16) (func : UInt32) (timestamp tid : UInt64)
    (cpuid : UInt32) (arg1 arg2 arg3 arg4 : UInt64) : KdBuf where
  timestamp := timestamp
  arg1 := arg1
  arg2 := arg2
  arg3 := arg3
  arg4 := arg4
  arg5 := tid
  debugid := kdbgEventid dbgPerf subclass code ||| func
  cpuid := cpuid

/-- The record that opens a sample. -/
def startRecord (timestamp tid : UInt64) (cpuid : UInt32) : KdBuf :=
  perfRecord Perf.scGeneric 0 dbgFuncStart timestamp tid cpuid 0 0 0 0

/-- The record that closes a sample. -/
def endRecord (timestamp tid : UInt64) (cpuid : UInt32) : KdBuf :=
  perfRecord Perf.scGeneric 0 dbgFuncEnd timestamp tid cpuid 0 0 0 0

/-- The header of a user stack, with the numbers of frames that follow. -/
def uhdrRecord (timestamp tid : UInt64) (cpuid : UInt32) (main asyncN : UInt64) : KdBuf :=
  perfRecord Perf.scCallstack Perf.csUhdr dbgFuncNone timestamp tid cpuid 0 main 0 asyncN

/-- Four frames of a user stack. -/
def udataRecord (timestamp tid : UInt64) (cpuid : UInt32) (a b c d : UInt64) : KdBuf :=
  perfRecord Perf.scCallstack Perf.csUdata dbgFuncNone timestamp tid cpuid a b c d

/-- The header of a kernel stack, with the numbers of frames that follow. -/
def khdrRecord (timestamp tid : UInt64) (cpuid : UInt32) (main asyncN : UInt64) : KdBuf :=
  perfRecord Perf.scCallstack Perf.csKhdr dbgFuncNone timestamp tid cpuid 0 main 0 asyncN

/-- Four frames of a kernel stack. -/
def kdataRecord (timestamp tid : UInt64) (cpuid : UInt32) (a b c d : UInt64) : KdBuf :=
  perfRecord Perf.scCallstack Perf.csKdata dbgFuncNone timestamp tid cpuid a b c d

/-- Four values of the performance counters. -/
def pmcRecord (timestamp tid : UInt64) (cpuid : UInt32) (a b c d : UInt64) : KdBuf :=
  perfRecord Perf.scKpc Perf.kpcDataThread dbgFuncNone timestamp tid cpuid a b c d

/-- The arm is a function of the debugid alone. -/
theorem eventOf_perfRecord (subclass : UInt8) (code : UInt16) (func : UInt32)
    (timestamp tid : UInt64) (cpuid : UInt32) (a b c d : UInt64) :
    eventOf (perfRecord subclass code func timestamp tid cpuid a b c d) =
      kperfEvent (kdbgEventid dbgPerf subclass code ||| func) := rfl

@[simp] theorem eventOf_startRecord (timestamp tid : UInt64) (cpuid : UInt32) :
    eventOf (startRecord timestamp tid cpuid) = .sampleStart := by
  rw [startRecord, eventOf_perfRecord]
  decide

@[simp] theorem eventOf_endRecord (timestamp tid : UInt64) (cpuid : UInt32) :
    eventOf (endRecord timestamp tid cpuid) = .sampleEnd := by
  rw [endRecord, eventOf_perfRecord]
  decide

@[simp] theorem eventOf_uhdrRecord (timestamp tid : UInt64) (cpuid : UInt32)
    (main asyncN : UInt64) :
    eventOf (uhdrRecord timestamp tid cpuid main asyncN) = .userHeader := by
  rw [uhdrRecord, eventOf_perfRecord]
  decide

@[simp] theorem eventOf_udataRecord (timestamp tid : UInt64) (cpuid : UInt32)
    (a b c d : UInt64) : eventOf (udataRecord timestamp tid cpuid a b c d) = .userData := by
  rw [udataRecord, eventOf_perfRecord]
  decide

/-! ## Slicing -/

/-- `iter().rposition(p)`: the index of the last element satisfying `p`. -/
def rposition {α : Type*} (p : α → Bool) (xs : List α) : Option ℕ :=
  (xs.reverse.findIdx? p).map fun i => xs.length - 1 - i

/-- `&pmc[..pmc_len]`: everything up to the last non-zero counter. -/
def trimPmc (pmc : List UInt64) : List UInt64 :=
  let pmcLen := ((rposition (fun v => v != 0) pmc).map (· + 1)).getD 0
  pmc.take pmcLen

/-- `&frames[..len]` with `len` the position of the first NULL frame, or the whole stack. -/
def cutAtNull (frames : List UInt64) : List UInt64 :=
  let len := (frames.findIdx? (fun a => a == 0)).getD frames.length
  frames.take len

/-- Trimming takes the zeros off the end of the counters. -/
theorem trimPmc_eq (pmc : List UInt64) : trimPmc pmc = pmc.rdropWhile (· == 0) := by
  induction pmc using List.reverseRecOn with
  | nil => rfl
  | append_singleton pmc v ih =>
      by_cases hv : v = 0
      · subst hv
        rw [List.rdropWhile_concat_pos _ _ _ (by simp), ← ih]
        simp only [trimPmc, rposition, List.reverse_append, List.reverse_cons, List.reverse_nil,
          List.nil_append, List.singleton_append, List.findIdx?_cons]
        cases h : pmc.reverse.findIdx? (fun v => v != 0) with
        | none => simp
        | some i =>
            have hi : i < pmc.reverse.length := (List.findIdx?_eq_some_iff_findIdx_eq.mp h).1
            rw [List.length_reverse] at hi
            simp only [bne_self_eq_false, Bool.false_eq_true, if_false, Option.map_some,
              Option.getD_some, List.length_append, List.length_singleton]
            rw [List.take_append_of_le_length (by omega)]
            congr 1
            omega
      · rw [List.rdropWhile_concat_neg _ _ _ (by simpa using hv)]
        have hbne : (v != 0) = true := by simpa using hv
        simp [trimPmc, rposition, List.findIdx?_cons, hbne]

theorem cutAtNull_eq (frames : List UInt64) : cutAtNull frames = frames.takeWhile (· != 0) := by
  induction frames with
  | nil => rfl
  | cons a frames ih =>
      by_cases ha : a = 0
      · simp [cutAtNull, List.findIdx?_cons, ha]
      · have hbeq : (a == 0) = false := by simpa using ha
        have hbne : (a != 0) = true := by simpa using ha
        simp only [List.takeWhile_cons, hbne, if_true, ← ih]
        simp only [cutAtNull, List.findIdx?_cons, hbeq, Bool.false_eq_true, if_false,
          List.length_cons]
        cases frames.findIdx? (fun a => a == 0) <;> simp

/-! ## Feeding records -/

section Feed

variable (stripCodePtr : UInt64 → UInt64)

/-- Moves the fixup frame xnu appends after the frame-pointer chain into call order, right after
the saved PC; a fixup that repeats the next frame is dropped. -/
def normalizeUserFixup (userMainFrames : ℕ) (userFrames : List UInt64) : List UInt64 :=
  let main := min userMainFrames userFrames.length
  if hmain : main < 2 then userFrames
  else
    let fixupIndex := main - 1
    have hidx : main - 1 < userFrames.length := by omega
    let fixup := stripCodePtr (userFrames[main - 1])
    if fixup = 0 then userFrames
    else if fixupIndex > 1 ∧ userFrames[1]?.map stripCodePtr = some fixup then
      userFrames.eraseIdx fixupIndex
    else (userFrames.eraseIdx fixupIndex).insertIdx 1 fixup

/-- One chunk of `append_chunk`: at most `remaining` of the record's four words are frames. -/
def appendChunk (rec : KdBuf) (frames : List UInt64) (remaining : ℕ) : List UInt64 × ℕ :=
  let chunk := rec.args
  let take := min remaining 4
  (frames ++ chunk.take take, remaining - 4)

/-- Feed one record; a completed sample comes out with the new state. -/
def Parser.feed (self : Parser) (rec : KdBuf) : Parser × Option Sample :=
  match eventOf rec with
  | .sampleStart =>
      -- a START inside a sample orphans it: every buffer is cleared
      let orphaned := if self.state.isInSample then 1 else 0
      ({ state := .inSample rec.arg5.toUInt32 rec.maskedTimestamp
         userFrames := []
         kernelFrames := []
         pmc := []
         userMainFrames := 0
         userRemaining := 0
         kernelRemaining := 0
         stats := { self.stats with
           samplesOrphaned := self.stats.samplesOrphaned + orphaned
           samplesStarted := self.stats.samplesStarted + 1 } }, none)
  | .sampleEnd =>
      -- outside a sample an END is dropped; either way the frames stay until the next START
      match self.state with
      | .inSample tid timestampNs =>
          let userFrames := normalizeUserFixup stripCodePtr self.userMainFrames self.userFrames
          ({ self with
             state := .idle
             userFrames := userFrames
             stats := { self.stats with samplesEmitted := self.stats.samplesEmitted + 1 } },
           some { timestampNs := timestampNs
                  tid := tid
                  userBacktrace := cutAtNull userFrames
                  kernelBacktrace := cutAtNull self.kernelFrames
                  pmc := trimPmc self.pmc })
      | .idle => ({ self with state := .idle }, none)
  | .userHeader =>
      if self.state.isInSample then
        let main := asU32 rec.arg2
        let asyncN := asU32 rec.arg4
        ({ self with userMainFrames := main, userRemaining := saturatingAdd32 main asyncN }, none)
      else (self, none)
  | .userData =>
      if self.state.isInSample then
        let (frames, remaining) := appendChunk rec self.userFrames self.userRemaining
        ({ self with userFrames := frames, userRemaining := remaining }, none)
      else (self, none)
  | .kernelHeader =>
      if self.state.isInSample then
        let main := asU32 rec.arg2
        let asyncN := asU32 rec.arg4
        ({ self with kernelRemaining := saturatingAdd32 main asyncN }, none)
      else (self, none)
  | .kernelData =>
      if self.state.isInSample then
        let (frames, remaining) := appendChunk rec self.kernelFrames self.kernelRemaining
        ({ self with kernelFrames := frames, kernelRemaining := remaining }, none)
      else (self, none)
  | .pmcData =>
      if self.state.isInSample then ({ self with pmc := self.pmc ++ rec.args }, none)
      else (self, none)
  | .walkError =>
      -- counted inside a sample and outside
      let fromKernel := rec.arg1 = Perf.csKsample.toUInt64
      if fromKernel then
        ({ self with stats := { self.stats with
             kernelWalkErrors := self.stats.kernelWalkErrors + 1 } }, none)
      else
        ({ self with stats := { self.stats with
             userWalkErrors := self.stats.userWalkErrors + 1 } }, none)
  | .other => (self, none)

/-- The parser as a machine over records that emits samples. -/
def parser : Transducer Parser KdBuf Sample where
  step self rec := ((self.feed stripCodePtr rec).1, (self.feed stripCodePtr rec).2.toList)

/-- The parser's state after a list of records, from a new parser. -/
def parse (recs : List KdBuf) : Parser := (parser stripCodePtr).run Parser.new recs

/-- The samples a new parser emits on a list of records. -/
def samples (recs : List KdBuf) : List Sample := (parser stripCodePtr).outputs Parser.new recs

@[simp] theorem parser_next (p : Parser) (rec : KdBuf) :
    (parser stripCodePtr).next p rec = (p.feed stripCodePtr rec).1 := rfl

@[simp] theorem parser_emit (p : Parser) (rec : KdBuf) :
    (parser stripCodePtr).emit p rec = (p.feed stripCodePtr rec).2.toList := rfl

end Feed

end Stax.Kperf
