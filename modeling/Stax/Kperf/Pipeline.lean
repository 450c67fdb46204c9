/-
# Stax.Kperf.Pipeline — from record batches to sink events.

`Pipeline.processRecords` runs a batch of records through the sample parser and the CPU interval
tracker.  Samples go to the sink as they complete; the wakeups and intervals the batch produced are
drained and delivered at its end, intervals only for threads that have been sampled by then.  The
periodic libproc and jitdump work of the pipeline (`tick`) is not part of this model.
-/
import Stax.Kperf.KernelSymbols
import Stax.Kperf.OffCpu
import Stax.Kperf.Parser

namespace Stax.Kperf

open Stax.Lib

/-! ## Sink events -/

/-- A sample as the sink is told of it, with the counters that the configuration selects. -/
structure SampleEvent where
  timestampNs : ℕ
  pid : UInt32
  tid : UInt32
  backtrace : List UInt64
  kernelBacktrace : List UInt64
  cycles : UInt64
  instructions : UInt64
  l1dMisses : UInt64
  branchMispreds : UInt64
  deriving DecidableEq, Repr

/-- One thread has made another runnable, with the stacks the waker was last seen with. -/
structure WakeupEvent where
  timestampNs : ℕ
  pid : UInt32
  wakerTid : UInt32
  wakeeTid : UInt32
  wakerUserStack : List UInt64
  wakerKernelStack : List UInt64
  deriving DecidableEq, Repr

/-- What a thread did in an interval; off a cpu, with the stack it left with and who woke it. -/
inductive CpuIntervalKind where
  | onCpu
  | offCpu (stack : List UInt64) (wakerTid : Option UInt32) (wakerUserStack : Option (List UInt64))
  deriving DecidableEq, Repr

/-- A stretch of time that a thread spent on or off a cpu. -/
structure CpuIntervalEvent where
  pid : UInt32
  tid : UInt32
  startNs : ℕ
  endNs : ℕ
  kind : CpuIntervalKind
  deriving DecidableEq, Repr

/-- The calls `processRecords` makes on its `SampleSink`. -/
inductive SinkEvent where
  | onSample (event : SampleEvent)
  | onWakeup (event : WakeupEvent)
  | onCpuInterval (event : CpuIntervalEvent)
  deriving DecidableEq, Repr

/-! ## The pipeline -/

/-- The target, and which of the counters are L1 misses and branch mispredictions. -/
structure PipelineConfig where
  pid : UInt32
  pmcIdxL1d : Option ℕ
  pmcIdxBrmiss : Option ℕ

/-- The parser, the tracker of intervals and the estimate of the kernel's slide, side by side. -/
structure Pipeline where
  config : PipelineConfig
  parser : Parser
  offcpu : CpuIntervalTracker
  /-- The threads the parser has emitted a sample for. -/
  seenTids : Finset UInt32
  slideEst : Option SlideEstimator
  histogram : UInt8 × UInt16 × UInt32 → ℕ
  totalDrained : ℕ
  pmuTotalCycles : ℕ
  pmuTotalInsns : ℕ
  pmuSamples : ℕ

/-- A pipeline that has seen no record, for a kernel image or for none. -/
def Pipeline.new (config : PipelineConfig) (slideEst : Option SlideEstimator) : Pipeline where
  config := config
  parser := .new
  offcpu := .new
  seenTids := ∅
  slideEst := slideEst
  histogram _ := 0
  totalDrained := 0
  pmuTotalCycles := 0
  pmuTotalInsns := 0
  pmuSamples := 0

/-- The sink event of a sample; a counter that was not recorded reads 0. -/
def sampleEvent (config : PipelineConfig) (sample : Sample) : SampleEvent where
  timestampNs := sample.timestampNs
  pid := config.pid
  tid := sample.tid
  backtrace := sample.userBacktrace
  kernelBacktrace := sample.kernelBacktrace
  cycles := sample.pmc[0]?.getD 0
  instructions := sample.pmc[1]?.getD 0
  l1dMisses := (config.pmcIdxL1d.bind fun i => sample.pmc[i]?).getD 0
  branchMispreds := (config.pmcIdxBrmiss.bind fun i => sample.pmc[i]?).getD 0

/-- A wakeup of the tracker as the sink is told of it. -/
def wakeupEvent (config : PipelineConfig) (w : PendingWakeup) : WakeupEvent where
  timestampNs := w.timestampNs
  pid := config.pid
  wakerTid := w.wakerTid
  wakeeTid := w.wakeeTid
  wakerUserStack := w.wakerUserStack
  wakerKernelStack := w.wakerKernelStack

/-- An interval of the tracker as the sink is told of it; a kernel stack stands in for a missing
user stack. -/
def cpuIntervalEvent (config : PipelineConfig) (interval : PendingInterval) : CpuIntervalEvent where
  pid := config.pid
  tid := interval.tid
  startNs := interval.startNs
  endNs := interval.endNs
  kind :=
    match interval.kind with
    | .onCpu => .onCpu
    | .offCpu userStack _ wakerTid wakerUserStack => .offCpu userStack wakerTid wakerUserStack

namespace Pipeline

section

variable (stripCodePtr : UInt64 → UInt64)

/-- What a completed sample does: every counter and cache is updated, and the sample is delivered
unless its user stack is empty. -/
def onSample (self : Pipeline) (sample : Sample) : Pipeline × List SinkEvent :=
  -- a thread counts as seen even if this sample has no user stack and is not delivered
  let self := { self with seenTids := insert sample.tid self.seenTids }
  let self := { self with
    slideEst := self.slideEst.map fun est =>
      (sample.kernelBacktrace.map UInt64.toNat).foldl SlideEstimator.observe est }
  let self :=
    if sample.pmc = [] then self
    else
      { self with
        pmuSamples := self.pmuSamples + 1
        pmuTotalCycles :=
          match sample.pmc[0]? with
          | some c => saturatingAdd64 self.pmuTotalCycles c.toNat
          | none => self.pmuTotalCycles
        pmuTotalInsns :=
          match sample.pmc[1]? with
          | some i => saturatingAdd64 self.pmuTotalInsns i.toNat
          | none => self.pmuTotalInsns }
  let self := { self with
    offcpu := self.offcpu.noteSample sample.tid sample.userBacktrace sample.kernelBacktrace }
  if sample.userBacktrace = [] then (self, [])
  else (self, [.onSample (sampleEvent self.config sample)])

/-- The parser's part of the loop body. -/
def parseRecord (self : Pipeline) (rec : KdBuf) : Pipeline × List SinkEvent :=
  let (parser, sample) := self.parser.feed stripCodePtr rec
  let self := { self with parser := parser }
  match sample with
  | some sample => self.onSample sample
  | none => (self, [])

/-- One record: the body of the loop of `process_records`. -/
def processRecord (self : Pipeline) (rec : KdBuf) : Pipeline × List SinkEvent :=
  let cls := kdbgClass rec.debugid
  if cls = dbgPerf then
    let key := (kdbgSubclass rec.debugid, kdbgCode rec.debugid, kdbgFunc rec.debugid)
    parseRecord stripCodePtr
      { self with histogram := Function.update self.histogram key (self.histogram key + 1) } rec
  else if cls = dbgMach ∧ kdbgSubclass rec.debugid = dbgMachSched then
    -- `continue`: the parser does not see it
    ({ self with offcpu := self.offcpu.feed rec }, [])
  else self.parseRecord stripCodePtr rec

/-- The two drains after the loop. -/
def drain (self : Pipeline) : Pipeline × List SinkEvent :=
  let (offcpu, wakeups) := self.offcpu.drainWakeups
  let (offcpu, intervals) := offcpu.drainPending
  -- an interval of a thread not seen by now is dropped, not kept for a later batch
  ({ self with offcpu := offcpu },
    wakeups.map (fun w => .onWakeup (wakeupEvent self.config w)) ++
      (intervals.filter fun interval => interval.tid ∈ self.seenTids).map
        fun interval => .onCpuInterval (cpuIntervalEvent self.config interval))

end

end Pipeline

section

variable (stripCodePtr : UInt64 → UInt64)

/-- The loop of `process_records` as a machine over records. -/
def recordLoop : Transducer Pipeline KdBuf SinkEvent where
  step self rec := self.processRecord stripCodePtr rec

/-- One batch: every record goes through the parser and the tracker, then the tracker is drained. -/
def Pipeline.processRecords (self : Pipeline) (records : List KdBuf) :
    Pipeline × List SinkEvent :=
  let self := { self with totalDrained := self.totalDrained + records.length }
  let events := (recordLoop stripCodePtr).outputs self records
  let self := (recordLoop stripCodePtr).run self records
  (self.drain.1, events ++ self.drain.2)

/-- The pipeline as a machine over batches. -/
def pipeline : Transducer Pipeline (List KdBuf) SinkEvent where
  step self records := self.processRecords stripCodePtr records

/-- Everything a new pipeline delivers to its sink for some batches, in order. -/
def delivered (config : PipelineConfig) (slideEst : Option SlideEstimator)
    (batches : List (List KdBuf)) : List SinkEvent :=
  (pipeline stripCodePtr).outputs (.new config slideEst) batches

end

end Stax.Kperf
