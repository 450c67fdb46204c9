/-
# Stax.Kperf.OffCpu — the CPU interval tracker.

The tracker follows every context switch: on each one the outgoing thread's on-CPU interval is
closed and the incoming thread's off-CPU interval, if one is open.  Off-CPU intervals carry the
last sampled stack of the thread and, when a wakeup was recorded for it, who woke it.  Closed
intervals and wakeups wait in two outboxes until they are drained.

A thread's part of a switch is a function on its `ThreadState`; `feed` finds the threads concerned
and runs it on each.
-/
import Stax.Kdebug
import Stax.Lib.Transducer

namespace Stax.Kperf

open Stax.Lib

/-! ## State -/

/-- Who made a thread runnable, kept until the thread is on a cpu again. -/
structure PendingWakerAttribution where
  wakerTid : UInt32
  wakerUserStack : List UInt64
  deriving DecidableEq, Repr

/-- What is known of one thread; an absent thread is the default one. -/
structure ThreadState where
  totalOnNs : ℕ := 0
  totalOffNs : ℕ := 0
  /-- Start of the open on-CPU interval. -/
  lastOnNs : Option ℕ := none
  /-- Start of the open off-CPU interval. -/
  lastOffNs : Option ℕ := none
  lastUserStack : List UInt64 := []
  lastKernelStack : List UInt64 := []
  /-- The wakeup to stamp on the off-CPU interval that closes next. -/
  pendingWakeup : Option PendingWakerAttribution := none
  deriving DecidableEq, Repr

/-- What a thread did in an interval that has not been handed out yet. -/
inductive PendingKind where
  | onCpu
  | offCpu (userStack kernelStack : List UInt64) (wakerTid : Option UInt32)
      (wakerUserStack : Option (List UInt64))
  deriving DecidableEq, Repr

/-- One closed CPU interval, `[startNs, endNs)`. -/
structure PendingInterval where
  tid : UInt32
  startNs : ℕ
  endNs : ℕ
  kind : PendingKind
  deriving DecidableEq, Repr

/-- One observed wakeup, with the waker's last sampled stack. -/
structure PendingWakeup where
  timestampNs : ℕ
  wakerTid : UInt32
  wakeeTid : UInt32
  wakerUserStack : List UInt64
  wakerKernelStack : List UInt64
  deriving DecidableEq, Repr

/-- What is known of each cpu and each thread, and what is waiting to be handed out. -/
structure CpuIntervalTracker where
  /-- The thread each cpu switched to last. -/
  onCpu : UInt32 → Option UInt64
  threads : UInt64 → Option ThreadState
  schedCount : ℕ
  stkhandoffCount : ℕ
  makerunnableCount : ℕ
  pending : List PendingInterval
  pendingWakeups : List PendingWakeup

/-- A tracker that has seen no record. -/
def CpuIntervalTracker.new : CpuIntervalTracker where
  onCpu _ := none
  threads _ := none
  schedCount := 0
  stkhandoffCount := 0
  makerunnableCount := 0
  pending := []
  pendingWakeups := []

/-- `threads.entry(tid).or_default()`, read. -/
def CpuIntervalTracker.thread (self : CpuIntervalTracker) (tid : UInt64) : ThreadState :=
  (self.threads tid).getD {}

/-! ## One thread's part of a switch -/

/-- The outgoing thread: close its on-CPU interval, if open, and mark it off from `ts`. -/
def ThreadState.switchOut (st : ThreadState) (tid : UInt64) (ts : ℕ) :
    ThreadState × List PendingInterval :=
  match st.lastOnNs with
  | some onNs =>
      let dur := ts - onNs
      if dur > 0 then
        ({ st with totalOnNs := saturatingAdd64 st.totalOnNs dur
                   lastOnNs := none
                   lastOffNs := some ts },
          [{ tid := tid.toUInt32, startNs := onNs, endNs := ts, kind := .onCpu }])
      -- a slice of zero length is neither counted nor emitted
      else ({ st with lastOnNs := none, lastOffNs := some ts }, [])
  | none => ({ st with lastOffNs := some ts }, [])

/-- The incoming thread: close its off-CPU interval, if open, and mark it on from `ts`.  Without a
user stack the interval is only counted. -/
def ThreadState.switchIn (st : ThreadState) (tid : UInt64) (ts : ℕ) :
    ThreadState × List PendingInterval :=
  match st.lastOffNs with
  | some offNs =>
      let dur := ts - offNs
      if dur > 0 then
        -- the pending wakeup is taken whether or not an interval is emitted
        let st' := { st with totalOffNs := saturatingAdd64 st.totalOffNs dur
                             lastOffNs := none
                             lastOnNs := some ts
                             pendingWakeup := none }
        if st.lastUserStack ≠ [] then
          (st',
            [{ tid := tid.toUInt32
               startNs := offNs
               endNs := ts
               kind := .offCpu st.lastUserStack st.lastKernelStack
                 (st.pendingWakeup.map PendingWakerAttribution.wakerTid)
                 (st.pendingWakeup.map PendingWakerAttribution.wakerUserStack) }])
        else (st', [])
      -- a stretch of zero length leaves the pending wakeup where it is
      else ({ st with lastOffNs := none, lastOnNs := some ts }, [])
  | none => ({ st with lastOnNs := some ts }, [])

/-! ## Feeding records -/

namespace CpuIntervalTracker

/-- Run a thread's part of a switch on its entry, and push what it closes. -/
def onThread (self : CpuIntervalTracker) (tid : UInt64)
    (part : ThreadState → ThreadState × List PendingInterval) : CpuIntervalTracker :=
  { self with threads := Function.update self.threads tid (some (part (self.thread tid)).1)
              pending := self.pending ++ (part (self.thread tid)).2 }

/-- The `SCHED | STKHANDOFF` arm. -/
def feedSwitch (self : CpuIntervalTracker) (rec : KdBuf) : CpuIntervalTracker :=
  let ts := rec.maskedTimestamp
  let newTid := rec.arg2
  let cpu := rec.cpuid
  let prev := self.onCpu cpu
  let self := { self with onCpu := Function.update self.onCpu cpu (some newTid) }
  let self :=
    match prev with
    | some prevTid =>
        -- the idle thread has no intervals, and a re-selected thread does not leave
        if prevTid ≠ 0 ∧ prevTid ≠ newTid then
          self.onThread prevTid fun st => st.switchOut prevTid ts
        else self
    | none => self
  if newTid ≠ 0 then self.onThread newTid fun st => st.switchIn newTid ts
  else self

/-- The wakeup a `MAKERUNNABLE` record is worth: `none` on each early return of the arm. -/
def wakeup (self : CpuIntervalTracker) (rec : KdBuf) : Option PendingWakeup :=
  let wakerTid := (self.onCpu rec.cpuid).getD 0
  let wakeeTid := rec.arg2
  if wakerTid = 0 ∨ wakeeTid = 0 ∨ wakerTid = wakeeTid then none
  else
    match self.threads wakerTid with
    | some s =>
        -- a waker that was never sampled has nothing to attribute the wakeup to
        if s.lastUserStack ≠ [] ∨ s.lastKernelStack ≠ [] then
          some { timestampNs := rec.maskedTimestamp
                 wakerTid := wakerTid.toUInt32
                 wakeeTid := wakeeTid.toUInt32
                 wakerUserStack := s.lastUserStack
                 wakerKernelStack := s.lastKernelStack }
        else none
    | none => none

/-- The `MAKERUNNABLE` arm: an accepted wakeup is pushed and stashed on the wakee. -/
def feedMakerunnable (self : CpuIntervalTracker) (rec : KdBuf) : CpuIntervalTracker :=
  let self := { self with makerunnableCount := self.makerunnableCount + 1 }
  match self.wakeup rec with
  | none => self
  | some w =>
      let wakee := self.thread rec.arg2
      let attribution := { wakerTid := w.wakerTid, wakerUserStack := w.wakerUserStack }
      { self with
        pendingWakeups := self.pendingWakeups ++ [w]
        threads := Function.update self.threads rec.arg2
          (some { wakee with pendingWakeup := some attribution }) }

/-- One record: of the scheduler's, switches move threads on and off their cpus, and wakeups are
noted. -/
def feed (self : CpuIntervalTracker) (rec : KdBuf) : CpuIntervalTracker :=
  if kdbgSubclass rec.debugid ≠ dbgMachSched then self
  else
    let code := kdbgCode rec.debugid
    if code = MachSched.sched then
      feedSwitch { self with schedCount := self.schedCount + 1 } rec
    else if code = MachSched.stkhandoff then
      feedSwitch { self with stkhandoffCount := self.stkhandoffCount + 1 } rec
    else if code = MachSched.makerunnable then self.feedMakerunnable rec
    else self

/-- Caches a sample's stack for its thread; a sample without a user stack is skipped. -/
def noteSample (self : CpuIntervalTracker) (tid : UInt32) (user kernel : List UInt64) :
    CpuIntervalTracker :=
  if user = [] then self
  else
    let st := self.thread tid.toUInt64
    { self with
      threads := Function.update self.threads tid.toUInt64
        (some { st with lastUserStack := user, lastKernelStack := kernel }) }

/-- Hands out the intervals that have closed since the last call. -/
def drainPending (self : CpuIntervalTracker) : CpuIntervalTracker × List PendingInterval :=
  ({ self with pending := [] }, self.pending)

/-- Hands out the wakeups that have been seen since the last call. -/
def drainWakeups (self : CpuIntervalTracker) : CpuIntervalTracker × List PendingWakeup :=
  ({ self with pendingWakeups := [] }, self.pendingWakeups)

end CpuIntervalTracker

/-! ## Calls and runs -/

/-- The calls a tracker receives, in any order. -/
inductive TrackerOp where
  | feed (rec : KdBuf)
  | noteSample (tid : UInt32) (user kernel : List UInt64)
  | drainPending
  | drainWakeups
  deriving DecidableEq, Repr

/-- What the two drains hand out. -/
inductive TrackerOutput where
  | interval (iv : PendingInterval)
  | wakeup (w : PendingWakeup)
  deriving DecidableEq, Repr

/-- The interval that is handed out, if it is one. -/
def TrackerOutput.interval? : TrackerOutput → Option PendingInterval
  | .interval iv => some iv
  | .wakeup _ => none

/-- One call of the tracker, with what it hands out. -/
def CpuIntervalTracker.call (self : CpuIntervalTracker) :
    TrackerOp → CpuIntervalTracker × List TrackerOutput
  | .feed rec => (self.feed rec, [])
  | .noteSample tid user kernel => (self.noteSample tid user kernel, [])
  | .drainPending => (self.drainPending.1, self.drainPending.2.map .interval)
  | .drainWakeups => (self.drainWakeups.1, self.drainWakeups.2.map .wakeup)

/-- The tracker as a machine over calls. -/
def tracker : Transducer CpuIntervalTracker TrackerOp TrackerOutput where
  step := CpuIntervalTracker.call

/-- A new tracker after some calls. -/
def track (ops : List TrackerOp) : CpuIntervalTracker := tracker.run .new ops

/-- Every interval emitted by a new tracker: the drained ones, then those still pending. -/
def emitted (ops : List TrackerOp) : List PendingInterval :=
  (tracker.outputs .new ops).filterMap TrackerOutput.interval? ++ (track ops).pending

/-! ## The records that matter -/

/-- A context switch: `SCHED` or `STKHANDOFF`. -/
def IsSwitch (rec : KdBuf) : Prop :=
  kdbgSubclass rec.debugid = dbgMachSched ∧
    (kdbgCode rec.debugid = MachSched.sched ∨ kdbgCode rec.debugid = MachSched.stkhandoff)

/-- The record says that a thread has been made runnable. -/
def IsMakerunnable (rec : KdBuf) : Prop :=
  kdbgSubclass rec.debugid = dbgMachSched ∧ kdbgCode rec.debugid = MachSched.makerunnable

instance : DecidablePred IsSwitch := fun _ => inferInstanceAs (Decidable (_ ∧ (_ ∨ _)))

instance : DecidablePred IsMakerunnable := fun _ => inferInstanceAs (Decidable (_ ∧ _))

theorem not_isMakerunnable_of_isSwitch {rec : KdBuf} (h : IsSwitch rec) :
    ¬ IsMakerunnable rec := by
  rintro ⟨-, hcode⟩
  rcases h.2 with h | h <;> rw [h] at hcode <;> exact absurd hcode (by decide)

/-- The switch record of a call, if it is one. -/
def TrackerOp.switch? : TrackerOp → Option KdBuf
  | .feed rec => if IsSwitch rec then some rec else none
  | _ => none

/-- The switch records among the calls, in order. -/
def switchRecords (ops : List TrackerOp) : List KdBuf := ops.filterMap TrackerOp.switch?

/-! ## Records as the scheduler writes them -/

/-- A record of the scheduler for a cpu and the thread it turns to. -/
def schedRecord (code : UInt16) (timestamp : UInt64) (cpuid : UInt32) (tid : UInt64) : KdBuf where
  timestamp := timestamp
  arg1 := 0
  arg2 := tid
  arg3 := 0
  arg4 := 0
  arg5 := 0
  debugid := kdbgEventid dbgMach dbgMachSched code
  cpuid := cpuid

/-- A switch of `cpuid` to thread `tid`. -/
def switchRecord (timestamp : UInt64) (cpuid : UInt32) (tid : UInt64) : KdBuf :=
  schedRecord MachSched.sched timestamp cpuid tid

/-- The thread on `cpuid` wakes thread `tid`. -/
def makerunnableRecord (timestamp : UInt64) (cpuid : UInt32) (tid : UInt64) : KdBuf :=
  schedRecord MachSched.makerunnable timestamp cpuid tid

end Stax.Kperf
