/-
# Stax.Staxd.Session — one recording session of the daemon, from set-up to teardown.

A session issues calls to kperf, kpc and kdebug.  Setting up stops at the first call that fails and
the session returns then; what drains the kernel's buffer runs once the set-up is complete, and
however it ends the teardown follows.  What the kernel answers comes from outside, as do the moments
at which a stop is requested, the sender gone or the drain thread dead.

Draining keeps the number of records; the records themselves are left out.
-/
import Stax.Lib.Script

namespace Stax.Staxd

open Stax.Lib Stax.Lib.Script

/-! ## Calls and errors -/

/-- What a client asks the daemon to record. -/
structure SessionConfig where
  targetPid : UInt32
  frequencyHz : UInt32
  bufRecords : UInt32
  samplers : UInt32
  pmuEventConfigs : List UInt64
  classMask : UInt32
  filterRangeValue1 : UInt32
  filterRangeValue2 : UInt32
  typefilterCscs : List UInt16
  deriving DecidableEq, Repr

/-- A filter of the kernel's trace buffer, as it is passed to the kernel. -/
structure KdRegtype where
  ty : UInt32
  value1 : UInt32
  value2 : UInt32
  value3 : UInt32
  value4 : UInt32
  deriving DecidableEq, Repr

/-- The calls of a session: those of the kperf framework, then the sysctls. -/
inductive Call
  | kpcForceAllCtrsGet
  | kpcForceAllCtrsSet (value : Int32)
  | kperfSampleSet (value : UInt32)
  | kperfReset
  | kperfActionCountSet (count : UInt32)
  | kperfTimerCountSet (count : UInt32)
  | kperfActionSamplersSet (actionid samplers : UInt32)
  | kperfActionFilterSetByPid (actionid : UInt32) (pid : Int32)
  | kperfTimerPeriodSet (actionid : UInt32) (ticks : UInt64)
  | kperfTimerActionSet (actionid timerid : UInt32)
  | kperfTimerPetSet (timerid : UInt32)
  | kpcSetConfig (classMask : UInt32) (configs : List UInt64)
  | kpcSetCounting (classMask : UInt32)
  | kpcSetThreadCounting (classMask : UInt32)
  | setLightweightPet (enabled : UInt32)
  | kdebugReset
  | kdebugSetBufSize (nbufs : Int32)
  | kdebugSetup
  | kdebugSetFilter (filter : KdRegtype)
  | kdebugSetTypefilter (cscs : List UInt16)
  | kdebugEnable (enable : Bool)
  | kdebugWaitForBuffer (timeoutMs : ℕ)
  | kdebugReadTrace (len : ℕ)
  deriving DecidableEq, Repr

/-- What the kernel answers: a return code, the rendered errno, and a size. -/
structure Answer where
  rc : ℤ := 0
  errno : String := ""
  size : ℕ := 0
  deriving DecidableEq, Repr

/-- Errors of the kperf bindings. -/
inductive Error
  | frameworkLoad (path msg : String)
  | symbolMissing (name msg : String)
  | notRoot
  | sysctl (op source : String)
  | kpep (op : String) (code : ℤ)
  | kperf (op : String) (code : ℤ)
  | unknownEvent (name : String)
  | tooManyEvents (n cap : ℕ)
  deriving DecidableEq, Repr

/-- Errors of a session. -/
inductive RecordError
  | notRoot
  | kperf (op : String) (code : ℤ)
  | sysctl (op message : String)
  deriving DecidableEq, Repr

/-- An error of the kernel's interface as it is sent to the client. -/
def mapKperfErr : Error → RecordError
  | .notRoot => .notRoot
  | .sysctl op source => .sysctl op source
  | .kperf op code => .kperf op code
  | .kpep op code => .kperf ("kpep:" ++ op) code
  | .frameworkLoad path msg => .sysctl "FrameworkLoad" (path ++ ": " ++ msg)
  | .symbolMissing name msg => .sysctl "SymbolMissing" (name ++ ": " ++ msg)
  | .unknownEvent name => .sysctl "UnknownEvent" name
  | .tooManyEvents n cap => .sysctl "TooManyEvents" (toString n ++ " > " ++ toString cap)

/-- What a session tells at its end. -/
structure RecordSummary where
  recordsDrained : ℕ
  sessionNs : ℕ
  deriving DecidableEq, Repr

namespace Call

/-- The name that an error gives the call. -/
def op : Call → String
  | kpcForceAllCtrsGet => "force_all_ctrs_get"
  | kpcForceAllCtrsSet _ => "force_all_ctrs_set"
  | kperfSampleSet _ => "sample_set"
  | kperfReset => "reset"
  | kperfActionCountSet _ => "action_count_set"
  | kperfTimerCountSet _ => "timer_count_set"
  | kperfActionSamplersSet _ _ => "action_samplers_set"
  | kperfActionFilterSetByPid _ _ => "action_filter_set_by_pid"
  | kperfTimerPeriodSet _ _ => "timer_period_set"
  | kperfTimerActionSet _ _ => "timer_action_set"
  | kperfTimerPetSet _ => "timer_pet_set"
  | kpcSetConfig _ _ => "kpc_set_config"
  | kpcSetCounting _ => "kpc_set_counting"
  | kpcSetThreadCounting _ => "kpc_set_thread_counting"
  | setLightweightPet _ => "kperf.lightweight_pet"
  | kdebugReset => "KERN_KDREMOVE"
  | kdebugSetBufSize _ => "KERN_KDSETBUF"
  | kdebugSetup => "KERN_KDSETUP"
  | kdebugSetFilter _ => "KERN_KDSETREG"
  | kdebugSetTypefilter _ => "KERN_KDSET_TYPEFILTER"
  | kdebugEnable _ => "KERN_KDENABLE"
  | kdebugWaitForBuffer _ => "KERN_KDBUFWAIT"
  | kdebugReadTrace _ => "KERN_KDREADTR"

/-- The call is one of the sysctls, which fail with a negative return code. -/
def isSysctl : Call → Bool
  | setLightweightPet _ | kdebugReset | kdebugSetBufSize _ | kdebugSetup | kdebugSetFilter _
  | kdebugSetTypefilter _ | kdebugEnable _ | kdebugWaitForBuffer _ | kdebugReadTrace _ => true
  | _ => false

/-- The error a call's answer is, if it is one. -/
def check (call : Call) (answer : Answer) : Except RecordError Unit :=
  if call.isSysctl then
    if answer.rc < 0 then .error (mapKperfErr (.sysctl call.op answer.errno)) else .ok ()
  else if answer.rc = 0 then .ok () else .error (.kperf call.op answer.rc)

end Call

/-- A sequence of the kernel's calls that may fail; the answers come from the kernel. -/
abbrev Session := Script Call Answer RecordError

/-- A call whose failure is returned, `kperf_call(..)?` or `.map_err(map_kperf_err)?`. -/
def kperfCall (call : Call) : Session Unit := attempt Call.check call

/-- A call whose answer is ignored, `let _ = ..`. -/
def ignored (call : Call) : Session Unit := do
  let _ ← issue call

/-! ## Set-up and teardown -/

/-- How many actions the kernel is asked to provide. -/
def kperfActionMax : UInt32 := 32

/-- How many timers the kernel is asked to provide. -/
def kperfTimerMax : UInt32 := 8

/-- The type of a filter by a range of debugids. -/
def kdbgRangetype : UInt32 := 0x40000

/-- The time between two samples; one millisecond where no frequency is given. -/
def periodNs (config : SessionConfig) : UInt64 :=
  if config.frequencyHz = 0 then 1000000 else 1000000000 / config.frequencyHz.toUInt64

/-- One action with the samplers of the session is bound to one timer, and sampling is turned on. -/
def setupKperf (nsToTicks : UInt64 → UInt64) (config : SessionConfig) : Session Unit := do
  let actionid : UInt32 := 1
  let timerid : UInt32 := 1
  kperfCall (.kperfActionCountSet kperfActionMax)
  kperfCall (.kperfTimerCountSet kperfTimerMax)
  kperfCall (.kperfActionSamplersSet actionid config.samplers)
  kperfCall (.kperfActionFilterSetByPid actionid config.targetPid.toInt32)
  let ticks := nsToTicks (periodNs config)
  kperfCall (.kperfTimerPeriodSet actionid ticks)
  kperfCall (.kperfTimerActionSet actionid timerid)
  kperfCall (.kperfTimerPetSet timerid)
  if !config.pmuEventConfigs.isEmpty then
    kperfCall (.kpcSetConfig config.classMask config.pmuEventConfigs)
  kperfCall (.kpcSetCounting config.classMask)
  kperfCall (.kpcSetThreadCounting config.classMask)
  kperfCall (.setLightweightPet 1)
  kperfCall (.kperfSampleSet 1)

/-- The trace buffer is sized and filtered, and tracing is turned on. -/
def setupKdebug (config : SessionConfig) : Session Unit := do
  kperfCall .kdebugReset
  kperfCall (.kdebugSetBufSize config.bufRecords.toInt32)
  kperfCall .kdebugSetup
  if config.typefilterCscs.isEmpty then
    kperfCall (.kdebugSetFilter
      { ty := kdbgRangetype
        value1 := config.filterRangeValue1
        value2 := config.filterRangeValue2
        value3 := 0
        value4 := 0 })
  else
    kperfCall (.kdebugSetTypefilter config.typefilterCscs)
  kperfCall (.kdebugEnable true)

/-- All that a session sets is unset, whatever the kernel answers. -/
def teardown : Session Unit := do
  ignored (.kdebugEnable false)
  ignored .kdebugReset
  ignored (.kperfSampleSet 0)
  ignored (.setLightweightPet 0)
  ignored (.kpcSetCounting 0)
  ignored (.kpcSetThreadCounting 0)
  ignored (.kpcForceAllCtrsSet 0)
  ignored .kperfReset

/-! ## Draining -/

/-- The least number of records that one read asks for. -/
def minDrainReadBatchRecords : ℕ := 4096

/-- The largest number of records that one read asks for. -/
def maxDrainReadBatchRecords : ℕ := 16384

/-- After how many empty reads in a row the drain loop waits for the kernel's buffer. -/
def idleYieldReads : ℕ := 32

/-- What a turn of the drain loop finds: a stop requested before it may wait and before it reads, a
heartbeat that is due, and a send queue that takes the batch. -/
structure Turn where
  stopBeforeWait : Bool := false
  stopBeforeRead : Bool := false
  heartbeatDue : Bool := false
  queued : Bool := true
  deriving DecidableEq, Repr

/-- The drain loop between two reads. -/
structure DrainLoop where
  readBatchRecords : ℕ
  consecutiveEmptyReads : ℕ := 0
  totalDrained : ℕ := 0
  deriving DecidableEq, Repr

/-- The least that a read asks for, where the buffer is smaller than usual. -/
def SessionConfig.minReadBatchRecords (config : SessionConfig) : ℕ :=
  max (min minDrainReadBatchRecords config.bufRecords.toNat) 1

/-- The most that a read asks for, where the buffer is smaller than usual. -/
def SessionConfig.maxReadBatchRecords (config : SessionConfig) : ℕ :=
  max (min maxDrainReadBatchRecords config.bufRecords.toNat) config.minReadBatchRecords

/-- The batch grows when a read fills it, and shrinks when a read leaves most of it empty. -/
def nextReadBatchRecords (config : SessionConfig) (readBatchRecords n : ℕ) : ℕ :=
  if n = readBatchRecords ∧ readBatchRecords < config.maxReadBatchRecords then
    min (readBatchRecords * 2) config.maxReadBatchRecords
  else if n < readBatchRecords / 4 ∧ config.minReadBatchRecords < readBatchRecords then
    max (readBatchRecords / 2) config.minReadBatchRecords
  else readBatchRecords

/-- One read of the trace buffer; an answer larger than the buffer it was given is an error. -/
def readTrace (len : ℕ) : Session ℕ :=
  if len = 0 then pure 0
  else do
    let answer ← issue (Call.kdebugReadTrace len)
    ofExcept (Call.check (.kdebugReadTrace len) answer)
    if len < answer.size then
      ofExcept (.error (mapKperfErr (.sysctl "KERN_KDREADTR"
        ("kernel returned " ++ toString answer.size ++ " records for " ++ toString len ++
          "-record buffer"))))
    else pure answer.size

/-- The loop after a read of `n` records. -/
def DrainLoop.afterRead (config : SessionConfig) (self : DrainLoop) (n : ℕ) : DrainLoop :=
  if n = 0 then
    { self with
      readBatchRecords := config.minReadBatchRecords
      consecutiveEmptyReads := min (self.consecutiveEmptyReads + 1) (2 ^ 32 - 1) }
  else
    { readBatchRecords := nextReadBatchRecords config self.readBatchRecords n
      consecutiveEmptyReads := 0
      totalDrained := min (self.totalDrained + n) (2 ^ 64 - 1) }

/-- After many empty reads the loop waits for the kernel's buffer. -/
def DrainLoop.idle (self : DrainLoop) : Session Unit :=
  if idleYieldReads < self.consecutiveEmptyReads then ignored (.kdebugWaitForBuffer 1) else pure ()

/-- The loop of the drain thread, over the turns up to where a stop is requested.  A batch is queued
for the records of a read, or as a heartbeat. -/
def drainKdebugLoop (config : SessionConfig) : DrainLoop → List Turn → Session ℕ
  | self, [] => pure self.totalDrained
  | self, turn :: turns =>
    if turn.stopBeforeWait then pure self.totalDrained
    else do
      self.idle
      if turn.stopBeforeRead then pure self.totalDrained
      else do
        let n ← readTrace self.readBatchRecords
        if (n ≠ 0 || turn.heartbeatDue) && !turn.queued then
          pure (self.afterRead config n).totalDrained
        else drainKdebugLoop config (self.afterRead config n) turns

/-- What a session depends on outside the kernel's answers. -/
structure Environment where
  load : Except Error Unit := .ok ()
  nsToTicks : UInt64 → UInt64 := id
  readyQueued : Bool := true
  spawned : Except String Unit := .ok ()
  joined : Except String Unit := .ok ()
  panicked : Bool := false
  turns : List Turn := []
  sessionNs : ℕ := 0

/-- `drain` with the thread it starts and joins. -/
def drain (env : Environment) (config : SessionConfig) : Session RecordSummary :=
  if !env.readyQueued then
    pure { recordsDrained := 0, sessionNs := env.sessionNs }
  else
    match env.spawned with
    | .error message => ofExcept (.error (.sysctl "spawn staxd-kdebug-drain" message))
    | .ok () => do
      let result ← (drainKdebugLoop config
        { readBatchRecords := config.minReadBatchRecords } env.turns).result
      match env.joined with
      | .error message => ofExcept (.error (.sysctl "join staxd-kdebug-drain" message))
      | .ok () =>
        if env.panicked then
          ofExcept (.error (.sysctl "staxd-kdebug-drain" "thread panicked"))
        else
          ofExcept (result.map fun recordsDrained =>
            { recordsDrained := recordsDrained, sessionNs := env.sessionNs })

/-! ## The session -/

/-- A session from its first call to its last: gate, setup, drain and teardown. -/
def run (env : Environment) (config : SessionConfig) : Session RecordSummary := do
  ofExcept (env.load.mapError mapKperfErr)
  let gate ← issue Call.kpcForceAllCtrsGet
  if gate.rc ≠ 0 then ofExcept (.error .notRoot)
  else do
    ignored (.kperfSampleSet 0)
    ignored .kperfReset
    ignored (.setLightweightPet 0)
    ignored (.kdebugEnable false)
    ignored .kdebugReset
    setupKperf env.nsToTicks config
    setupKdebug config
    let result ← (drain env config).result
    teardown
    ofExcept result

end Stax.Staxd
