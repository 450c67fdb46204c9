/-
# Stax.Server.Ingest — applying an ingest event.

Events come to the aggregator and the binary registry through a channel or through calls that answer.
Either way an event is checked against the active run in a section under the run registry's lock,
and written in another section under the lock of what it is written to.  Nothing but the run's id is
checked.

The aggregator and the binary registry are ledgers whose keys are the ids of the runs that the
writes were made under.
-/
import Stax.Live.Aggregator
import Stax.Binaries.Registry
import Stax.Lib.Bytes
import Stax.Lib.Ledger
import Stax.Server.Registry

namespace Stax.Server

open Stax.Live (Addr Tid PmuSample)
open Stax.Binaries (BinaryRegistry LoadedBinary MachOSymbol SharedCache)
open Stax.Lib

/-! ## Events -/

/-- A sample as the shade sends it, with the stacks of the kernel and of the user. -/
structure WireSampleEvent where
  timestampNs : ℕ
  tid : Tid
  kernelBacktrace : List Addr
  userBacktrace : List Addr
  pmc : PmuSample
  deriving DecidableEq, Repr

/-- A stretch on a cpu as the shade sends it. -/
structure WireOnCpuInterval where
  tid : Tid
  startNs : ℕ
  endNs : ℕ
  deriving DecidableEq, Repr

/-- A stretch off a cpu as the shade sends it, with its stack and the waker's. -/
structure WireOffCpuInterval where
  tid : Tid
  startNs : ℕ
  endNs : ℕ
  stack : List Addr
  wakerTid : Option Tid
  wakerUserStack : Option (List Addr)
  deriving DecidableEq, Repr

/-- A wakeup as the shade sends it, with both stacks of the waker. -/
structure WireWakeup where
  timestampNs : ℕ
  wakerTid : Tid
  wakeeTid : Tid
  wakerUserStack : List Addr
  wakerKernelStack : List Addr
  deriving DecidableEq, Repr

/-- A binary that was mapped into the target, and where; addresses of the file begin at `textSvma`.
-/
structure WireBinaryLoaded where
  path : String
  baseAvma : Addr
  vmsize : UInt64
  textSvma : Addr
  arch : Option String
  isExecutable : Bool
  symbols : List MachOSymbol
  textBytes : Option (List UInt8)
  deriving DecidableEq, Repr

/-- A binary that is no longer mapped into the target. -/
structure WireBinaryUnloaded where
  path : String
  baseAvma : Addr
  deriving DecidableEq, Repr

/-- The events of the channel from the shade to the server. -/
inductive IngestEvent
  | targetAttached (pid : Pid) (taskPort : UInt64)
  | sample (s : WireSampleEvent)
  | onCpuInterval (i : WireOnCpuInterval)
  | offCpuInterval (i : WireOffCpuInterval)
  | binaryLoaded (b : WireBinaryLoaded)
  | binaryUnloaded (b : WireBinaryUnloaded)
  | threadName (pid : Pid) (tid : Tid) (name : String)
  | wakeup (w : WireWakeup)
  deriving DecidableEq, Repr

/-- How `apply_event` counts an event in the run's summary. -/
def IngestEvent.tally : IngestEvent → Tally
  | .sample _ => .sample
  | .offCpuInterval _ => .offCpuInterval
  | .targetAttached pid _ => .target pid
  | _ => .nothing

/-! ## The aggregator and the binary registry -/

/-- The event log with the threads' names. -/
structure LiveAggregator where
  log : Live.Aggregator := {}
  threadNames : AList (fun _ : Tid => String) := ∅

/-- What an event changes in the live aggregator. -/
inductive AggregatorWrite
  | event (e : Live.Aggregator.Event)
  | threadName (tid : Tid) (name : String)
  deriving DecidableEq

/-- The aggregator after one write, to its log or to the names of its threads. -/
def LiveAggregator.apply (self : LiveAggregator) : AggregatorWrite → LiveAggregator
  | .event e => { self with log := self.log.record e }
  | .threadName tid name => { self with threadNames := self.threadNames.insert tid name }

/-- The host's dyld shared cache: its images, and its bytes. -/
structure HostCache where
  cache : SharedCache
  source : Addr → ℕ → Option (List UInt8)

/-- What an event or the start of a run changes in the registry of binaries. -/
inductive RegistryWrite
  | insert (binary : LoadedBinary)
  | setTarget (pid : Pid) (taskPort : UInt64)
  | attachSharedCache (host : HostCache)

/-- The write comes from an ingest event, not from the start of a run. -/
def RegistryWrite.IsIngest : RegistryWrite → Prop
  | .insert _ | .setTarget _ _ => True
  | .attachSharedCache _ => False

/-- The registry after one write, each a call of the registry's own. -/
def applyWrite (self : BinaryRegistry) : RegistryWrite → BinaryRegistry
  | .insert binary => self.insert binary
  | .setTarget pid taskPort => self.setTarget pid taskPort
  | .attachSharedCache host => (self.setMachoByteSource host.source).setSharedCache host.cache

/-- The aggregator, with every write since its reset and the run it was made for. -/
abbrev AggregatorLedger := Ledger RunId ({} : LiveAggregator) LiveAggregator.apply

/-- The registry of binaries, with every write since its reset and the run it was made for. -/
abbrev RegistryLedger := Ledger RunId BinaryRegistry.new applyWrite

/-- Some symbol's name contains the text; an empty text is always found. -/
def anySymbolContains (self : BinaryRegistry) (needle : String) : Bool :=
  (utf8Bytes needle).isEmpty ||
    self.byBase.any fun binary => binary.symbols.any fun sym => utf8Bytes needle <:+: sym.name

/-! ## The writes of an event -/

/-- A sample goes into the buffer of its thread. -/
def WireSampleEvent.write (s : WireSampleEvent) : AggregatorWrite :=
  .event (.petSample s.tid
    { timestampNs := s.timestampNs
      stack := s.userBacktrace
      kernelStack := s.kernelBacktrace
      pmc := s.pmc })

/-- A stretch on a cpu goes into the buffer of its thread. -/
def WireOnCpuInterval.write (i : WireOnCpuInterval) : AggregatorWrite :=
  .event (.interval i.tid { startNs := i.startNs, endNs := i.endNs, kind := .onCpu })

/-- A stretch off a cpu goes into the buffer of its thread. -/
def WireOffCpuInterval.write (i : WireOffCpuInterval) : AggregatorWrite :=
  .event (.interval i.tid
    { startNs := i.startNs
      endNs := i.endNs
      kind := .offCpu i.stack i.wakerTid i.wakerUserStack })

/-- A wakeup goes into the buffer of the thread that was woken. -/
def WireWakeup.write (w : WireWakeup) : AggregatorWrite :=
  .event (.wakeup w.wakeeTid
    { timestampNs := w.timestampNs
      wakerTid := w.wakerTid
      wakerUserStack := w.wakerUserStack
      wakerKernelStack := w.wakerKernelStack })

/-- The entry of the registry for a binary; its end saturates. -/
def WireBinaryLoaded.loaded (b : WireBinaryLoaded) : LoadedBinary :=
  { path := b.path
    baseAvma := b.baseAvma
    avmaEnd := BinaryRegistry.saturatingAdd b.baseAvma b.vmsize
    textSvma := b.textSvma
    arch := b.arch
    isExecutable := b.isExecutable
    symbols := b.symbols
    textBytes := b.textBytes }

/-! ## Sections of applying an event -/

/-- What is left to do of applying an event. -/
inductive Applying
  | event (e : IngestEvent)
  | record (w : AggregatorWrite)
  | load (b : WireBinaryLoaded)
  | insert (b : LoadedBinary)
  | unload (baseAvma : Addr)
  | attachTarget (pid : Pid) (taskPort : UInt64)
  | setTarget (pid : Pid) (taskPort : UInt64)
  | bump
  deriving DecidableEq

/-- What follows the first section of `apply_event`. -/
def IngestEvent.afterCheck : IngestEvent → Applying
  | .sample s => .record s.write
  | .onCpuInterval i => .record i.write
  | .offCpuInterval i => .record i.write
  | .wakeup w => .record w.write
  | .threadName _ tid name => .record (.threadName tid name)
  | .binaryLoaded b => .load b
  | .binaryUnloaded b => .unload b.baseAvma
  | .targetAttached pid taskPort => .attachTarget pid taskPort

/-- The event is checked and not yet written. -/
inductive Applying.Pending : Applying → Prop
  | record (w : AggregatorWrite) : Pending (.record w)
  | insert (b : LoadedBinary) : Pending (.insert b)
  | setTarget (pid : Pid) (taskPort : UInt64) : Pending (.setTarget pid taskPort)

end Stax.Server
