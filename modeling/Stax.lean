import Stax.Lib.Transducer
import Stax.Kdebug
import Stax.Kperf.Parser
import Stax.Kperf.ParserFraming
import Stax.Kperf.StackReassembly
import Stax.Lib.Interleave
import Stax.Kperf.SampleStreams
import Stax.Kperf.StreamLoss
import Stax.Kperf.ProbeScanners
import Stax.Kperf.OffCpu
import Stax.Kperf.ThreadTimeline
import Stax.Kperf.IntervalOrder
import Stax.Kperf.CpuBound
import Stax.Kperf.Conservation
import Stax.Kperf.WakeAttribution
import Stax.Kperf.KernelSymbols
import Stax.Kperf.Pipeline
import Stax.Kperf.BatchInvariance
import Stax.Lib.RoseTree
import Stax.Lib.Saturating
import Stax.Lib.PathTrie
import Stax.Lib.TrieWeights
import Stax.Live.Aggregator
import Stax.Live.Credits
import Stax.Live.AddressTable
import Stax.Live.ThreadMerge
import Stax.Lib.Windows
import Stax.Live.Attribution
import Stax.Live.Timeline
import Stax.Live.IntervalTotals
import Stax.Live.Filter
import Stax.Live.TimeRange
import Stax.Lib.Grouping
import Stax.Live.Flame
import Stax.Live.FlameQuotient
import Stax.Lib.Collapse
import Stax.Live.RecursionFold
import Stax.Live.FlameSiblings
import Stax.Live.FlameDominance
import Stax.Live.SessionAnchor
import Stax.Lib.Predecessor
import Stax.Binaries.SymbolTable
import Stax.Lib.LruCache
import Stax.Binaries.Registry
import Stax.Binaries.Coverage
import Stax.Binaries.Labels
import Stax.Lib.Announcements
import Stax.Kperf.ImageScan
import Stax.Live.DrillDown
import Stax.Lib.RunningMax
import Stax.Live.StackCounts
import Stax.Live.TopEntries
import Stax.Lib.GroupTree
import Stax.Live.Neighbors
import Stax.Live.SymbolTrees
import Stax.Live.FamilyTree
import Stax.Live.Duality
import Stax.Live.SentTrees
import Stax.Live.ClickThrough
import Stax.Live.TopOrder
import Stax.Live.SnapshotOrder
import Stax.Kperf.DyldFastPath
import Stax.Lib.Bytes
import Stax.Lib.Framing
import Stax.Kperf.JitdumpTail
import Stax.Lib.Cuts
import Stax.Live.Cfg
import Stax.Live.CfgPartition
import Stax.Live.CfgEdges
import Stax.Lib.Ledger
import Stax.Lib.Machine
import Stax.Server.Ingest
import Stax.Server.Jobs
import Stax.Server.RunRegistry
import Stax.Server.Steps
import Stax.Server.Frozen
import Stax.Server.StopRequest
import Stax.Server.Isolation
import Stax.Server.ShadeChild
import Stax.Server.WaitActive
import Stax.Server.ChannelClose
import Stax.Server.Pause
import Stax.Server.Subscription
import Stax.Lib.Script
import Stax.Staxd.Session
import Stax.Staxd.Teardown
import Stax.Lib.DropOldest
import Stax.Staxd.SendQueue
import Stax.StaxdClient.Queues
import Stax.StaxdClient.Worker
import Stax.Recorder.IngestSink
import Stax.Live.FamilyWeights
import Stax.Lib.Capped
import Stax.Live.RecentEntries
import Stax.Lib.Histogram
import Stax.Live.TimelineBuckets
import Stax.Live.Wakers
import Stax.Binaries.LazyIndex
import Stax.Kperf.JitdumpFrames
import Stax.Kperf.JitdumpSafety
import Stax.Kperf.JitdumpReject
import Stax.Kperf.SlideVotes
import Stax.Live.CfgRealBlocks
import Stax.Lib.LinearSearch
import Stax.Binaries.KernelLookup
import Stax.Binaries.CodeFetch
import Stax.Lib.Exclusive
import Stax.Staxd.Daemon
import Stax.TargetImages.Macho
import Stax.TargetImages.SectionOrder
import Stax.Lib.CharText
import Stax.Live.Highlight
import Stax.Server.Operations
import Stax.Server.PendingTerminals
import Stax.Lib.Relay
import Stax.Terminal.Input
import Stax.Terminal.Output
import Stax.Recorder.RecordPath
import Stax.StaxdClient.WorkerOrder
import Stax.Server.Listing
import Stax.Server.Draining
import Stax.Recorder.IngestPath
import Stax.Lib.Child
import Stax.Shade.Lifecycle
import Stax.Live.NaiveCredits
