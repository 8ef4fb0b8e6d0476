import Toso.Lib.Covering
import Toso.Lib.Dict
import Toso.Lib.Fallback
import Toso.Lib.Feed
import Toso.Lib.Grouping
import Toso.Lib.Heap
import Toso.Lib.Join
import Toso.Lib.Levels
import Toso.Lib.Lossy
import Toso.Lib.Machine
import Toso.Lib.Mirror
import Toso.Lib.Paging
import Toso.Lib.PrefixChain
import Toso.Lib.Progress
import Toso.Lib.Reach
import Toso.Lib.Server
import Toso.Lib.Sharing
import Toso.Lib.Utf16
import Toso.Lib.Utf8
import Toso.Lib.Wire
import Toso.Store.Agreement
import Toso.Store.Determinism
import Toso.Store.Eviction
import Toso.Store.LossyMap
import Toso.Store.Refusal
import Toso.Store.Residency
import Toso.Store.Retention
import Toso.Store.VolumeService
import Toso.StoreReader.Aggregator
import Toso.StoreReader.Json
import Toso.StoreReader.Pages
import Toso.StoreReader.Records
import Toso.StoreReader.Trie
import Toso.StoreReader.Summary
import Toso.StoreReader.Wire
import Toso.Proposed.Bounds
import Toso.Proposed.Coverage
import Toso.Proposed.Dispatcher
import Toso.Proposed.FirstMatch
import Toso.Proposed.Gates
import Toso.Proposed.Ordering
import Toso.Proposed.Selection
import Toso.SimCommon.AsyncEngine
import Toso.SimCommon.CostModel
import Toso.SimCommon.Engine
import Toso.SimCommon.FairShare
import Toso.SimCommon.FirstCome
import Toso.SimCommon.Ledger
import Toso.SimCommon.Report
import Toso.SimCommon.Resources
import Toso.SimCommon.Trace
import Toso.Realsim.DictDirectory
import Toso.Realsim.Drive
import Toso.Realsim.Gather
import Toso.Realsim.Releases
import Toso.Realsim.Runner
import Toso.Realsim.Transport
import Toso.Domain.Llm
import Toso.DedupSim.Burst
import Toso.DedupSim.Directory
import Toso.DedupSim.Fabric
import Toso.DedupSim.Fanout
import Toso.DedupSim.FanoutCap
import Toso.DedupSim.Fleet
import Toso.DedupSim.OneHop
import Toso.DedupSim.ReadThrough
import Toso.DedupSim.Returns
import Toso.DedupSim.Routing
import Toso.DedupSim.Spread
import Toso.KvCache.Accelerator
import Toso.KvCache.Answer
import Toso.KvCache.Collector
import Toso.KvCache.Conversations
import Toso.KvCache.DecodeCount
import Toso.KvCache.DecodeEngine
import Toso.KvCache.DecodeRun
import Toso.KvCache.Generator
import Toso.KvCache.Metrics
import Toso.KvCache.Pending
import Toso.KvCache.PlanShape
import Toso.KvCache.Prefill
import Toso.KvCache.PricedOnce
import Toso.KvCache.PullCost
import Toso.KvCache.QueueTail
import Toso.KvCache.Rankings
import Toso.KvCache.Reconcile
import Toso.KvCache.Reference
import Toso.KvCache.Reports
import Toso.KvCache.Request
import Toso.KvCache.RoutedPulls
import Toso.KvCache.Scheduler
import Toso.KvCache.Sensors
import Toso.KvCache.ServiceOrder
import Toso.KvCache.ServiceRun
import Toso.KvCache.Serving
import Toso.Tui.Aggregator
import Toso.Tui.Agreement
import Toso.Tui.App
import Toso.Tui.Contract
import Toso.Tui.LazyList
import Toso.Tui.Model
import Toso.Tui.Paging
import Toso.Tui.Session
import Toso.Tui.Stack
import Toso.Tui.Turns
