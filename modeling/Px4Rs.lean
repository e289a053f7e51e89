import Px4Rs.Runs
import Px4Rs.Mutex
import Px4Rs.Executions
import Px4Rs.TaskCell
import Px4Rs.TaskCellInv
import Px4Rs.TaskCellRespawn
import Px4Rs.TaskCellAlloc
import Px4Rs.TaskCellSlot
import Px4Rs.TaskCellWake
import Px4Rs.AtomicWaker
import Px4Rs.WakerCalls
import Px4Rs.WakerLive
import Px4Rs.WakerSlot
import Px4Rs.Parking
import Px4Rs.Notify
import Px4Rs.Sleep
import Px4Rs.MockHrt
import Px4Rs.MaxHeap
import Px4Rs.TimerQueue
import Px4Rs.Ring
import Px4Rs.Channel
import Px4Rs.ChannelThreads
import Px4Rs.ChannelWakers
import Px4Rs.ChannelLen
import Px4Rs.Publication
import Px4Rs.Ledger
import Px4Rs.Advertisements
import Px4Rs.Instances
import Px4Rs.PublicationLive
import Px4Rs.Broker
import Px4Rs.BrokerCallbacks
import Px4Rs.SubscriptionRecv
import Px4Rs.MissedCount
import Px4Rs.BrokerCopies
import Px4Rs.LostCounters
import Px4Rs.OverCount
import Px4Rs.Generation
import Px4Rs.Metadata
import Px4Rs.Registration
import Px4Rs.Walk
import Px4Rs.ReprC
import Px4Rs.Message
import Px4Rs.Parser
import Px4Rs.Words
import Px4Rs.Strings
import Px4Rs.Items
import Px4Rs.LineLocal
import Px4Rs.Rendering
import Px4Rs.Grammar
import Px4Rs.Layout
import Px4Rs.LayoutUsize
import Px4Rs.Uncached
import Px4Rs.Sizes
import Px4Rs.FieldOrder
import Px4Rs.Resolve
import Px4Rs.Emit
import Px4Rs.EmitItems
import Px4Rs.Topics
import Px4Rs.SnakeNames
import Px4Rs.SourceHash
import Px4Rs.Splice
import Px4Rs.Writes
import Px4Rs.GenMsgs
import Px4Rs.Abi
import Px4Rs.Memo
import Px4Rs.ResolverCache
import Px4Rs.Log
import Px4Rs.Executor
import Px4Rs.Pipe
import Px4Rs.HostLocks
import Px4Rs.BrokerReads
import Px4Rs.SleepWakes
import Px4Rs.Listing
import Px4Rs.FanOut
import Px4Rs.RoundTrip
import Px4Rs.LogTarget
import Px4Rs.SizeOrder
import Px4Rs.Futures
import Px4Rs.Sleepers
import Px4Rs.Watching
import Px4Rs.FreshHandles
