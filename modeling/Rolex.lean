import Rolex.Foundations.Widths
import Rolex.Foundations.AscendingMap
import Rolex.Foundations.BlockChain
import Rolex.Foundations.LinkedSlots
import Rolex.Leaf
import Rolex.LeafAllocator
import Rolex.LeafTable
import Rolex.Represents
import Rolex.ChainSteps
import Rolex.ChainSpec
import Rolex.Routing
import Rolex.LinearModel
import Rolex.SubModel
import Rolex.TrainedLeaves
import Rolex.TableOps
import Rolex.SentinelSteps
import Rolex.MapRefinement
import Rolex.Links
import Rolex.Removal
import Rolex.Foundations.Interleaving
import Rolex.LeafCounter
import Rolex.EntryLocks
import Rolex.ConcurrentInsert
import Rolex.LastSlot
import Rolex.Foundations.Stabbing
import Rolex.PiecewiseLinear
import Rolex.PlrHull
import Rolex.SegmentLines
import Rolex.PredictWindow
import Rolex.Foundations.Bytes
import Rolex.ModelAllocator
import Rolex.Serialization
import Rolex.Index
import Rolex.TrainRun
import Rolex.IndexLayout
import Rolex.WindowSafety
import Rolex.LeafAddresses
import Rolex.TrainedSearch
import Rolex.LearnedCache
import Rolex.ModelRegion
import Rolex.RebuiltIndex
import Rolex.IndexRuns
import Rolex.LockObjects
import Rolex.ClientSearch
import Rolex.IndexContents
import Rolex.ClientInsert
import Rolex.TrainPartition
import Rolex.FailedCalls
import Rolex.SentinelKey
import Rolex.BinarySearch
import Rolex.ModelLookup
import Rolex.Foundations.GreedyCuts
import Rolex.FewestModels
import Rolex.Foundations.BlockFill
import Rolex.LeafUse
import Rolex.AsynSearch
import Rolex.StringFormat
import Rolex.MalformedStrings
import Rolex.ModelBlocks
import Rolex.LocalAllocator
import Rolex.IndexRange
import Rolex.TrainedHomes
import Rolex.ClientRaces
import Rolex.Foundations.Histories
import Rolex.RpcMessages
import Rolex.RpcCore
import Rolex.RemoteSearch
import Rolex.RpcSessions
import Rolex.RemoteOps
import Rolex.Foundations.Mailbox
import Rolex.RemoteCalls
import Rolex.RemoteHistory
import Rolex.Foundations.PointerRing
import Rolex.Scheduler
import Rolex.SchedulerRuns
import Rolex.ClientLoop
import Rolex.AtomicRW
import Rolex.AsyncOps
import Rolex.Foundations.CyclicRange
import Rolex.RecvRing
import Rolex.Foundations.BitFields
import Rolex.TableWord
import Rolex.RpcBuffer
import Rolex.LeafLoops
import Rolex.LeafRuns
import Rolex.RemoteInsert
import Rolex.LeafPool
import Rolex.LeafFetch
import Rolex.LeafRegion
