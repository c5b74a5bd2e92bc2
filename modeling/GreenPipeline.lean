import GreenPipeline.Core.Tournament
import GreenPipeline.Core.Climb
import GreenPipeline.Core.Kleene
import GreenPipeline.Core.OrderedField
import GreenPipeline.Core.Rounding
import GreenPipeline.Core.Patch
import GreenPipeline.Core.Bytes
import GreenPipeline.Core.PagedSpace
import GreenPipeline.Core.LevelOrder
import GreenPipeline.Core.Escape
import GreenPipeline.Core.Ranking
import GreenPipeline.Core.Digraph
import GreenPipeline.Core.StateSearch
import GreenPipeline.Core.Bsearch
import GreenPipeline.Core.Intervals
import GreenPipeline.Core.Numbering
import GreenPipeline.Core.Lts
import GreenPipeline.Core.BitFields
import GreenPipeline.Core.Flags
import GreenPipeline.Core.LexOrder
import GreenPipeline.Core.BackRefs
import GreenPipeline.Core.Ring
import GreenPipeline.Core.Positional
import GreenPipeline.Core.HalfAway
import GreenPipeline.Core.LongDivision
import GreenPipeline.Core.Loop
import GreenPipeline.Core.CellHeap
import GreenPipeline.Core.Wildcard
import GreenPipeline.L1Nodes.Bitmapset
import GreenPipeline.L1Nodes.BoolExpr
import GreenPipeline.L1Nodes.PrimNodes
import GreenPipeline.L1Nodes.NodeToken
import GreenPipeline.L1Nodes.NodeText
import GreenPipeline.L1Nodes.ListCells
import GreenPipeline.L1Adt.NumericVar
import GreenPipeline.L1Adt.NumericValue
import GreenPipeline.L1Adt.NumericRound
import GreenPipeline.L1Adt.NumericTypmod
import GreenPipeline.L1Adt.NumericInt
import GreenPipeline.L1Adt.NumericMul
import GreenPipeline.L1Adt.NumericArith
import GreenPipeline.L1Adt.NumericDiv
import GreenPipeline.L1Adt.NumericBucket
import GreenPipeline.L1Adt.NumericAccum
import GreenPipeline.L1Adt.NumericAggregate
import GreenPipeline.L1Adt.LikeMatch
import GreenPipeline.L1Adt.LikeEscape
import GreenPipeline.L1Adt.Julian
import GreenPipeline.L2Access.GenericXlog
import GreenPipeline.L2Access.XLogSpace
import GreenPipeline.L2Access.TransactionId
import GreenPipeline.L2Access.Clog
import GreenPipeline.L2Access.Subtrans
import GreenPipeline.L2Access.HeapTuple
import GreenPipeline.L2Access.Snapshot
import GreenPipeline.L2Access.Visibility
import GreenPipeline.L2Access.VacuumVisibility
import GreenPipeline.L2Access.Freeze
import GreenPipeline.L2Access.HashBuckets
import GreenPipeline.L2Access.BtIndex
import GreenPipeline.L2Access.BtSearch
import GreenPipeline.L2Access.GinPostingList
import GreenPipeline.L2Storage.FsmPage
import GreenPipeline.L2Storage.PglzDecompress
import GreenPipeline.L3Planner.Pathkeys
import GreenPipeline.L3Planner.PathCosts
import GreenPipeline.L3Planner.AddPath
import GreenPipeline.L3Planner.PathlistCells
import GreenPipeline.L3Planner.CheapestPath
import GreenPipeline.L3Planner.Prepqual
import GreenPipeline.L3Planner.NegateClause
import GreenPipeline.L3Planner.PowerModel
import GreenPipeline.L3Planner.PathNodes
import GreenPipeline.L3Planner.NodeCosts
import GreenPipeline.L3Planner.JoinCosts
import GreenPipeline.L3Planner.MergeJoinCosts
import GreenPipeline.L3Planner.HashJoinCosts
import GreenPipeline.L3Planner.JoinLowerBounds
import GreenPipeline.L3Planner.IndexPages
import GreenPipeline.L3Catalog.PartitionBound
import GreenPipeline.L3Catalog.PartitionDesc
import GreenPipeline.L3Catalog.PartitionRouting
import GreenPipeline.L3Catalog.PartitionQual
import GreenPipeline.L4App.SegPipe
import GreenPipeline.L4App.ExplainXml
import GreenPipeline.L4App.ExplainFields
import GreenPipeline.L4App.ExplainLinks
import GreenPipeline.L4App.PowerEstimate
import GreenPipeline.L4App.CProcess
import GreenPipeline.L4App.CopyState
import GreenPipeline.L4App.CopyLine
import GreenPipeline.L4App.CopyRows
import GreenPipeline.L4App.CopyText
import GreenPipeline.L4App.CopyCsv
import GreenPipeline.L5Concurrency.SyncRep
import GreenPipeline.L5Concurrency.TopoSort
import GreenPipeline.L5Concurrency.WaitOrder
import GreenPipeline.L5Concurrency.LockCycle
import GreenPipeline.L5Concurrency.CommitTree
import GreenPipeline.L5Concurrency.Sinval
import GreenPipeline.L5Concurrency.SinvalCleanup
import GreenPipeline.L5Concurrency.SinvalDelivery
