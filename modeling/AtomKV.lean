import AtomKV.Lib.Compare
import AtomKV.Lib.Exec
import AtomKV.Lib.Journal
import AtomKV.Lib.ListAt
import AtomKV.Lib.Refine
import AtomKV.Lib.Runs
import AtomKV.Lib.Simulation
import AtomKV.Lib.Spans
import AtomKV.Lib.Spec
import AtomKV.Lib.Steps
import AtomKV.Lib.Walk
import AtomKV.Lib.Weave
import AtomKV.Format
import AtomKV.Comparator
import AtomKV.Pager
import AtomKV.PagerBytes
import AtomKV.PagerCounts
import AtomKV.Node
import AtomKV.NodeSpace
import AtomKV.Ledger
import AtomKV.BTreeIterator
import AtomKV.Ownership
import AtomKV.NodeRead
import AtomKV.StoreRecord
import AtomKV.NodeWrite
import AtomKV.LeafWrite
import AtomKV.BranchWrite
import AtomKV.RecordUpdate
import AtomKV.LeafUpdate
import AtomKV.LeafRefinement
import AtomKV.OverflowRecords
import AtomKV.BranchUpdate
import AtomKV.BranchRefinement
import AtomKV.Records
import AtomKV.Tree
import AtomKV.BTree
import AtomKV.SplitLeaf
import AtomKV.SplitBranch
import AtomKV.Search
import AtomKV.PathCopy
import AtomKV.PutBranch
import AtomKV.WellFormed
import AtomKV.Put
import AtomKV.Layout
import AtomKV.InsertionLaw
import AtomKV.Overwrite
import AtomKV.OverwriteLaw
import AtomKV.Lookup
import AtomKV.PathWritable
import AtomKV.Traversal
import AtomKV.IteratorEquality
import AtomKV.Backward
import AtomKV.Mapping
import AtomKV.FieldWidths
import AtomKV.Meta
import AtomKV.Durability
import AtomKV.FreeMap
import AtomKV.FreeList
import AtomKV.MetaLoad
import AtomKV.Allocator
import AtomKV.Coalescing
import AtomKV.Rollback
import AtomKV.ExclusivePages
import AtomKV.Commit
import AtomKV.SavedMeta
import AtomKV.Snapshot
import AtomKV.CommitFailure
import AtomKV.FreeListRoundTrip
import AtomKV.Log
import AtomKV.UserBucket
import AtomKV.WriteGuard
import AtomKV.TreeGuard
import AtomKV.TreeSlots
import AtomKV.Siblings
import AtomKV.Merge
import AtomKV.Separator
import AtomKV.DeleteBranch
import AtomKV.Rebalancing
import AtomKV.SplitLaw
import AtomKV.LeafBalance
import AtomKV.StackBound
import AtomKV.Iteration
import AtomKV.Bucket
import AtomKV.Views
import AtomKV.RejectedPut
import AtomKV.RejectedSubBucket
import AtomKV.BucketGuard
import AtomKV.DeleteSubBucket
import AtomKV.WalSession
import AtomKV.Recovery
import AtomKV.ReusedPages
import AtomKV.LogReplay
import AtomKV.LogValidation
import AtomKV.Versions
import AtomKV.Reclaim
import AtomKV.Manager
import AtomKV.ManagerSteps
import AtomKV.InPlaceIsolation
import AtomKV.CheckpointImage
import AtomKV.WalIsolation
import AtomKV.DeletionLaw
import AtomKV.Slim
import AtomKV.Dictionary
import AtomKV.WriterTree
import AtomKV.Tallies
import AtomKV.SnapshotStore
import AtomKV.LogFormat
import AtomKV.Replay
import AtomKV.Crash
import AtomKV.CrashInPlace
import AtomKV.BucketCalls
import AtomKV.BucketStore
