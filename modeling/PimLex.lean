import PimLex.Common
import PimLex.Search.Bisect
import PimLex.Search.TwoWay
import PimLex.Search.Sorting
import PimLex.Transition.Run
import PimLex.Transition.Fair
import PimLex.Transition.Threads
import PimLex.Transition.Trace
import PimLex.Transition.Procedure
import PimLex.Tree.Node
import PimLex.Tree.Leaf
import PimLex.Tree.Invariant
import PimLex.Tree.Lookup
import PimLex.Tree.Placement
import PimLex.Tree.Collect
import PimLex.Tree.History
import PimLex.Tree.Snapshot
import PimLex.Tree.Distinct
import PimLex.Tree.Payload
import PimLex.OverflowSearch
import PimLex.Page
import PimLex.PageLookup
import PimLex.Allocation
import PimLex.AllocationTotal
import PimLex.AllocationOrder
import PimLex.Replica
import PimLex.BulkTransfer
import PimLex.Gather
import PimLex.Dispatch
import PimLex.QuickSkew
import PimLex.Index
import PimLex.HostSearch
import PimLex.Kernel
import PimLex.Fitting.Line
import PimLex.Fitting.Hull
import PimLex.Fitting.Greedy
import PimLex.Pgm.PiecewiseLinear
import PimLex.Pgm.Hull
import PimLex.Pgm.Feasible
import PimLex.Pgm.Taken
import PimLex.Pgm.Segmentation
import PimLex.ModelFit
import PimLex.KernelModel
import PimLex.Fitting.Rounding
import PimLex.Pgm.Segment
import PimLex.Pgm.Build
import PimLex.Pgm.Level
import PimLex.Pgm.Levels
import PimLex.Pgm.Search
import PimLex.Pgm.Kernel
import PimLex.Lut
import PimLex.PointRead
import PimLex.Pgm.PureSearch
import PimLex.Insert
import PimLex.InsertRounds
import PimLex.WarmUp
import PimLex.Buffered
import PimLex.InsertedRead
import PimLex.Scan
import PimLex.ScanVisit
import PimLex.ScanExact
import PimLex.Skew
import PimLex.SkewLoss
import PimLex.Mix
import PimLex.MixUpdate
import PimLex.MixInsert
import PimLex.PageRange
import PimLex.Reinsertion
import PimLex.Tasklets
import PimLex.SearchBatch
import PimLex.Pgm.Batch
import PimLex.Sampling
import PimLex.Lock.Protocol
import PimLex.Lock.Exclusion
import PimLex.Lock.Version
import PimLex.Lock.Optimistic
import PimLex.Lock.Untorn
import PimLex.Lock.Section
import PimLex.Lock.SectionFair
import PimLex.Lock.PageCalls
import PimLex.Tree.Concurrent
import PimLex.Tree.Owners
import PimLex.Tree.Heap
import PimLex.Tree.Exclusive
import PimLex.Merge.Loop
import PimLex.Merge.Cursor
import PimLex.Merge.Slice
import PimLex.Merge.Cuts
import PimLex.Merge.Sequential
import PimLex.Merge.Threads
import PimLex.Merge.Schedule
import PimLex.Merge.Progress
import PimLex.Merge.Union
import PimLex.Merge.Update
import PimLex.Merge.PageReads
import PimLex.Merge.Publish
import PimLex.Pgm.Merged
import PimLex.Pgm.Inserted
