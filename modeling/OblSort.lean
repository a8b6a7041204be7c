import OblSort.Server.Proof.Allocator
import OblSort.Server.Proof.Nonce
import OblSort.Common.Proof.Utils
import OblSort.Algorithm.Bitonic
import OblSort.Algorithm.Proof.Bitonic
import OblSort.ExtVector
import OblSort.Proof.ExtVector
import OblSort.Algorithm.EdgeRec
import OblSort.Algorithm.Proof.EdgeRec
import OblSort.Algorithm.Proof.StaticSort
import OblSort.Algorithm.Interleave
import OblSort.Algorithm.SortDef
import OblSort.Algorithm.Proof.Interleave
import OblSort.Algorithm.MergeSplit
import OblSort.Algorithm.Proof.MergeSplit
import OblSort.Algorithm.Proof.MergeSplitKWay
import OblSort.Algorithm.KWayButterflySort
import OblSort.Algorithm.Proof.ButterflyRouting
import OblSort.Algorithm.Proof.ButterflyPages
import OblSort.Algorithm.Proof.ButterflyShuffle
import OblSort.Algorithm.Proof.ButterflyKeeps
import OblSort.Algorithm.Proof.PartitionDummy
import OblSort.Algorithm.Proof.ButterflyGroups
import OblSort.Algorithm.ExtMergeSort
import OblSort.Algorithm.Proof.SortDef
import OblSort.Algorithm.Proof.ButterflySort
import OblSort.Algorithm.WaksOnOff
import OblSort.Algorithm.Proof.WaksCounts
import OblSort.Algorithm.Proof.WaksWalk
import OblSort.Algorithm.Proof.WaksOnOff
import OblSort.Lib.Paged
import OblSort.NonCachedVector
import OblSort.Proof.CopyOut
import OblSort.Proof.CopyFrame
import OblSort.Proof.ReaderWriter
import OblSort.Server.BatchFrontend
import OblSort.Server.Proof.BatchFrontend
import OblSort.Server.Proof.BatchRuns
import OblSort.PrefetchReader
import OblSort.Proof.PrefetchReader
import OblSort.Algorithm.PagePermReader
import OblSort.Algorithm.Proof.PagePermReader
import OblSort.Algorithm.OrCompact
import OblSort.Algorithm.KWayDistriSort
import OblSort.Algorithm.Proof.DistriRuns
import OblSort.Algorithm.DistriVector
import OblSort.Algorithm.Proof.DistriVector
import OblSort.Algorithm.Proof.DistriTags
import OblSort.Algorithm.CABucketSort
import OblSort.Algorithm.Proof.BinPacking
import OblSort.Algorithm.Proof.BucketRouting
import OblSort.Algorithm.Proof.CABucketSort
import OblSort.Apps.AppsCommon
import OblSort.Apps.Histogram
import OblSort.Apps.Proof.AppsCommon
import OblSort.Apps.Proof.Histogram
import OblSort.Apps.DbJoin
import OblSort.Apps.Proof.DbJoin
import OblSort.Apps.OramInit
import OblSort.Apps.Proof.OramInit
import OblSort.Proof.DynamicVector
import OblSort.Algorithm.ParamSelect
import OblSort.Algorithm.Proof.ParamSelect
import OblSort.Apps.LoadBalancer
import OblSort.Apps.Proof.LoadBalancer
import OblSort.Lib.Trace
import OblSort.Algorithm.Instrumented
import OblSort.Algorithm.Proof.Instrumented
import OblSort.Lib.Compaction
import OblSort.Algorithm.Proof.OrCompact
import OblSort.Algorithm.Proof.Goodrich
import OblSort.Algorithm.MergeSplitInPlace
import OblSort.Algorithm.Proof.MergeSplitInPlace
import OblSort.Algorithm.OrShuffle
import OblSort.Algorithm.Proof.OrShuffle
import OblSort.Algorithm.Proof.MergePasses
import OblSort.Apps.Proof.Sharding
import OblSort.Lib.Runs
import OblSort.Apps.BitonicBalancer
import OblSort.Apps.Proof.BitonicBalancer
import OblSort.Algorithm.Proof.BinPackingRelease
import OblSort.Lib.Strided
import OblSort.Algorithm.Proof.DistriRouting
import OblSort.Algorithm.Proof.DistriPages
import OblSort.Algorithm.Proof.DistriSort
import OblSort.Lib.Schedule
import OblSort.Proof.ReplayVector
import OblSort.Algorithm.Proof.DistriFresh
import OblSort.Algorithm.Proof.ButterflyFresh
import OblSort.Algorithm.Proof.PageFreshness
import OblSort.Algorithm.Proof.LowerBound
import OblSort.Server.FileServer
import OblSort.Server.Proof.FileServer
import OblSort.Common.Proof.FisherYates
import OblSort.Algorithm.Proof.SlowBitonic
import OblSort.Algorithm.Proof.RandomizedShellSort
import OblSort.Server.LRUCache
import OblSort.Server.Proof.LRUCache
import OblSort.Algorithm.Permute
import OblSort.Algorithm.Proof.Permute
import OblSort.Algorithm.WaySolver
import OblSort.Algorithm.Proof.WaySolver
import OblSort.Lib.Rank
import OblSort.Algorithm.Proof.SampleForPivots
import OblSort.Algorithm.Proof.DistriOverflow
import OblSort.Lib.Lanes
import OblSort.Lib.Memory
import OblSort.Common.MovIntrinsics
import OblSort.Common.Proof.MovIntrinsics
import OblSort.Common.CmpIntrinsics
import OblSort.Common.Proof.CmpIntrinsics
import OblSort.Lib.Follow
import OblSort.Proof.WitnessedVector
import OblSort.Algorithm.Proof.ButterflyReplay
import OblSort.Algorithm.Proof.DistriReplay
import OblSort.Lib.Log
import OblSort.Algorithm.Transfers
import OblSort.Algorithm.Proof.ButterflyTransfers
import OblSort.Algorithm.Proof.DistriTransfers
import OblSort.Lib.Lockstep
import OblSort.Algorithm.ShuffleAccesses
import OblSort.Algorithm.Proof.ShuffleAccesses
import OblSort.Lib.Bytes
import OblSort.Server.SharedBackend
import OblSort.Server.Proof.SharedBackend
import OblSort.Algorithm.MergeVector
import OblSort.Algorithm.Proof.MergeVector
import OblSort.Algorithm.CABucketVector
import OblSort.Algorithm.Proof.CABucketVector
import OblSort.Algorithm.Proof.DistriStreams
import OblSort.Algorithm.Proof.DistriVectorSort
import OblSort.Algorithm.ButterflyVector
import OblSort.Algorithm.Proof.ButterflyVector
import OblSort.Apps.InitFromReader
import OblSort.Apps.Proof.InitFromReader
import OblSort.Algorithm.WaksShuffle
import OblSort.Algorithm.Proof.WaksShuffle
import OblSort.Common.RandGen
import OblSort.Common.Proof.RandGen
