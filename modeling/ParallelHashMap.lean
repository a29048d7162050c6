import ParallelHashMap.Lock.Word
import ParallelHashMap.Lock.Standard
import ParallelHashMap.Lock.WritePriority
import ParallelHashMap.Lock.MultiReaderWriter
import ParallelHashMap.Util.MagicNum
import ParallelHashMap.Pool.FixedSize
import ParallelHashMap.Pool.Ownership
import ParallelHashMap.Pool.FixedSizeConcurrent
import ParallelHashMap.Pool.Paging
import ParallelHashMap.Pool.FreeList
import ParallelHashMap.Pool.Sequential
import ParallelHashMap.Pool.Concurrent
import ParallelHashMap.Pool.LockFree
import ParallelHashMap.Pool.ConcurrentSafety
import ParallelHashMap.Pool.Iterator
import ParallelHashMap.Map.LinkedList
import ParallelHashMap.Map.InnerMap
import ParallelHashMap.Map.Resize
import ParallelHashMap.Map.Shard
import ParallelHashMap.Map.HashMap
import ParallelHashMap.Map.Invariant
import ParallelHashMap.Map.Refinement
import ParallelHashMap.Map.Iterator
import ParallelHashMap.Map.Interface
import ParallelHashMap.Map.Rekey
import ParallelHashMap.Map.Concurrent
import ParallelHashMap.Map.Bucket
import ParallelHashMap.Map.ShardLock
