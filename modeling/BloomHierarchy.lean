import BloomHierarchy.Lib.Blocks
import BloomHierarchy.Lib.BitPacking
import BloomHierarchy.Lib.PositionFilter
import BloomHierarchy.Lib.StdString
import BloomHierarchy.Basic
import BloomHierarchy.BloomValue
import BloomHierarchy.BloomTree
import BloomHierarchy.TreeLevels
import BloomHierarchy.TreeSearch
import BloomHierarchy.Dump
import BloomHierarchy.DBOperation
import BloomHierarchy.MainFlow
import BloomHierarchy.DBFiles
import BloomHierarchy.FilterFiles
import BloomHierarchy.Lib.Interleaving
import BloomHierarchy.Threads
import BloomHierarchy.Lib.Versions
import BloomHierarchy.Store
import BloomHierarchy.StoreRuns
import BloomHierarchy.DbCreation
import BloomHierarchy.FilterFormat
import BloomHierarchy.TreeShape
import BloomHierarchy.TreeFilters
import BloomHierarchy.DumpRecords
import BloomHierarchy.ThreadFailures
import BloomHierarchy.Lib.Comparison
import BloomHierarchy.RecordOrder
import BloomHierarchy.MultiplyValue
import BloomHierarchy.ThreadPool
import BloomHierarchy.ThreadPoolRuns
import BloomHierarchy.PoolSearch
import BloomHierarchy.Coding
import BloomHierarchy.BlockFormat
import BloomHierarchy.BlockIterator
import BloomHierarchy.BlockCursor
import BloomHierarchy.TwoLevelIterator
import BloomHierarchy.BloomPolicy
import BloomHierarchy.FilterBlock
import BloomHierarchy.TableFormat
import BloomHierarchy.TableBuilder
import BloomHierarchy.TableImage
import BloomHierarchy.Table
import BloomHierarchy.TableReads
import BloomHierarchy.TableStored
import BloomHierarchy.LogReader
import BloomHierarchy.LogReads
import BloomHierarchy.LogRecovery
