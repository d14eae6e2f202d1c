import Impala.Lib.Run
import Impala.Lib.MachineInt
import Impala.Lib.Probing
import Impala.Runtime.StringValue
import Impala.Util.MinMaxFilter
import Impala.Exprs.DecimalAggregates
import Impala.Exprs.StringFunctions
import Impala.Lib.BucketArray
import Impala.Exec.HashTable
import Impala.Exec.HashTableInvariant
import Impala.Exec.HashTableMultimap
import Impala.Lib.FloatBits
import Impala.Runtime.RawValue
import Impala.Exec.HashTableCtx
import Impala.Lib.Forest
import Impala.Runtime.Bufferpool.ReservationTracker
import Impala.Runtime.Bufferpool.ReservationInvariant
import Impala.Lib.Memory
import Impala.Runtime.Tuple
import Impala.Scheduling.HashRing
import Impala.Lib.FloatArith
import Impala.Util.MinMaxFilterOverlap
import Impala.Util.MinMaxFilterMerge
import Impala.Lib.DecimalDigits
import Impala.Util.DecimalUtil
import Impala.Util.StringParser
import Impala.Runtime.DecimalValue
import Impala.Lib.IntRounding
import Impala.Analysis.TypesUtil
import Impala.Runtime.DecimalAdd
import Impala.Runtime.MultiPrecision
import Impala.Runtime.DecimalMultiply
import Impala.Runtime.DecimalDivide
import Impala.Lib.LittleEndian
import Impala.Util.BitStreamUtils
import Impala.Util.InListFilter
import Impala.Util.RleEncoding
import Impala.Util.DictEncoding
import Impala.Exec.Parquet.ParquetDeltaEncoder
import Impala.Util.RleDecoding
import Impala.Exec.Parquet.ParquetPlainEncoder
import Impala.Util.Decompress
import Impala.Exec.Parquet.ParquetBloomFilter
import Impala.Exec.Parquet.ParquetBloomFilterInsert
import Impala.Exec.Parquet.ParquetDeltaDecoder
import Impala.Exec.Parquet.ParquetCommon
import Impala.Exec.HashTableUnmatched
import Impala.Exprs.DecimalOperators
import Impala.Util.StringToInt
import Impala.Runtime.DatetimeSimpleDateFormatParser
import Impala.Lib.PatternMatch
import Impala.Runtime.StringSearch
import Impala.Exprs.StringFunctionsSearch
import Impala.Scheduling.ScanRangeAssignment
import Impala.Lib.AssocList
import Impala.Scheduling.AdmissionController
import Impala.Runtime.Bufferpool.BufferPoolClient
import Impala.Util.BitPacking
import Impala.Util.DictDecoding
import Impala.Runtime.DecimalCompare
import Impala.Lib.Civil
import Impala.Runtime.DateValue
import Impala.Runtime.DateValueIsoWeek
import Impala.Runtime.TimestampValue
import Impala.Runtime.DatetimeDefaultFormat
import Impala.Runtime.TimestampParseUtil
import Impala.Lib.SampleStatistics
import Impala.Exprs.KnuthVariance
import Impala.Exprs.Hll
import Impala.Lib.Morton
import Impala.Util.TupleRowZOrderCompare
import Impala.Lib.Segment
import Impala.Runtime.Sorter.TupleSorterBasic
import Impala.Runtime.Sorter.Partition2way
import Impala.Runtime.Sorter.Partition3way
import Impala.Runtime.Sorter.InsertionSort
import Impala.Runtime.Sorter.SortHelper
import Impala.Runtime.Bufferpool.Suballocator
import Impala.Runtime.Bufferpool.SuballocatorInvariant
import Impala.Lib.BinaryHeap
import Impala.Runtime.SortedRunMerger
import Impala.Util.RleRoundTrip
