import Libhipcxx.Support.Transition
import Libhipcxx.Support.Threads
import Libhipcxx.Support.LinearSearch
import Libhipcxx.Support.Tournament
import Libhipcxx.Support.Replies
import Libhipcxx.Support.AtomicObject
import Libhipcxx.Support.Monitor
import Libhipcxx.Support.MachineInt
import Libhipcxx.Support.IntegerType
import Libhipcxx.Support.Integral
import Libhipcxx.Support.Gregorian
import Libhipcxx.Support.MixedRadix
import Libhipcxx.Support.NestedWeights
import Libhipcxx.Support.Lanes
import Libhipcxx.Support.Rounding
import Libhipcxx.Support.CommonUnit
import Libhipcxx.Support.Fields
import Libhipcxx.Atomic.Heterogeneous
import Libhipcxx.Atomic.Small
import Libhipcxx.Atomic.Operation
import Libhipcxx.Atomic.WrapAround
import Libhipcxx.Atomic.Extremum
import Libhipcxx.Atomic.CompareExchange
import Libhipcxx.Atomic.Linearization
import Libhipcxx.Atomic.DeviceCompareExchange
import Libhipcxx.Atomic.SubWord
import Libhipcxx.Atomic.Locked
import Libhipcxx.Atomic.SubWordAtomic
import Libhipcxx.Semaphore.Units
import Libhipcxx.Semaphore.Base
import Libhipcxx.Semaphore.Atomic
import Libhipcxx.Semaphore.Native
import Libhipcxx.Semaphore.Timed
import Libhipcxx.Latch.Countdown
import Libhipcxx.Barrier.Ledger
import Libhipcxx.Barrier.Team
import Libhipcxx.Barrier.Phased
import Libhipcxx.Barrier.PackedWord
import Libhipcxx.Barrier.Packed
import Libhipcxx.Barrier.PackedPhase
import Libhipcxx.Barrier.PackedExact
import Libhipcxx.Barrier.PackedDrops
import Libhipcxx.Barrier.PackedPhased
import Libhipcxx.Barrier.PackedRegular
import Libhipcxx.Barrier.TimedWait
import Libhipcxx.Barrier.Warp
import Libhipcxx.Barrier.Generic
import Libhipcxx.Barrier.GenericPhase
import Libhipcxx.Barrier.GenericExact
import Libhipcxx.Barrier.GenericPhased
import Libhipcxx.Barrier.GenericRegular
import Libhipcxx.Barrier.Tree
import Libhipcxx.Barrier.TreeClimb
import Libhipcxx.Barrier.TreePhase
import Libhipcxx.Barrier.TreeExact
import Libhipcxx.Barrier.TreeHints
import Libhipcxx.Barrier.TreeDrops
import Libhipcxx.Barrier.TreeDropsPhase
import Libhipcxx.Barrier.TreeDropsExact
import Libhipcxx.Barrier.MemcpyAsync
import Libhipcxx.Wait.History
import Libhipcxx.Wait.Polling
import Libhipcxx.Wait.Futex
import Libhipcxx.Wait.Condvar
import Libhipcxx.Wait.NativeFutex
import Libhipcxx.Mutex.Shared
import Libhipcxx.Mutex.Recursive
import Libhipcxx.Mutex.CallOnce
import Libhipcxx.Mutex.LockAll
import Libhipcxx.Bit.Fallback
import Libhipcxx.Bit.Word
import Libhipcxx.Bit.Operations
import Libhipcxx.Rational.Arithmetic
import Libhipcxx.Rational.Exact
import Libhipcxx.Rational.CommonPeriod
import Libhipcxx.Rational.Compare
import Libhipcxx.Chrono.Calendar
import Libhipcxx.Chrono.Civil
import Libhipcxx.Chrono.DayCount
import Libhipcxx.Chrono.Weekday
import Libhipcxx.Chrono.DayField
import Libhipcxx.Chrono.Duration
import Libhipcxx.Chrono.DurationTime
import Libhipcxx.Chrono.DurationCast
import Libhipcxx.Chrono.Implicit
import Libhipcxx.Chrono.Rounding
import Libhipcxx.Chrono.Remainder
import Libhipcxx.Chrono.HhMmSs
import Libhipcxx.Chrono.MonthArithmetic
import Libhipcxx.Chrono.WeekdayArithmetic
import Libhipcxx.Wait.Sleep
import Libhipcxx.Mdspan.Mapping
import Libhipcxx.Mdspan.Bijection
import Libhipcxx.Mdspan.StaticArray
import Libhipcxx.Mdspan.Extents
import Libhipcxx.Mdspan.Submdspan
import Libhipcxx.Mdspan.Slices
import Libhipcxx.Mdspan.Meaning
import Libhipcxx.Mdspan.Strided
import Libhipcxx.Mdspan.Conversion
import Libhipcxx.Mdspan.SliceSpan
import Libhipcxx.Mdspan.SliceChain
import Libhipcxx.MemoryResource.Reference
import Libhipcxx.MemoryResource.Chain
