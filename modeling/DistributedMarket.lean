import DistributedMarket.Lib.Runs
import DistributedMarket.Wire
import DistributedMarket.Orders
import DistributedMarket.Lifecycle
import DistributedMarket.Spending
import DistributedMarket.OrderJournal
import DistributedMarket.Events
import DistributedMarket.Lib.Flock
import DistributedMarket.SingleWriter
import DistributedMarket.SingleWriterSafety
import DistributedMarket.EngineMain
import DistributedMarket.Statuses
import DistributedMarket.Notional
import DistributedMarket.Affordable
import DistributedMarket.Fills
import DistributedMarket.Ids
import DistributedMarket.Lib.DecimalRange
import DistributedMarket.Lib.DecimalFormat
import DistributedMarket.WireFormat
import DistributedMarket.OrderLegality
import DistributedMarket.Lib.IntText
import DistributedMarket.Instruments
import DistributedMarket.InstrumentLoading
import DistributedMarket.AcquireFailures
import DistributedMarket.SmallestFill
import DistributedMarket.EngineProgress
import DistributedMarket.LockRace
import DistributedMarket.Clock
import DistributedMarket.Lib.Calendar
import DistributedMarket.Lib.ZeroPadded
import DistributedMarket.SequentialIds
import DistributedMarket.Timestamps
import DistributedMarket.OrderStates
import DistributedMarket.Lib.Comprehension
import DistributedMarket.InstrumentRegistry
import DistributedMarket.PriceBand
import DistributedMarket.Lib.DecimalDivision
import DistributedMarket.WireRounding
import DistributedMarket.UlidGenerator
import DistributedMarket.Lib.Refinement
import DistributedMarket.LockRefinement
import DistributedMarket.EngineStart
