import Llte.SequencerBalance
import Llte.SequencerDrain
import Llte.SequencerRecovery
import Llte.RequestChunks
import Llte.Lossless
import Llte.HistoryFetch
import Llte.HandlerProcess
import Llte.IdleRecovery
import Llte.RecoveryPairing
import Llte.Shutdown
import Llte.SharedMemoryQueue
import Llte.QueueBenchmark
import Llte.OrderIndexRuns
import Llte.OrderBookRuns
import Llte.ClearedBook
import Llte.Uncrossed
import Llte.BookBenchmark
import Llte.BookWorkload
import Llte.FeedWriter
import Llte.Pipeline
import Llte.SpreadReport
import Llte.LatencyStats
import Llte.Args
import Llte.WeakOrders
import Llte.FanInVerdict
import Llte.SharedRing
import Llte.MutexQueue
import Llte.BookFollows
import Llte.Unrecovered
import Llte.EndToEndReturns
import Llte.EngineReport
import Llte.RecoveryServerStop
import Llte.HandlerMain
