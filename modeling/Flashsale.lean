import Flashsale.IntentVerdicts
import Flashsale.OrderWorkerIds
import Flashsale.MpmcProgress
import Flashsale.CoreConsumer
import Flashsale.QueueCounters
import Flashsale.CorrectnessChecker
import Flashsale.PendingMember
import Flashsale.CircuitBreaker
import Flashsale.Batches
import Flashsale.CleanupFlush
import Flashsale.SpscBatch
import Flashsale.MpmcReports
import Flashsale.DbWorker
import Flashsale.Lifecycle
import Flashsale.WorkerExit
import Flashsale.Acknowledge
import Flashsale.GracefulStop
import Flashsale.Pipeline
import Flashsale.StockRange
import Flashsale.ClosedLoop
import Flashsale.ServerCalls
import Flashsale.ServerSteps
import Flashsale.Balance
import Flashsale.Polls
import Flashsale.Tally
import Flashsale.ControlIds
import Flashsale.Server
import Flashsale.Quantity
import Flashsale.EngineIdle
import Flashsale.FastPath
import Flashsale.Restart
import Flashsale.Wal
import Flashsale.Idempotency
import Flashsale.Journal
import Flashsale.Reported
import Flashsale.Drain
import Flashsale.Oversell
import Flashsale.Shutdown
import Flashsale.GateRollback
import Flashsale.Sweeping
import Flashsale.Conservation
import Flashsale.Holdings
import Flashsale.Ledger
import Flashsale.MpmcRecords
import Flashsale.ResultQueue
import Flashsale.ClientSteps
import Flashsale.Flow
import Flashsale.Barrier
import Flashsale.Bytes
import Flashsale.SoldOut
import Flashsale.Sources
import Flashsale.CoreEngineChecker
import Flashsale.CoreEngineStock
import Flashsale.BackendEngine
import Flashsale.QueuesInWords
