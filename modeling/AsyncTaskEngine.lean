import AsyncTaskEngine.Machine
import AsyncTaskEngine.TicketRing
import AsyncTaskEngine.BitSmear
import AsyncTaskEngine.LockFreeQueue
import AsyncTaskEngine.LockFreeCapacity
import AsyncTaskEngine.LockFreeSimulation
import AsyncTaskEngine.LockFreeFifo
import AsyncTaskEngine.FifoObject
import AsyncTaskEngine.ThreadTotal
import AsyncTaskEngine.BlockingMonitor
import AsyncTaskEngine.MaxHeap
import AsyncTaskEngine.TaskQueue
import AsyncTaskEngine.Scheduler
import AsyncTaskEngine.BlockingContainers
import AsyncTaskEngine.TaskQueueFifo
import AsyncTaskEngine.SchedulerOvertaking
import AsyncTaskEngine.BlockingShutdown
import AsyncTaskEngine.LockFreeVerdicts
import AsyncTaskEngine.LockFreeOwnership
import AsyncTaskEngine.LockFreeExceptions
import AsyncTaskEngine.LockFreeLinearization
import AsyncTaskEngine.LockFreeSize
import AsyncTaskEngine.LockFreeSequential
import AsyncTaskEngine.LockFreeRefusals
import AsyncTaskEngine.LockFreeTickets
import AsyncTaskEngine.LockFreeRetries
import AsyncTaskEngine.LockFreeProgress
import AsyncTaskEngine.LockFreeSerial
import AsyncTaskEngine.LockFreeSerialHistory
import AsyncTaskEngine.ReleaseAcquire
import AsyncTaskEngine.LockFreeWeakMemory
import AsyncTaskEngine.LockFreeWeakSequential
import AsyncTaskEngine.ThreadPool
import AsyncTaskEngine.ThreadPoolAccounting
import AsyncTaskEngine.ThreadPoolProgress
import AsyncTaskEngine.ThreadPoolWork
import AsyncTaskEngine.ThreadPoolShutdown
import AsyncTaskEngine.ThreadPoolConstruction
import AsyncTaskEngine.ThreadPoolOrder
import AsyncTaskEngine.ThreadPoolClients
import AsyncTaskEngine.AsyncResult
import AsyncTaskEngine.AsyncResultProgress
import AsyncTaskEngine.AsyncResultTermination
import AsyncTaskEngine.StageLog
import AsyncTaskEngine.AsyncResultComposition
import AsyncTaskEngine.Logger
import AsyncTaskEngine.LoggerDelivery
import AsyncTaskEngine.LoggerFlush
import AsyncTaskEngine.LoggerIterations
import AsyncTaskEngine.LineFormat
import AsyncTaskEngine.LoggerFormat
import AsyncTaskEngine.LoggerDestruction
import AsyncTaskEngine.Pipeline
import AsyncTaskEngine.PipelineAgreement
import AsyncTaskEngine.CoroTask
import AsyncTaskEngine.CoroTaskOwnership
import AsyncTaskEngine.CoroTaskCompletion
import AsyncTaskEngine.CoroTaskResult
import AsyncTaskEngine.CoroTaskGet
import AsyncTaskEngine.CoroTaskProgress
import AsyncTaskEngine.AsioContext
import AsyncTaskEngine.AsioConstruction
import AsyncTaskEngine.AsioDestruction
import AsyncTaskEngine.AsioQuiescence
import AsyncTaskEngine.AsioFutures
import AsyncTaskEngine.AsioPosts
import AsyncTaskEngine.RejectedCalls
import AsyncTaskEngine.CoroDelay
import AsyncTaskEngine.CoroDelayShutdown
import AsyncTaskEngine.CoroDelayResumptions
