import GpuScheduler.Accounting.Oversubscription
import GpuScheduler.Accounting.Conservation
import GpuScheduler.Accounting.ReleaseOnce
import GpuScheduler.Accounting.LostNodes
import GpuScheduler.Accounting.Reregistration
import GpuScheduler.Accounting.FinishFailures
import GpuScheduler.Accounting.Utilization
import GpuScheduler.Accounting.Allocator
import GpuScheduler.Concurrent.LostUpdate
import GpuScheduler.Concurrent.Bounds
import GpuScheduler.Concurrent.Finality
import GpuScheduler.Concurrent.Cordon
import GpuScheduler.Concurrent.Lifecycle
import GpuScheduler.Concurrent.Heartbeats
import GpuScheduler.Agent.StaleReport
import GpuScheduler.Agent.Assignment
import GpuScheduler.Agent.DoubleStart
import GpuScheduler.Scheduler.Recovery
import GpuScheduler.Scheduler.Frame
import GpuScheduler.Scheduler.WorkConserving
import GpuScheduler.Scheduler.Aging
import GpuScheduler.Scheduler.Retries
import GpuScheduler.Scheduler.Ordering
import GpuScheduler.Scheduler.Audit
import GpuScheduler.Scheduler.FairShare
import GpuScheduler.Scheduler.Overtaking
import GpuScheduler.Scheduler.Fragmentation
import GpuScheduler.Scheduler.Planning
import GpuScheduler.Scheduler.Preempting
import GpuScheduler.Scheduler.Precedence
import GpuScheduler.Scheduler.Replicas
import GpuScheduler.Scheduler.StoreFailures
import GpuScheduler.Scheduler.DeadNodes
import GpuScheduler.Store.Query
import GpuScheduler.Api.RateLimit
import GpuScheduler.Grpc.Logs
import GpuScheduler.Redisx.Election
