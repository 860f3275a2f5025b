import Kbms.Foundation.Machine
import Kbms.Foundation.Roster
import Kbms.Foundation.Fifo
import Kbms.Concurrency.Task
import Kbms.Concurrency.ThreadPool
import Kbms.Concurrency.PoolWakeup
import Kbms.Concurrency.PoolHistory
import Kbms.Network.IoThread
import Kbms.Service.Handlers
import Kbms.Service.Service
import Kbms.Service.Replies
import Kbms.Service.Unanswered
import Kbms.Ams.Args
import Kbms.Ams.Interact
import Kbms.Ams.Refresh
import Kbms.Ams.Discovery
import Kbms.Ams.Urls
import Kbms.Ams.Sharing
import Kbms.Service.HttpServer
import Kbms.Ams.Addresses
import Kbms.Ams.Listing
import Kbms.Ams.Heartbeat
import Kbms.Config.ConfigLoader
import Kbms.Ams.Requests
import Kbms.Service.Impl
import Kbms.Ams.Client
import Kbms.Service.Settings
import Kbms.Foundation.LoopThread
import Kbms.Service.Lifecycle
import Kbms.Service.Shutdown
import Kbms.Foundation.Owned
import Kbms.Service.Teardown
import Kbms.Concurrency.WorkerLoop
import Kbms.Concurrency.LockDiscipline
import Kbms.Concurrency.PoolStop
import Kbms.Concurrency.StopEffects
import Kbms.Service.Expiry
import Kbms.Service.StopRequest
import Kbms.Foundation.History
import Kbms.Config.Readers
import Kbms.Config.HandsOn
import Kbms.Foundation.Trim
import Kbms.Utils.Callbacks
import Kbms.Utils.Headers
import Kbms.Ams.Payload
import Kbms.Ams.Indices
import Kbms.Service.Responses
import Kbms.Concurrency.LifeCycle
import Kbms.Service.LocalHost
import Kbms.Network.LockedIoThread
import Kbms.Foundation.Simulation
import Kbms.Concurrency.Sections
import Kbms.Concurrency.Refinement
import Kbms.Foundation.Overtaking
import Kbms.Concurrency.PoolHands
import Kbms.Service.Ordering
import Kbms.Foundation.Termination
import Kbms.Service.Draining
import Kbms.Concurrency.PoolProgress
import Kbms.Network.IoProgress
import Kbms.Network.LockedProgress
import Kbms.Concurrency.LockedProgress
import Kbms.Ams.Endpoints
import Kbms.Service.Traffic
import Kbms.Foundation.Exchange
import Kbms.Config.Objects
import Kbms.Service.Contexts
import Kbms.Service.LockedService
import Kbms.Service.LockedRefinement
import Kbms.Service.LockedDraining
