import Sundries.Machine
import Sundries.HierarchicalMutex
import Sundries.AtomicObject
import Sundries.Segment
import Sundries.ThreadsafeQueue
import Sundries.ThreadsafeQueueFifo
import Sundries.ThreadsafeQueueWakeup
import Sundries.LockFreeStackWithRc
import Sundries.LockFreeStackWithRcCounts
import Sundries.LockFreeStack
import Sundries.LockFreeStackHistory
import Sundries.LockFreeStackPending
import Sundries.LockFreeStackReclaim
import Sundries.LockFreeStackEmptyPop
import Sundries.LockFreeStackWithHp
import Sundries.LockFreeStackWithHpNodes
import Sundries.LockFreeStackWithHpHazards
import Sundries.LockFreeStackWithHpReclaim
import Sundries.Dispatch
import Sundries.ThreadPool
import Sundries.ThreadPoolTasks
import Sundries.ThreadPoolOwners
import Sundries.GumballMachine
import Sundries.SimpleQueues
import Sundries.AssocList
import Sundries.ThreadsafeLookupTable
import Sundries.ThreadsafeLookupTableSnapshot
import Sundries.Messaging
import Sundries.Fairness
import Sundries.QuickSort
import Sundries.QuickSortProgress
import Sundries.QuickSortTermination
import Sundries.ThreadsafeList
import Sundries.ThreadsafeListRemoveIf
import Sundries.Tiling
import Sundries.BlockPartition
import Sundries.ForkJoin
import Sundries.ParallelAccumulate
import Sundries.ParallelAccumulateAsync
import Sundries.ParallelAccumulateUsingTp
import Sundries.ParallelForEach
import Sundries.ThreadsafeQueueCalls
import Sundries.ThreadsafeQueueOld
import Sundries.ThreadsafeQueueAgreement
import Sundries.LockFreeStackWithRcOverflow
import Sundries.LockFreeQueueNode
import Sundries.NotAbove
import Sundries.Point3d
import Sundries.Atm
import Sundries.AtmKeyboard
import Sundries.AtmShutdown
import Sundries.Scanner
import Sundries.HttpRequest
import Sundries.RequestParser
import Sundries.CoroutineRequestParser
import Sundries.Istream
import Sundries.Path
import Sundries.HttpReply
import Sundries.RequestHandler
import Sundries.HttpServer
import Sundries.CoroutineServer
import Sundries.HttpClient
import Sundries.Framing
import Sundries.Chat
import Sundries.ChatServer
import Sundries.ChatClient
import Sundries.IcmpHeader
import Sundries.PingReply
import Sundries.Ping
import Sundries.HandlerPriorityQueue
import Sundries.EchoServer
import Sundries.AsyncQuickSort
