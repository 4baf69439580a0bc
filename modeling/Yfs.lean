import Yfs.RpcSession
import Yfs.ExtentCoherence
import Yfs.ExtentCached
import Yfs.ExtentFlush
import Yfs.DirRun
import Yfs.DirNames
import Yfs.LockDiscipline
import Yfs.FuseOffsets
import Yfs.FreshInum
import Yfs.PaxosRestore
import Yfs.PaxosAgreement
import Yfs.PaxosDecide
import Yfs.LockWaiters
import Yfs.LockFaults
import Yfs.LayerMutexes
import Yfs.WireDecode
import Yfs.ReadRequests
import Yfs.ConnRefs
import Yfs.HandleCache
import Yfs.Deadlines
import Yfs.PaxosPrepare
import Yfs.ElectionRead
import Yfs.ElectionRefresh
import Yfs.ClientSessions
import Yfs.PoolShutdown
import Yfs.RpcNetwork
import Yfs.PollRounds
import Yfs.SenderWakes
import Yfs.PaxosProgress
import Yfs.RemoteObject
import Yfs.ElectionLeader
