import MiddleboxSession.Runs
import MiddleboxSession.CBuffer
import MiddleboxSession.UTHash
import MiddleboxSession.Joins
import MiddleboxSession.Wire
import MiddleboxSession.FlowTable
import MiddleboxSession.MainLoop
import MiddleboxSession.OrderIndependence
import MiddleboxSession.Threads
import MiddleboxSession.AckFlag
import MiddleboxSession.Handshake
import MiddleboxSession.AckDelivery
import MiddleboxSession.Routing
import MiddleboxSession.RoundTrip
import MiddleboxSession.Buffers
import MiddleboxSession.KernelPacket
import MiddleboxSession.Endpoint
import MiddleboxSession.ClientKernel
import MiddleboxSession.MiddleboxKernel
import MiddleboxSession.ServerKernel
import MiddleboxSession.Checksums
import MiddleboxSession.Transparency
import MiddleboxSession.Migration
import MiddleboxSession.SessionTables
import MiddleboxSession.OutOfMemory
import MiddleboxSession.Linearize
import MiddleboxSession.Mutex
import MiddleboxSession.MutexDiscipline
import MiddleboxSession.ClientThreads
import MiddleboxSession.ClientRaces
import MiddleboxSession.Acted
import MiddleboxSession.Emulator.Wire
import MiddleboxSession.Emulator.Server
import MiddleboxSession.Emulator.Network
import MiddleboxSession.Emulator.Acks
import MiddleboxSession.Emulator.Chain
import MiddleboxSession.Emulator.Stale
import MiddleboxSession.Emulator.Records
import MiddleboxSession.Emulator.Release
import MiddleboxSession.Survival
import MiddleboxSession.Bounds
import MiddleboxSession.Socket.Checksum
import MiddleboxSession.Socket.RawSocket
import MiddleboxSession.Socket.UdpSum
import MiddleboxSession.Deployment
import MiddleboxSession.Transit
import MiddleboxSession.Links
import MiddleboxSession.UTMemory
import MiddleboxSession.UTRefine
import MiddleboxSession.UTInsert
import MiddleboxSession.UTRemove
import MiddleboxSession.UTHeap
import MiddleboxSession.UTCounters
import MiddleboxSession.KernelMemory
import MiddleboxSession.FlowMemory
import MiddleboxSession.ServerThreads
import MiddleboxSession.Traffic
import MiddleboxSession.Completion
import MiddleboxSession.AgentMemory
import MiddleboxSession.DeploymentMemory
