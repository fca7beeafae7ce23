import Cube.Library.System
import Cube.Library.Token
import Cube.Library.Mutex
import Cube.Library.ProducerQueue
import Cube.Library.Fifo
import Cube.Library.Window
import Cube.Library.Bytes
import Cube.Library.Linearizable
import Cube.Library.Tally
import Cube.Library.UnorderedMap
import Cube.Protocol.Packet
import Cube.Protocol.Flatbuffers
import Cube.Protocol.FlatBufferBuilder
import Cube.Protocol.Building
import Cube.Core.Asio
import Cube.Core.Buffer.RingBuffer
import Cube.Core.Buffer.Safety
import Cube.Core.Buffer.BoundedFifo
import Cube.Core.Buffer.Transfer
import Cube.Core.Buffer.Peek
import Cube.Core.Buffer.Advance
import Cube.Core.Buffer.Pointers
import Cube.Core.Buffer.Independent
import Cube.Core.Buffer.Interface
import Cube.Core.Buffer.Recovery
import Cube.Core.Session.SessionManager
import Cube.Core.Session.Removal
import Cube.Core.Session.FuncToAll
import Cube.Core.Session.SharedManager
import Cube.Core.Session.Deadlock
import Cube.Core.Session.SessionBase
import Cube.Core.Session.WriteChain
import Cube.Core.Session.Delivery
import Cube.Core.Session.Stranding
import Cube.Core.Network.TcpAcceptor
import Cube.Core.Network.AcceptLoop
import Cube.Core.Network.Shutdown
import Cube.Core.Network.Loops
import Cube.Core.Network.Sockets
import Cube.Core.Network.Lifetime
import Cube.Core.Dispatcher.PacketExecuteQueue
import Cube.Core.Dispatcher.WorkerStep
import Cube.Core.Dispatcher.Locking
import Cube.Core.Dispatcher.Wakeup
import Cube.Core.Dispatcher.StartStop
import Cube.Core.Dispatcher.Ledger
import Cube.Core.Dispatcher.Drain
import Cube.Core.Dispatcher.Restart
import Cube.Core.Dispatcher.ExactlyOnce
import Cube.Core.Dispatcher.StopReturns
import Cube.Game.HandlerManager
import Cube.Game.Routing
import Cube.Game.Stopping
import Cube.Game.EchoHandler
import Cube.Game.EchoResponse
import Cube.Game.EchoSafety
import Cube.Game.EchoService
import Cube.Main
