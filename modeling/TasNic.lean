import TasNic.Rdma.Unpaired
import TasNic.Rdma.Accounting
import TasNic.Rdma.Paired
import TasNic.Fast.Receive
import TasNic.Fast.Transmit
import TasNic.Fast.Acks
import TasNic.Fast.RxFin
import TasNic.Packet.Bytes
import TasNic.Packet.Parse
import TasNic.Packet.Bounds
import TasNic.Packet.Wire
import TasNic.Slow.FlowTable
import TasNic.Slow.Packetmem
import TasNic.Fast.QmanRate
import TasNic.Lib.Serial
import TasNic.Utils.TimeoutOrder
import TasNic.Fast.Stall
import TasNic.Fast.Window
import TasNic.Fast.Fin
import TasNic.Fast.RssSteering
import TasNic.Sockets.Recv
import TasNic.Slow.CcConns
import TasNic.Slow.AppConns
import TasNic.Slow.TcpLookup
import TasNic.Slow.TcpTimers
import TasNic.Slow.TcpPorts
import TasNic.Wakeup.Core
import TasNic.Libtas.Bump
import TasNic.Libtas.BumpSeq
import TasNic.Libtas.TxClose
import TasNic.Sockets.EpollCount
import TasNic.Rdma.Transmitter
import TasNic.Rdma.Flush
import TasNic.Rdma.Reserve
import TasNic.Slow.ArpCompletions
import TasNic.Slow.Ports
import TasNic.Slow.Waiting
import TasNic.Slow.BacklogFifo
import TasNic.Slow.Synack
import TasNic.Slow.KernelQueues
import TasNic.Fast.FlowQueues
import TasNic.Fast.ArxCache
import TasNic.Fast.Reuse
import TasNic.Fast.Buffers
import TasNic.Slow.Routing
import TasNic.Slow.RxPairing
import TasNic.Slow.DctcpWin
import TasNic.Slow.RateLimit
import TasNic.Fast.Clock
import TasNic.Fast.QmanOrder
import TasNic.Fast.QmanTurns
import TasNic.Slow.Block
import TasNic.Fast.Loadmon
import TasNic.Packet.Checksum
