import Uzmq.DataOutStream
import Uzmq.DataOutTarget
import Uzmq.NetmlAck
import Uzmq.PipeCompletion
import Uzmq.PipeBound
import Uzmq.MailboxDelivery
import Uzmq.XpubNotices
import Uzmq.XpubDelivery
import Uzmq.LoadBalancerAtomicity
import Uzmq.XsubReplication
import Uzmq.SubscriberWritability
import Uzmq.RepAddressing
import Uzmq.OwnShutdown
import Uzmq.ContextTermination
import Uzmq.DecoderChunks
import Uzmq.ReceivePath
import Uzmq.DpdkTimer
import Uzmq.NetconnWrite
import Uzmq.NetmlHeaders
import Uzmq.NetmlMarking
import Uzmq.NetmlOutput
import Uzmq.TwoFrameSends
import Uzmq.CtlOutEvent
import Uzmq.GroupCommands
import Uzmq.ConflatePipe
import Uzmq.Proxies
import Uzmq.FairQueueTurns
import Uzmq.SocksResponses
import Uzmq.TcpAddresses
import Uzmq.Z85
import Uzmq.NetmlSendQueues
