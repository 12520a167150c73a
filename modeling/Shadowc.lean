import Shadowc.Lib.Walk
import Shadowc.Lib.Reading
import Shadowc.Lib.Memory
import Shadowc.Lib.Transition
import Shadowc.Lib.Transducer
import Shadowc.Lib.Cfb
import Shadowc.Lib.Interference
import Shadowc.Lib.Trace
import Shadowc.Lib.Growable
import Shadowc.Lib.Blocks
import Shadowc.Lib.Throwing
import Shadowc.Lib.Overwrite
import Shadowc.Lib.Cells
import Shadowc.Dns.Accounting
import Shadowc.Dns.QueryBounds
import Shadowc.Dns.NameBounds
import Shadowc.Dns.RdataBounds
import Shadowc.Dns.Alignment
import Shadowc.Dns.Reentrant
import Shadowc.Dns.Status
import Shadowc.Dns.SocketOwnership
import Shadowc.Dns.Unsolicited
import Shadowc.Dns.Resolution
import Shadowc.Dns.Received
import Shadowc.Dns.Termination
import Shadowc.Dns.EdgeTrigger
import Shadowc.EventLoop.Dispatch
import Shadowc.EventLoop.Ownership
import Shadowc.Dns.Program
import Shadowc.Dns.Network
import Shadowc.Dns.Lookup
import Shadowc.Dns.Blocks
import Shadowc.Cryptor.CfbMode
import Shadowc.Cryptor.InputBounds
import Shadowc.Cryptor.LifeCycle
import Shadowc.Cryptor.Duplex
import Shadowc.Cryptor.SelfTest
import Shadowc.TcpRelay.Accepting
import Shadowc.Cxxopts.Accepted
import Shadowc.Server
