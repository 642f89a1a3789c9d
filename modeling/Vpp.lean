import Vpp.Bfd.KeyUse
import Vpp.Bfd.Poll
import Vpp.Classify.Accounting
import Vpp.Det44.Mapping
import Vpp.Dns.Names
import Vpp.Dpo.LoadBalance
import Vpp.Feature.Registration
import Vpp.Fib.Ip6Fib
import Vpp.Http.Request
import Vpp.Ikev2.MessageId
import Vpp.Ikev2.Select
import Vpp.Ikev2.TsRoundTrip
import Vpp.Ip.FragTiling
import Vpp.Ip.Mtrie.LongestMatch
import Vpp.Ip.Reass.Coverage
import Vpp.Ip.Ttl
import Vpp.Ipsec.AntiReplay
import Vpp.Ipsec.NonEsn
import Vpp.Lb.Sticky
import Vpp.Map.Lpm
import Vpp.Nat44.PortAlloc
import Vpp.Qos.Xlate
import Vpp.Session.RulesTable
import Vpp.Svm.ChunkConservation
import Vpp.Svm.MessageQueueMemory
import Vpp.SvmFifo.Sane
import Vpp.Tcp.Options
import Vpp.Tcp.SendWindow
import Vpp.Tcp.Trim
import Vpp.Tw.Drift
import Vpp.Tw.Exact
import Vpp.Vlib.CloneReturn
import Vpp.Vnet.ConfigRun
import Vpp.Vppinfra.Serialize
import Vpp.Wireguard.Counter
