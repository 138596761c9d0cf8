import Fib.Arpc.Ordered
import Fib.Bencode.Stream
import Fib.Bittorrent.Bans
import Fib.Core.Owed
import Fib.Hpack.AppendField
import Fib.Hpack.Caches
import Fib.Http.BodyDelivery
import Fib.Http.Cuts
import Fib.Http2.Answers
import Fib.Http2.HeaderBlocks
import Fib.Kcp.Reliable
import Fib.Qpack.Acknowledge
import Fib.Qpack.Feed
import Fib.Quic.AckRanges
import Fib.Quic.Amplification
import Fib.Quic.InFlight
import Fib.Quic.PacketNumbers
import Fib.Quic.PathMtu
import Fib.Quic.PeerCIDs
import Fib.Quic.Reassembly
import Fib.Quic.ReceiveCredit
import Fib.Quic.StreamTable
import Fib.Quic.Truncation
import Fib.Rtmp.Lossless
import Fib.Rtpcodec.DecodeTimes
import Fib.Srt.Encryption
import Fib.Srtp.Session
import Fib.Utp.FinAcked
import Fib.Utp.Stream
import Fib.Websocket.Cuts
import Fib.Http.Router.Dispatch
import Fib.Http.Router.Serve
