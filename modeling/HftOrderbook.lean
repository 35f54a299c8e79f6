import HftOrderbook.Proof.LatencyHist
import HftOrderbook.Proof.DecoderTable
import HftOrderbook.Proof.SyntheticBook
import HftOrderbook.Proof.MoldEnd
import HftOrderbook.Proof.FeedSides
import HftOrderbook.Proof.ReplayParity
import HftOrderbook.Proof.WindowedSafety
import HftOrderbook.Proof.BookRefinement
import HftOrderbook.Proof.BookSlots
import HftOrderbook.Proof.RingObservers
import HftOrderbook.Proof.TapeVolume
import HftOrderbook.Proof.Metrics
import HftOrderbook.Proof.FixChecksum
import HftOrderbook.Proof.FixOrders
import HftOrderbook.Proof.FixReports
import HftOrderbook.Proof.BridgeSession
import HftOrderbook.Proof.BridgeReplies
import HftOrderbook.Proof.Mt5Depth
import HftOrderbook.Proof.ExpertAdvisor
import HftOrderbook.Proof.LineSocket
import HftOrderbook.Proof.WebSocket
import HftOrderbook.Proof.AcceptKey
import HftOrderbook.Proof.FairReplay
import HftOrderbook.Proof.WeakReplay
import HftOrderbook.Proof.LiveBridge
import HftOrderbook.Proof.MdrecvDelivery
import HftOrderbook.Proof.BridgeSocket
import HftOrderbook.Proof.Handshake
import HftOrderbook.Proof.WsbookStream
import HftOrderbook.Proof.StrandedOrders
import HftOrderbook.Proof.Publish
import HftOrderbook.Proof.ObreplayReport
import HftOrderbook.Proof.Strategy
import HftOrderbook.Proof.LatencySummary
