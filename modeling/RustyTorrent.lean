import RustyTorrent.AcceptorIntact
import RustyTorrent.CreateLoads
import RustyTorrent.DaemonRestore
import RustyTorrent.Dht.KrpcRoundTrip
import RustyTorrent.Dht.PeerStore
import RustyTorrent.Dht.Token
import RustyTorrent.EngineAnnounce
import RustyTorrent.EngineSafety
import RustyTorrent.MagnetCarries
import RustyTorrent.MagnetUnknown
import RustyTorrent.Metainfo.BencodeCanonical
import RustyTorrent.Peer.Conforming
import RustyTorrent.Peer.ManagerSpec
import RustyTorrent.Peer.MetadataFetchSafety
import RustyTorrent.Peer.Mse.Stream
import RustyTorrent.Peer.Pex
import RustyTorrent.Peer.Utp.AcceptGate
import RustyTorrent.Peer.Utp.BaseDelay
import RustyTorrent.Peer.Utp.Closing
import RustyTorrent.Peer.Utp.Codec
import RustyTorrent.Peer.Utp.HardTimeout
import RustyTorrent.Peer.Utp.Isolation
import RustyTorrent.Peer.Utp.Limits
import RustyTorrent.Peer.Utp.Packetization
import RustyTorrent.Peer.Utp.ReceiveLimits
import RustyTorrent.Peer.Utp.Reliability
import RustyTorrent.Peer.Utp.SackAgreement
import RustyTorrent.Peer.Utp.SendCredit
import RustyTorrent.Peer.Utp.StreamSafety
import RustyTorrent.PersistedMagnet
import RustyTorrent.Piece.Assembly
import RustyTorrent.Scheduler.ChokeSpec
import RustyTorrent.SessionConsistency
import RustyTorrent.Socks5Auth
import RustyTorrent.Storage.DiskFaithful
import RustyTorrent.Storage.SelectionContent
import RustyTorrent.Storage.SpoolFaithful
import RustyTorrent.Tracker.Egress
import RustyTorrent.WebGuard
