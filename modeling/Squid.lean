import Squid.Ipc.QueueWakeup
import Squid.Ipc.QueueFifo
import Squid.Ipc.StoreMapCount
import Squid.Http.HttpHdrRangePack
import Squid.Http.HttpHdrContRange
import Squid.Http.HttpHdrCcPack
import Squid.Http.HttpParserFields
import Squid.Http.ChunkedRoundTrip
import Squid.Base.SplayPointers
import Squid.Store.MemStorePages
import Squid.Acl.IpOverlap
import Squid.Http.HttpHeaderLen
import Squid.Http.HttpHeaderFraming
import Squid.Store.StoreSearch
import Squid.DiskIO.IpcIoFileExact
import Squid.DiskIO.IpcIoFilePages
import Squid.Store.UFSStoreStateErrors
import Squid.Store.SwapOutRuns
import Squid.Store.UFSSwapDirExact
import Squid.Store.UFSSwapDirReplay
import Squid.Base.BodyPipeContent
import Squid.Base.BodyPipeEnds
import Squid.Auth.DigestDecodeBounds
import Squid.Auth.DigestReplay
import Squid.Auth.DigestNonces
import Squid.Peer.PeerDigestIntact
import Squid.Peer.PeerDigestSafety
import Squid.Http.Refresh
import Squid.Fs.RockSwapOut
import Squid.Acl.ChecklistAnswers
import Squid.Peer.HtcpRoundTrip
import Squid.Peer.HtcpDatagrams
import Squid.Dns.Rfc1035Pack
import Squid.Store.StoreMetaPack
import Squid.Base.EventScheduler
import Squid.Delay.DelayPools
import Squid.Fs.RockIndex
import Squid.DiskIO.IpcIoFileReads
import Squid.Store.RebuildState
import Squid.Ssl.CrtdBody
import Squid.Http.HttpStateReplies
import Squid.Http.UrlCanonicalExact
import Squid.Fs.FileMap
import Squid.Repl.HeapQueue
import Squid.Base.HashLookup
import Squid.Base.Base64
import Squid.Http.Rfc1738
import Squid.Repl.LruPurge
import Squid.Repl.HeapPurge
import Squid.Base.MemPoolRuns
import Squid.Ipc.FewToFewBiQueue
import Squid.Peer.Carp
import Squid.Peer.CacheDigest
import Squid.Dns.IpcacheParse
import Squid.Ssl.GlobalContextStorage
import Squid.Ftp.ParseListing
