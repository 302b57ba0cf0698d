import NanoProxy.JitFraming
import NanoProxy.PersistentConnection
import NanoProxy.UpstreamFifo
import NanoProxy.KeepaliveRelay
import NanoProxy.ResponseIsolation
import NanoProxy.DispatchOnce
import NanoProxy.DownstreamFifo
import NanoProxy.ForwardFifo
import NanoProxy.StaticBody
import NanoProxy.IpLimit
import NanoProxy.TableConsistency
import NanoProxy.HeaderTimeout
import NanoProxy.AdvertisedPersistence
import NanoProxy.ListenerRouting
import NanoProxy.CleanPool
import NanoProxy.CallTrace
import NanoProxy.SlotReuse
import NanoProxy.ParserStorage
import NanoProxy.LoadBalancer
import NanoProxy.PoolCounters
import NanoProxy.DnsResponder
import NanoProxy.DnsEncoding
import NanoProxy.DnsQuestion
import NanoProxy.DnsBounds
import NanoProxy.DnsAnswers
import NanoProxy.Lib.JsonGrammar
import NanoProxy.DictValue
import NanoProxy.JsonWriter
import NanoProxy.JsonParser
import NanoProxy.JsonReading
import NanoProxy.JsonAcceptance
import NanoProxy.JsonSoundness
import NanoProxy.JsonRoundTrip
import NanoProxy.Lib.LittleEndian
import NanoProxy.Bson
import NanoProxy.BsonRoundTrip
import NanoProxy.Lib.FileTree
import NanoProxy.StaticRoot
import NanoProxy.StaticDescriptors
import NanoProxy.StbDsRuns
import NanoProxy.Wakeups
import NanoProxy.DnsLoader
import NanoProxy.SrvRecords
import NanoProxy.HeadFields
import NanoProxy.MessageLength
import NanoProxy.ResponseEnd
import NanoProxy.HeadRewriting
import NanoProxy.RouteSelection
import NanoProxy.Lib.CyclicProbe
import NanoProxy.TargetSelection
import NanoProxy.TargetPenalty
import NanoProxy.UpstreamUrl
import NanoProxy.RangeRequests
import NanoProxy.AnyReads
import NanoProxy.RequestWire
import NanoProxy.MessageEnd
import NanoProxy.BodyLimit
import NanoProxy.ContentLength
import NanoProxy.ChunkSizeLines
import NanoProxy.HeaderTable
import NanoProxy.RequestLines
import NanoProxy.KeptHeaders
import NanoProxy.ResponseBuilder
import NanoProxy.DnsNames
import NanoProxy.DnsLookup
import NanoProxy.DnsReachable
import NanoProxy.JsonBuffer
import NanoProxy.Lib.Traced
import NanoProxy.Lib.Ledger
import NanoProxy.Lib.SeekFile
import NanoProxy.DnsDecoding
import NanoProxy.BsonReads
import NanoProxy.JsonReads
import NanoProxy.JsonBounds
import NanoProxy.ParserTrace
import NanoProxy.ParserInvariant
import NanoProxy.HeaderNames
import NanoProxy.StringBufMemory
import NanoProxy.StringBufGrowth
import NanoProxy.ObjectTable
import NanoProxy.PoolOwnership
import NanoProxy.MockHeader
import NanoProxy.MockRecording
import NanoProxy.JitPosts
import NanoProxy.BufferedBodies
import NanoProxy.JitServer
import NanoProxy.JitRelay
import NanoProxy.RoundRobin
import NanoProxy.LogLines
import NanoProxy.JitForms
import NanoProxy.JitAuth
import NanoProxy.JitUpload
