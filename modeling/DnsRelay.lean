import DnsRelay.LazyHeap
import DnsRelay.IdPool
import DnsRelay.IpTableRuns
import DnsRelay.Codec
import DnsRelay.NameWalk
import DnsRelay.Parsing
import DnsRelay.PacketLayout
import DnsRelay.DnsCache
import DnsRelay.Lib.Chain
import DnsRelay.Lib.Lru
import DnsRelay.CacheChain
import DnsRelay.CacheRefinement
import DnsRelay.IpTable
import DnsRelay.Lib.Runs
import DnsRelay.CacheReplay
import DnsRelay.Server
import DnsRelay.Ledger
import DnsRelay.ServerRuns
import DnsRelay.ServerSafety
import DnsRelay.Lib.Rfc1035
import DnsRelay.WireNames
import DnsRelay.WireEncoding
import DnsRelay.RoundTrip
import DnsRelay.WireWriting
import DnsRelay.MessageReading
import DnsRelay.RelayMeaning
import DnsRelay.HeapOrder
import DnsRelay.LazyQueue
import DnsRelay.SessionQueue
import DnsRelay.ServerLoop
import DnsRelay.BufferBounds
import DnsRelay.CacheCounts
import DnsRelay.ThreeLevel
import DnsRelay.Outgoing
import DnsRelay.SectionCounts
import DnsRelay.CoveredRuns
import DnsRelay.NullSafety
import DnsRelay.SpelledNames
import DnsRelay.TableEntries
import DnsRelay.TableBlocking
import DnsRelay.EntryRuns
import DnsRelay.ReplySizes
import DnsRelay.ReplyRuns
import DnsRelay.LinkedList
import DnsRelay.LinkedMap
import DnsRelay.Lib.FiniteMap
import DnsRelay.MapRuns
import DnsRelay.PoolRuns
import DnsRelay.ConfigCenter
import DnsRelay.ConfigRuns
import DnsRelay.ConfigRegistry
import DnsRelay.RegistryRuns
import DnsRelay.ConfigFile
import DnsRelay.ConfigLines
import DnsRelay.ConfigParsers
import DnsRelay.RetryRuns
import DnsRelay.BatchTimeouts
import DnsRelay.NameCompression
import DnsRelay.SuffixCompression
import DnsRelay.NameExpansion
import DnsRelay.Opcodes
import DnsRelay.AddressBlocking
import DnsRelay.AncestorWalk
import DnsRelay.NameEncoding
import DnsRelay.TableContents
import DnsRelay.CacheEviction
import DnsRelay.CacheExpiry
import DnsRelay.PruneTiming
import DnsRelay.UpstreamList
import DnsRelay.ForwardFailure
import DnsRelay.ErrorStack
import DnsRelay.PacketLog
import DnsRelay.ListRuns
import DnsRelay.SurvivorTable
import DnsRelay.CacheKeys
import DnsRelay.Sockets
import DnsRelay.EventLoop
import DnsRelay.LoopProgress
import DnsRelay.LoopSafety
import DnsRelay.Lib.RoundRobin
import DnsRelay.UpstreamChoice
import DnsRelay.LatestAnswers
import DnsRelay.Lib.Cells
import DnsRelay.CacheLifecycle
import DnsRelay.LoopReturns
import DnsRelay.Transparency
import DnsRelay.Lib.Doubling
import DnsRelay.Vector
import DnsRelay.VectorRuns
import DnsRelay.Startup
