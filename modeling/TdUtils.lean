import TdUtils.Lib.Bits
import TdUtils.Lib.Bytes
import TdUtils.Lib.List
import TdUtils.Lib.LittleEndian
import TdUtils.Lib.BigEndian
import TdUtils.Lib.Memory
import TdUtils.Lib.Machine
import TdUtils.Lib.LinkedList
import TdUtils.Lib.Tally
import TdUtils.Lib.SortedMap
import TdUtils.Lib.KAryHeap
import TdUtils.Lib.Utf8
import TdUtils.Lib.Word
import TdUtils.Flow.OrderedEventsProcessor
import TdUtils.Flow.FloodControlStrict
import TdUtils.Flow.ChangesProcessor
import TdUtils.Flow.TimedStat
import TdUtils.Flow.FloodControlFast
import TdUtils.Tl.TlParser
import TdUtils.Tl.TlStorers
import TdUtils.Tl.TlHelpers
import TdUtils.Text.Utf8
import TdUtils.Text.Truncate
import TdUtils.Text.ZeroEncode
import TdUtils.Text.Unicode
import TdUtils.Text.Translit
import TdUtils.Text.Misc
import TdUtils.Text.HttpUrl
import TdUtils.Text.HttpUrlParts
import TdUtils.Json.Parser
import TdUtils.Json.JsonValue
import TdUtils.Json.JsonDecode
import TdUtils.Json.Grammar
import TdUtils.Json.DecodeString
import TdUtils.Json.DecodeFollows
import TdUtils.Json.JsonEncode
import TdUtils.Json.EscapeString
import TdUtils.Json.JsonRender
import TdUtils.Json.RoundTrip
import TdUtils.Json.Reencode
import TdUtils.Hints.Hints
import TdUtils.Hints.FixWords
import TdUtils.Container.Container
import TdUtils.Container.Ids
import TdUtils.Container.Runs
import TdUtils.Container.Enumeration
import TdUtils.Container.Variant
import TdUtils.Container.VariantFill
import TdUtils.Container.VariantRuns
import TdUtils.Heap.KHeap
import TdUtils.Heap.Sift
import TdUtils.Heap.Operations
import TdUtils.Heap.HeapRuns
import TdUtils.DecTree.DecTree
import TdUtils.DecTree.Treap
import TdUtils.DecTree.TreeMap
import TdUtils.Num.Uint128
import TdUtils.Num.Uint128Exact
import TdUtils.Num.Uint128Divide
import TdUtils.Num.Uint128Agree
import TdUtils.Num.RandomRange
import TdUtils.Buffer.ChainBuffer
import TdUtils.Buffer.Stream
import TdUtils.Buffer.Iterators
import TdUtils.Buffer.Readers
import TdUtils.Buffer.Writer
import TdUtils.Buffer.Chain
import TdUtils.Buffer.Overwrite
import TdUtils.Buffer.FindBoundary
import TdUtils.Buffer.Chains
import TdUtils.Buffer.Progress
import TdUtils.Crypto.AesCtr
import TdUtils.Crypto.XorBytes
import TdUtils.Crypto.AesCtrStream
import TdUtils.Crypto.AesIge
import TdUtils.Crypto.AesIgeSlices
import TdUtils.Crypto.AesIvChaining
import TdUtils.Crypto.Crc32c
import TdUtils.Crypto.CrcTables
import TdUtils.Crypto.Gcd
import TdUtils.Crypto.PqFactorize
import TdUtils.Flow.ByteFlow
import TdUtils.Flow.AesCtrByteFlow
import TdUtils.Flow.AesCtrDelivery
import TdUtils.Concurrent.MpscPollableQueue
import TdUtils.Concurrent.MpscLinkQueue
import TdUtils.Concurrent.MpscLinkDeque
import TdUtils.Concurrent.MpmcEagerWaiter
import TdUtils.Concurrent.MpmcEagerWakeups
import TdUtils.Concurrent.MpmcSleepyWaiter
import TdUtils.Concurrent.MpmcSleepyParking
import TdUtils.Concurrent.MpmcSleepyNotify
import TdUtils.Concurrent.MpmcSleepyWakeups
import TdUtils.Concurrent.SpscBlockQueue
import TdUtils.Concurrent.SpscChain
import TdUtils.Concurrent.SpscChainQueue
import TdUtils.Concurrent.SpscChainMemory
import TdUtils.Concurrent.SpscChainWriter
import TdUtils.Concurrent.SpscChainReader
import TdUtils.Concurrent.SpscChainDelivery
import TdUtils.Concurrent.PollQueue
import TdUtils.Concurrent.SpscChainCalls
import TdUtils.Concurrent.PollQueueWakeups
import TdUtils.Concurrent.StealingQueue
import TdUtils.Concurrent.StealingClaims
import TdUtils.Concurrent.StealingSteps
import TdUtils.Concurrent.StealingDelivery
import TdUtils.Flow.ByteFlowChain
import TdUtils.Flow.ByteFlowCalls
import TdUtils.Flow.ByteFlowSteps
import TdUtils.Flow.ByteFlowRuns
import TdUtils.Concurrent.AtomicRead
import TdUtils.Concurrent.HazardPointers
import TdUtils.Concurrent.HazardSafety
import TdUtils.Concurrent.EpochReclamation
import TdUtils.Concurrent.EpochSafety
import TdUtils.Concurrent.ConcurrentHashRuns
import TdUtils.Log.MemoryLog
import TdUtils.Port.FileFd
import TdUtils.Port.Filesystem
import TdUtils.Port.WstringConvert
import TdUtils.Lib.Punycode
import TdUtils.Port.Punycode
import TdUtils.Port.IdnToAscii
import TdUtils.Buffer.SharedSlice
import TdUtils.Buffer.SharedSliceCounts
import TdUtils.Container.ObjectPool
import TdUtils.Container.ObjectPoolOwners
import TdUtils.Concurrent.MpscLinkCalls
import TdUtils.Container.SharedObjectPool
import TdUtils.Container.SharedObjectPoolCounts
import TdUtils.Container.ListNodeRuns
import TdUtils.Text.Base64
import TdUtils.Text.Base64RoundTrip
import TdUtils.Text.Base32
import TdUtils.Text.ToInteger
import TdUtils.Text.CleanFilename
import TdUtils.Flow.FloodControlIndexing
import TdUtils.Buffer.BufferedFd
import TdUtils.Buffer.BufferedFdInput
import TdUtils.Buffer.BufferedReader
import TdUtils.Text.CheckUtf8
import TdUtils.Tl.TlBufferParser
import TdUtils.Json.DecodeInPlace
import TdUtils.Json.Unescape
import TdUtils.Json.Wellformed
import TdUtils.Json.Scalars
import TdUtils.Json.JsonScopes
import TdUtils.Json.ScopesSpell
import TdUtils.Concurrent.MpmcQueue
import TdUtils.Concurrent.MpmcQueueNodes
import TdUtils.Buffer.BufferAllocator
import TdUtils.Buffer.SliceCounter
import TdUtils.Buffer.SliceRegions
import TdUtils.Lib.Part
import TdUtils.Buffer.BufferBuilder
import TdUtils.Buffer.BuilderContents
import TdUtils.Buffer.BuilderExtract
import TdUtils.Buffer.BuilderReserves
import TdUtils.Buffer.StackAllocator
import TdUtils.Crypto.SecureBytes
import TdUtils.Text.OptionGrammar
import TdUtils.Text.OptionParser
import TdUtils.Port.WalkPath
import TdUtils.Lib.Refines
import TdUtils.Text.TranslitForms
import TdUtils.Hints.Indexes
import TdUtils.Hints.Book
import TdUtils.Hints.Search
import TdUtils.Hints.OwnName
import TdUtils.Concurrent.ConcurrentHashThreads
import TdUtils.Concurrent.ConcurrentHashInvariant
import TdUtils.Concurrent.ConcurrentHashSteps
import TdUtils.Concurrent.ConcurrentHashAgreement
import TdUtils.Lib.FileSystem
import TdUtils.Port.AtomicWrite
import TdUtils.Concurrent.MpmcQueueRuns
import TdUtils.Port.BufferedUdp
