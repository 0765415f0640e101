import DeepPack.Items.CopyAgreement
import DeepPack.Items.ShortestHead
import DeepPack.Items.ExpectHead
import DeepPack.Items.IntegerValues
import DeepPack.Items.RangeEncodings
import DeepPack.Items.StringParsing
import DeepPack.Codecs.Accepting
import DeepPack.Codecs.RangeLimits
import DeepPack.Codecs.Truncation
import DeepPack.Streams.MemoryOutputStream
import DeepPack.Streams.VoidStream
import DeepPack.Streams.ChunkedRefinement
import DeepPack.Streams.AppendLog
import DeepPack.Codecs.Encodable
import DeepPack.Codecs.Buffering
import DeepPack.Codecs.Codable
import DeepPack.Library.BitSets
import DeepPack.Codecs.PropertyDispatch
import DeepPack.Codecs.OptionalProperties
import DeepPack.Codecs.PropertyOrder
import DeepPack.Codecs.DuplicateKeys
import DeepPack.Streams.DiscardInput
import DeepPack.Streams.ChunkedDiscard
import DeepPack.Streams.ChunkedSupply
import DeepPack.Streams.ChunkedFailures
import DeepPack.Streams.ChunkedRoom
import DeepPack.Streams.LargeRequests
import DeepPack.Streams.DynamicMemoryOutputStream
import DeepPack.Streams.OwnStorage
import DeepPack.Streams.ObjectContents
import DeepPack.Codecs.FixedStrings
import DeepPack.State
import DeepPack.Legacy.WindowMoves
import DeepPack.Items.SizeRequests
import DeepPack.Items.WindowedCopy
import DeepPack.Items.CopyRequests
import DeepPack.Codecs.Transport
import DeepPack.Codecs.NewerObjects
import DeepPack.Codecs.GrowingMemory
import DeepPack.Codecs.PerfectLookup
import DeepPack.Codecs.IntegerHash
import DeepPack.Codecs.PrimeSearch
import DeepPack.Codecs.IntegerSqrt
import DeepPack.Legacy.BaseAddress
import DeepPack.Items.EmitCalls
import DeepPack.Streams.ChunkedDelivery
