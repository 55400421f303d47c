import HybridSearch.Theory.Transition
import HybridSearch.Theory.Threads
import HybridSearch.Theory.BitPack
import HybridSearch.Theory.Reader
import HybridSearch.Theory.Leb128
import HybridSearch.Engine.Machine
import HybridSearch.Engine.Codec
import HybridSearch.Engine.CodecRoundTrip
import HybridSearch.Engine.IndexRoundTrip
import HybridSearch.Engine.DocStoreCache
import HybridSearch.Engine.Exhaustive
import HybridSearch.Engine.CorpusReader
import HybridSearch.Engine.DiskSearch
import HybridSearch.Engine.GrammarTables
import HybridSearch.Engine.PorterSafety
import HybridSearch.Engine.SnippetNonempty
import HybridSearch.Broker.HedgeBudget
import HybridSearch.Broker.EventLogShutdown
import HybridSearch.Broker.FanOutProtocol
import HybridSearch.Broker.ExperimentAnalyzer
import HybridSearch.Broker.CompletionTrieLookup
import HybridSearch.Broker.OsaBuffers
import HybridSearch.Tuner.FusionAgreement
import HybridSearch.Clicks.InterleaveAgreement
import HybridSearch.Web.InteractionLog
import HybridSearch.Web.SseChunks
import HybridSearch.Web.UseSearchSteady
import HybridSearch.Engine.DiskRoundTrip
import HybridSearch.Engine.KmeansDescent
import HybridSearch.Engine.ProductQuantizer
import HybridSearch.Engine.Vamana
import HybridSearch.Engine.RobustPrune
import HybridSearch.Engine.VamanaInvariant
import HybridSearch.Engine.Varint
import HybridSearch.Engine.VisitedSet
import HybridSearch.Engine.Vocab
import HybridSearch.Engine.TopKHeap
import HybridSearch.Broker.LatencyQuantile
import HybridSearch.Broker.Degradation
import HybridSearch.Broker.QueryNormalizer
import HybridSearch.Broker.EventValidator
import HybridSearch.Stats.Significance
import HybridSearch.Eval.Metrics
import HybridSearch.Rerank.Mine
import HybridSearch.Rerank.Sampler
import HybridSearch.Engine.PostingCursor
import HybridSearch.Clicks.MarginalCredit
import HybridSearch.Broker.TeamDraft
import HybridSearch.Broker.FusionOrder
import HybridSearch.Clicks.Balanced
import HybridSearch.Broker.ShardedSearch
import HybridSearch.Engine.DiskAnswers
