import TLiveOmni.Lib.PySeq
import TLiveOmni.Tokens
import TLiveOmni.Spans
import TLiveOmni.RopeIndex
import TLiveOmni.RopeIndexParse
import TLiveOmni.RopeIndexBatch
import TLiveOmni.BatchIndependence
import TLiveOmni.Decode
import TLiveOmni.MropeParse
import TLiveOmni.Agreement
import TLiveOmni.Collision
import TLiveOmni.Lib.Words
import TLiveOmni.Processor
import TLiveOmni.ProcessorWire
import TLiveOmni.ProcessorBatch
import TLiveOmni.Roundtrip
import TLiveOmni.Lib.Expand
import TLiveOmni.PromptUpdates
import TLiveOmni.PromptUpdatesWire
import TLiveOmni.PromptContents
import TLiveOmni.Embeds
import TLiveOmni.Nested
import TLiveOmni.NestedParse
import TLiveOmni.UpdatedPrompts
import TLiveOmni.Lib.Assign
import TLiveOmni.Lib.Scatter
import TLiveOmni.MergeEmbeddings
import TLiveOmni.MergeOutcome
import TLiveOmni.Gather
import TLiveOmni.Engine
import TLiveOmni.BatchPlaces
import TLiveOmni.EngineRun
import TLiveOmni.StaleLabels
import TLiveOmni.AudioConv
import TLiveOmni.SpanPositions
import TLiveOmni.AudioPartition
import TLiveOmni.AudioFeatures
import TLiveOmni.Rewriting
import TLiveOmni.RewrittenText
import TLiveOmni.Mismatch
import TLiveOmni.Conservation
import TLiveOmni.Placement
import TLiveOmni.Lib.Memo
import TLiveOmni.ProcessorCache
import TLiveOmni.MmOnlyCall
import TLiveOmni.CacheTransparency
import TLiveOmni.Lib.While
import TLiveOmni.RawInputIds
import TLiveOmni.AudioTower
import TLiveOmni.AudioWindows
import TLiveOmni.PlaceholderMask
import TLiveOmni.VideoLayouts
import TLiveOmni.PromptPaths
import TLiveOmni.PromptWalk
import TLiveOmni.PathsAgree
import TLiveOmni.PathsApart
import TLiveOmni.PathsCompared
import TLiveOmni.Lib.Dict
import TLiveOmni.Lib.Returns
import TLiveOmni.EncoderCache
import TLiveOmni.EncoderSchedule
import TLiveOmni.Scheduler
import TLiveOmni.SchedulerInv
import TLiveOmni.SchedulerStep
import TLiveOmni.SchedulerEvents
import TLiveOmni.SchedulerProgress
import TLiveOmni.EngineSystem
import TLiveOmni.EngineSafety
import TLiveOmni.MropeRuns
import TLiveOmni.MropeRuns
import TLiveOmni.BlockHashMeaning
import TLiveOmni.BlockPool
import TLiveOmni.BlockPoolInv
import TLiveOmni.KvCacheManager
import TLiveOmni.KvCacheInv
import TLiveOmni.KvCacheRuns
