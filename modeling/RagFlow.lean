import RagFlow.Agent.AtMostOnce
import RagFlow.Agent.Completeness
import RagFlow.Agent.DependencyOrder
import RagFlow.Agent.Loop
import RagFlow.Agent.Reference
import RagFlow.Agent.Versions
import RagFlow.AgentMemory.Size
import RagFlow.Analyzer.Greedy
import RagFlow.Analyzer.PositionMode
import RagFlow.Analyzer.PositionPieces
import RagFlow.Analyzer.TopTokens
import RagFlow.Chat.ClientAnswer
import RagFlow.Chat.KbPrompt
import RagFlow.Chat.Losses
import RagFlow.Chat.MessageFit
import RagFlow.Chat.Retry
import RagFlow.Chunking.ContentsTable
import RagFlow.Chunking.DocxContext
import RagFlow.Chunking.HtmlBlocks
import RagFlow.Chunking.InForce
import RagFlow.Chunking.MarkdownElements
import RagFlow.Chunking.MediaSources
import RagFlow.Chunking.MergedSize
import RagFlow.Chunking.MergedText
import RagFlow.Chunking.TreeMerge
import RagFlow.Cli.Reading
import RagFlow.Editor.Components
import RagFlow.Editor.HistoryManager
import RagFlow.Editor.Identity
import RagFlow.Editor.Naming
import RagFlow.Editor.Replica
import RagFlow.Editor.SwitchForm
import RagFlow.Elastic.SearchAfter
import RagFlow.Feedback.PagerankFea
import RagFlow.Files.BatchMetadata
import RagFlow.Files.DeleteFiles
import RagFlow.Flow.GroupTitleChunker
import RagFlow.Flow.HierarchyTitleChunker
import RagFlow.Flow.TokenRuns
import RagFlow.GraphRag.DocumentPurge
import RagFlow.GraphRag.InStep
import RagFlow.GraphRag.MergeLock
import RagFlow.GraphRag.MergeOrder
import RagFlow.GraphRag.Removal
import RagFlow.GraphRag.Rerun
import RagFlow.Infinity.Paging
import RagFlow.Infinity.Positions
import RagFlow.Infinity.Survival
import RagFlow.Ingestion.Counters
import RagFlow.Ingestion.PageTasks
import RagFlow.Ingestion.Progress
import RagFlow.Ingestion.RaptorRows
import RagFlow.Ingestion.SyncProgress
import RagFlow.Ingestion.TaskChunks
import RagFlow.Migration.References
import RagFlow.Net.DnsPins
import RagFlow.Query.Sentence
import RagFlow.Query.TokenMerge
import RagFlow.Redis.IdGenerator
import RagFlow.Redis.RequeueMsg
import RagFlow.Redis.SecretKey
import RagFlow.Redis.TaskQueue
import RagFlow.Retrieval.Children
import RagFlow.Retrieval.Citations
import RagFlow.Retrieval.EachValue
import RagFlow.Retrieval.EmbeddingLRU
import RagFlow.Retrieval.GoMetaFilter
import RagFlow.Retrieval.RerankPort
import RagFlow.Sandbox.ContainerPool
import RagFlow.Sync.Dispatch
import RagFlow.Sync.Watermark
import RagFlow.Vision.Extraction
import RagFlow.Vision.Overlap
import RagFlow.Vision.PageWindows
import RagFlow.Vision.Scraps
