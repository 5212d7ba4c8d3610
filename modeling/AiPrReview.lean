import AiPrReview.Program
import AiPrReview.Pool
import AiPrReview.Grouping
import AiPrReview.PyText
import AiPrReview.Findings
import AiPrReview.Dedup
import AiPrReview.Table
import AiPrReview.ReviewDb
import AiPrReview.ReviewCalls
import AiPrReview.ReviewPrograms
import AiPrReview.Gate
import AiPrReview.Approve
import AiPrReview.QueueAgreement
import AiPrReview.PostedTerminal
import AiPrReview.DeliveryRuns
import AiPrReview.Regex
import AiPrReview.InjectionGuard
import AiPrReview.FragmentScan
import AiPrReview.FenceForgery
import AiPrReview.Lines
import AiPrReview.SanitizedLines
import AiPrReview.SourceTree
import AiPrReview.Chunker
import AiPrReview.Indexer
import AiPrReview.IncrementalIndex
import AiPrReview.Specialist
import AiPrReview.BudgetCap
import AiPrReview.JobQueue
import AiPrReview.Webhook
import AiPrReview.WebhookRuns
import AiPrReview.GraphState
import AiPrReview.Words
import AiPrReview.ReviewBody
import AiPrReview.ApproveBody
import AiPrReview.ResolveOnce
import AiPrReview.ClaimProtocol
import AiPrReview.StuckReview
import AiPrReview.FullIndex
import AiPrReview.PushOrder
import AiPrReview.ReadCommitted
import AiPrReview.WriteRaces
import AiPrReview.Redis
import AiPrReview.Glob
import AiPrReview.Checkpointer
import AiPrReview.PendingWrites
import AiPrReview.CheckpointCrash
import AiPrReview.CheckpointStore
import AiPrReview.DedupSpec
import AiPrReview.StoredFindings
import AiPrReview.Streak
import AiPrReview.Reliability
import AiPrReview.GuardAgreement
import AiPrReview.GuardDiscipline
import AiPrReview.OneProbe
import AiPrReview.RollbackBreaker
import AiPrReview.GitHubClient
import AiPrReview.LineEdits
import AiPrReview.PromptBlocks
import AiPrReview.Sha256
import AiPrReview.Ingress
import AiPrReview.PendingStatus
import AiPrReview.ChunkCoverage
import AiPrReview.StorableChunks
import AiPrReview.PushFlattening
import AiPrReview.DiffStats
import AiPrReview.BodyLines
import AiPrReview.Tracing
import AiPrReview.Matching
import AiPrReview.Scorer
import AiPrReview.RegressionGate
import AiPrReview.ScoringOrder
import AiPrReview.Ranking
import AiPrReview.Numeric
import AiPrReview.ContextRetriever
import AiPrReview.HybridTopK
import AiPrReview.GuardedPool
import AiPrReview.Redelivery
import AiPrReview.GuardedStore
import AiPrReview.Dashboard
import AiPrReview.ReviewDetail
import AiPrReview.RelyGuarantee
import AiPrReview.GitHubTokens
import AiPrReview.RetrievalOrder
import AiPrReview.CommitOrder
import AiPrReview.SerialWrites
import AiPrReview.Evaluation
import AiPrReview.Authority
import AiPrReview.IndexJobs
import AiPrReview.IndexRuns
