import MarkSdk.Lib.Deferred
import MarkSdk.Store.FactJobs
import MarkSdk.Facts.ArrivalOrder
import MarkSdk.Facts.Removal
import MarkSdk.Facts.Histories
import MarkSdk.Facts.Undo
import MarkSdk.Facts.Keys
import MarkSdk.Extraction.Denials
import MarkSdk.Extraction.Replay
import MarkSdk.Queue.Attempts
import MarkSdk.Queue.Settling
import MarkSdk.Queue.ClaimRace
import MarkSdk.Store.WriteRace
import MarkSdk.Blocks.Linear
import MarkSdk.Blocks.History
import MarkSdk.Blocks.Maintained
import MarkSdk.Memory.KeptTruth
import MarkSdk.Memory.PruneTwice
import MarkSdk.Memory.JobRows
import MarkSdk.Memory.States
import MarkSdk.Memory.Embeddings
import MarkSdk.Memory.Forgetting
import MarkSdk.Memory.Lineages
import MarkSdk.Cli.Supersede
import MarkSdk.Sync.Passes
import MarkSdk.Lib.Clients
import MarkSdk.Store.Graph
import MarkSdk.Context.Budget
import MarkSdk.Portability.Documents
import MarkSdk.Portability.Survival
import MarkSdk.Memory.BatchWriting
import MarkSdk.Retrieval.Render
import MarkSdk.Gate.Closing
import MarkSdk.Store.Filters
import MarkSdk.Lib.Overlay
import MarkSdk.Store.ScopeIds
import MarkSdk.Retrieval.ScopeSync
import MarkSdk.Retrieval.FullText
import MarkSdk.Blocks.Seals
import MarkSdk.Memory.Provenance
import MarkSdk.Blocks.Traversal
import MarkSdk.Retrieval.TwoClocks
import MarkSdk.Context.WholeFit
import MarkSdk.Context.Observed
import MarkSdk.Lib.MoveAhead
import MarkSdk.Retrieval.Supersession
import MarkSdk.Facts.SubjectTimeline
import MarkSdk.Lib.SortedBy
import MarkSdk.Lib.Windows
import MarkSdk.Security.NearHints
import MarkSdk.Lib.Marked
import MarkSdk.Context.Inject
import MarkSdk.Retrieval.BestSpan
import MarkSdk.Retrieval.BestPassage
import MarkSdk.Lib.Regex
import MarkSdk.Security.Boundary
import MarkSdk.Lib.TopK
import MarkSdk.Index.Search
import MarkSdk.Index.Agreement
import MarkSdk.Retrieval.TrustBus
import MarkSdk.Lib.Packing
import MarkSdk.Chunking.Blocks
import MarkSdk.Chunking.Pack
import MarkSdk.Chunking.Sections
import MarkSdk.Chunking.Words
import MarkSdk.Lib.MapM
import MarkSdk.Chunking.Complete
import MarkSdk.Lib.BestFirst
import MarkSdk.Retrieval.GraphExpansion
import MarkSdk.Lib.Quota
import MarkSdk.Retrieval.Finish
import MarkSdk.Retrieval.Ordering
import MarkSdk.Retrieval.MultiHop
import MarkSdk.Retrieval.Crowding
import MarkSdk.Lib.Calendar
import MarkSdk.Lib.Captures
import MarkSdk.Lib.ChangeLog
import MarkSdk.Lib.Claims
import MarkSdk.Retrieval.DatePatterns
import MarkSdk.Retrieval.DateParsing
import MarkSdk.Retrieval.DateRanges
import MarkSdk.Retrieval.DateReading
import MarkSdk.Retrieval.QueryDates
import MarkSdk.Lib.FixedWidth
import MarkSdk.Store.TimeText
import MarkSdk.Facts.Answers
import MarkSdk.Facts.ReadBack
import MarkSdk.Extraction.EndValue
import MarkSdk.Scopes.Writes
import MarkSdk.Scopes.Cache
import MarkSdk.Scopes.Agreement
import MarkSdk.Sketches.Tokens
import MarkSdk.Sketches.Candidates
import MarkSdk.Sketches.Completeness
import MarkSdk.Lib.Slices
import MarkSdk.Index.Export
import MarkSdk.Snapshots.Tables
import MarkSdk.Snapshots.Saving
import MarkSdk.Snapshots.Processes
import MarkSdk.Snapshots.Freshness
import MarkSdk.Snapshots.Serving
import MarkSdk.Server.Lock
import MarkSdk.Server.OneServer
import MarkSdk.Server.Starting
import MarkSdk.Context.WatchWorker
import MarkSdk.Lib.Parties
import MarkSdk.Context.WatchTurns
import MarkSdk.Context.WatchOrder
import MarkSdk.Context.WatchProgress
import MarkSdk.Lib.Base64
import MarkSdk.Lib.Rowids
import MarkSdk.Opening.Words
import MarkSdk.Opening.Guard
import MarkSdk.Opening.TextIndex
import MarkSdk.Opening.Handles
import MarkSdk.Opening.Calls
import MarkSdk.Opening.InStep
import MarkSdk.Opening.Texts
import MarkSdk.Opening.Secrets
import MarkSdk.Opening.OneSecret
