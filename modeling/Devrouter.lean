import Devrouter.Lib.Prog
import Devrouter.Lib.Machine
import Devrouter.Lib.Fields
import Devrouter.Heuristics.Profile
import Devrouter.Heuristics.Redis
import Devrouter.Heuristics.Store
import Devrouter.Heuristics.Bandit
import Devrouter.Heuristics.Buckets
import Devrouter.Heuristics.Topics
import Devrouter.Heuristics.Picker
import Devrouter.Heuristics.Knobs
import Devrouter.Heuristics.Audit
import Devrouter.Heuristics.Reset
import Devrouter.Heuristics.Cold
import Devrouter.Heuristics.Isolation
import Devrouter.Heuristics.Reward
import Devrouter.Router.Feedback
import Devrouter.Lib.Streak
import Devrouter.Router.Rollback
import Devrouter.McpSource.Stdio
import Devrouter.Heuristics.Shared
import Devrouter.Heuristics.FrozenDefault
import Devrouter.Heuristics.SharedBandit
import Devrouter.Heuristics.SharedTopics
import Devrouter.Memory.Redis
import Devrouter.Memory.Store
import Devrouter.Memory.Keys
import Devrouter.Memory.Resave
import Devrouter.Memory.AutoSave
import Devrouter.Memory.Overlay
import Devrouter.Lib.Lineage
import Devrouter.Memory.Lineage
import Devrouter.Memory.FalsePositives
import Devrouter.Memory.Keyspace
import Devrouter.Router.TraceRecords
import Devrouter.Heuristics.Registry
import Devrouter.Heuristics.SourceBandit
import Devrouter.Heuristics.Breadths
import Devrouter.Anchorlearn.Reward
import Devrouter.Lib.Product
import Devrouter.Router.Submit
import Devrouter.Router.Attribution
import Devrouter.Anchorlearn.Decide
import Devrouter.Anchorlearn.Runs
import Devrouter.Lib.Trim
import Devrouter.Router.MemoryKeys
import Devrouter.Lib.Json
import Devrouter.Router.Plan
import Devrouter.Router.Recall
import Devrouter.Codegraph.Handlers
import Devrouter.Codegraph.Subgraph
import Devrouter.Codegraph.Files
import Devrouter.Router.FlowSnapshot
import Devrouter.Lib.MergeOrder
import Devrouter.Router.CallChain
import Devrouter.Lib.Layers
import Devrouter.Codegraph.Records
import Devrouter.Codegraph.Rounds
import Devrouter.Codegraph.Depth
import Devrouter.Codegraph.Answers
import Devrouter.Codegraph.Complete
import Devrouter.Anchorlearn.Stores
import Devrouter.Anchorlearn.ColdStart
import Devrouter.Codegraph.Tokens
import Devrouter.Codegraph.RegistryFile
import Devrouter.CrossRepo.RegistryLoader
import Devrouter.Codegraph.Pool
import Devrouter.CrossRepo.Linker
import Devrouter.McpSource.Handshake
import Devrouter.Heuristics.Stats
import Devrouter.Heuristics.Observed
import Devrouter.Router.Signals
import Devrouter.Router.Blame
import Devrouter.Lib.SliceSort
import Devrouter.Router.Memories
import Devrouter.Router.Shown
import Devrouter.Router.Decisions
import Devrouter.Router.Excludes
import Devrouter.Lib.JsonScan
import Devrouter.Mcp.Server
import Devrouter.Heuristics.Windows
import Devrouter.Heuristics.Repeat
import Devrouter.Memory.Bulk
import Devrouter.Memory.Centroids
import Devrouter.Router.Demotion
import Devrouter.Lib.Ceiling
import Devrouter.Codegraph.Dangling
import Devrouter.Router.PlanFilter
import Devrouter.Router.Collapse
import Devrouter.Router.Ranking
import Devrouter.Router.Resorted
import Devrouter.Router.ServiceTokens
import Devrouter.Lib.FirstSeen
import Devrouter.Router.CleanPlan
import Devrouter.Router.Trimming
import Devrouter.Anchorlearn.Evidence
import Devrouter.Anchorlearn.Enumeration
import Devrouter.Router.Restem
import Devrouter.Lib.UnderRoot
import Devrouter.Codegraph.SourceFiles
import Devrouter.Codegraph.Lookup
import Devrouter.Codegraph.NameSearch
import Devrouter.CrossRepo.Tags
import Devrouter.Lib.JsonLayout
import Devrouter.Lib.JsonLines
import Devrouter.Lib.LineScanner
import Devrouter.McpSource.Responses
import Devrouter.McpSource.EventStream
import Devrouter.Lib.JsonFirst
import Devrouter.McpSource.Mappers
import Devrouter.McpSource.Calls
import Devrouter.Lib.Quoting
import Devrouter.Memory.Search
import Devrouter.Memory.TagFilter
import Devrouter.Router.TwoHops
import Devrouter.Router.EdgeKeys
import Devrouter.Memory.Filed
import Devrouter.Memory.Conflicts
import Devrouter.Mcp.Saves
import Devrouter.Router.IntentTotals
import Devrouter.Dashboard.FlowTopics
import Devrouter.Lib.UrlQuery
import Devrouter.McpSource.OpenApi
import Devrouter.Router.SourceCaps
import Devrouter.Heuristics.Centroids
import Devrouter.Heuristics.TopicLabels
import Devrouter.Lib.GoBytes
import Devrouter.Prompt.Truncation
import Devrouter.Lib.Recency
import Devrouter.Router.LastCalls
import Devrouter.Lib.Answers
import Devrouter.Engine.Tables
import Devrouter.Engine.NodeCache
import Devrouter.Engine.Sync
import Devrouter.Engine.Resolve
import Devrouter.Lib.Frontier
import Devrouter.Engine.Traversal
import Devrouter.Lib.DepthFirst
import Devrouter.Engine.CallGraph
import Devrouter.Engine.FileCycles
import Devrouter.Engine.Watcher
import Devrouter.Engine.Proxy
import Devrouter.Lib.LockFile
import Devrouter.Engine.DaemonLock
import Devrouter.Lib.Cut
import Devrouter.Engine.DaemonClients
import Devrouter.Lib.EditDistance
import Devrouter.Engine.FuzzyNames
