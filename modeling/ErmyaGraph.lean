import ErmyaGraph.Graph.History
import ErmyaGraph.Graph.EdgeCrash
import ErmyaGraph.Codec.AdjChainAppend
import ErmyaGraph.Codec.PropSlabMap
import ErmyaGraph.Graph.Ids
import ErmyaGraph.Graph.LatestCommit
import ErmyaGraph.Graph.AutoCommit
import ErmyaGraph.Storage.TornPage
import ErmyaGraph.Storage.RecoveryRedo
import ErmyaGraph.Gql.MatchExact
import ErmyaGraph.Bolt.Grants
import ErmyaGraph.Gql.InlineWhere
import ErmyaGraph.Schema.Layouts
import ErmyaGraph.Bolt.Framing
import ErmyaGraph.Bolt.Messages
import ErmyaGraph.Backup.Histories
import ErmyaGraph.Auth.Schedules
import ErmyaGraph.Storage.FailedEviction
import ErmyaGraph.Schema.Membership
import ErmyaGraph.Graph.Refusals
import ErmyaGraph.Graph.FailedVacuum
import ErmyaGraph.Codec.LabelIndex
import ErmyaGraph.Codec.EntitySlot
import ErmyaGraph.Codec.AdjSlabChecked
import ErmyaGraph.Codec.AdjSlabRoom
import ErmyaGraph.Codec.PropSlabChecked
import ErmyaGraph.Codec.OverflowChain
import ErmyaGraph.Codec.AdjChainWalk
import ErmyaGraph.Storage.HeapRuns
import ErmyaGraph.Gql.VariableHop
import ErmyaGraph.Gql.DeletionOrder
import ErmyaGraph.Gql.DebugKeys
import ErmyaGraph.Gql.NoTrap
import ErmyaGraph.Gql.MergeExact
import ErmyaGraph.Gql.Unwinding
import ErmyaGraph.Bolt.PathWire
import ErmyaGraph.Bolt.Results
import ErmyaGraph.Gql.ParamSubstitution
import ErmyaGraph.Query.PatternPath
import ErmyaGraph.Query.WeightedPath
import ErmyaGraph.Gql.RowMoves
import ErmyaGraph.Storage.AdjCache
import ErmyaGraph.Auth.TokenBucket
import ErmyaGraph.Graph.Isolation
import ErmyaGraph.Query.Subgraph
