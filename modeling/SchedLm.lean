import SchedLm.Sim.Node
import SchedLm.Library.RankedEviction
import SchedLm.Sim.Eviction
import SchedLm.Sim.Pollution
import SchedLm.Library.HashChain
import SchedLm.Sim.PrefixMatch
import SchedLm.Sim.Cost
import SchedLm.Sim.Workload
import SchedLm.Sim.GapIndex
import SchedLm.Sim.Policies
import SchedLm.Sim.Engine
import SchedLm.Library.Runs
import SchedLm.Sim.EngineRun
import SchedLm.Sim.Oracle
import SchedLm.Sim.Queue
import SchedLm.Library.Paging
import SchedLm.Sim.Belady
import SchedLm.Sim.RouterIndexSync
import SchedLm.Sim.Lease
import SchedLm.Library.LinkedTable
import SchedLm.Gateway.Clock
import SchedLm.Gateway.ToolGap
import SchedLm.Gateway.Session
import SchedLm.Gateway.Classify
import SchedLm.Gateway.ConversationKey
import SchedLm.Gateway.PreRequest
import SchedLm.Gateway.Refinement
import SchedLm.Sim.NodeInvariants
import SchedLm.Sim.Observable
import SchedLm.Sim.NoPressure
import SchedLm.Sim.BlockSharing
import SchedLm.Gateway.DurationText
import SchedLm.Gateway.ProfileHandler
import SchedLm.Gateway.Wire
import SchedLm.Gateway.SessionScope
import SchedLm.Gateway.Ceiling
import SchedLm.Gateway.Interleaving
import SchedLm.Library.Ewma
import SchedLm.Library.Recency
import SchedLm.Sim.GapHistory
import SchedLm.Gateway.GapHistory
import SchedLm.Sim.Generator
import SchedLm.Library.Returns
import SchedLm.Sim.GeneratedTurns
import SchedLm.Gateway.LiveSignals
import SchedLm.Library.LeastCost
import SchedLm.Sim.Candidates
import SchedLm.Sim.Ledger
import SchedLm.Sim.Coupling
import SchedLm.Sim.RegimeLabel
import SchedLm.Sim.OracleMonotone
import SchedLm.Sim.CoarseSignals
import SchedLm.Sim.StackProperty
import SchedLm.Gateway.Precedence
import SchedLm.Gateway.LeaseBounds
import SchedLm.Library.WeightedSum
import SchedLm.Sim.FilterThenScore
import SchedLm.Sim.EvictionEnds
import SchedLm.Bench.Traffic
import SchedLm.Library.Pattern
import SchedLm.Library.Decimal
import SchedLm.Bench.KvPriority
import SchedLm.Sim.Vocabulary
import SchedLm.Sim.RequestCounts
import SchedLm.Sim.PromptForms
import SchedLm.Library.StableSort
import SchedLm.Sim.SessionOrder
import SchedLm.Library.FloatText
import SchedLm.Bench.Mix
import SchedLm.Library.Semaphore
import SchedLm.Library.Interleave
import SchedLm.Library.Grouping
import SchedLm.Bench.Chat
import SchedLm.Bench.Replay
import SchedLm.Bench.ReplayInvariant
import SchedLm.Bench.ReplaySafety
import SchedLm.Bench.ReplayEnds
import SchedLm.Bench.OpenLoop
import SchedLm.Bench.OpenLoopInvariant
import SchedLm.Bench.OpenLoopSafety
import SchedLm.Bench.OpenLoopEnds
import SchedLm.Library.Relabel
import SchedLm.Sim.Alike
import SchedLm.Sim.Symmetry
import SchedLm.Sim.SymmetricRuns
import SchedLm.Sim.Invariance
import SchedLm.Sim.Compulsory
import SchedLm.Sim.OneNode
import SchedLm.Sim.ClassStreams
import SchedLm.Sim.Report
import SchedLm.Bench.HeaderRoundTrip
