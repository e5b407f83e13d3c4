import Symex.Demo
import Symex.Explore.Graph
import Symex.Frontier.Build
import Symex.Frontier.Lemmas
import Symex.Goal.Basic
import Symex.Goal.Distance
import Symex.Machine.Basic
import Symex.Main
import Symex.Model.Copy
import Symex.Model.Render
import Symex.Plan.Agenda
import Symex.Probe.Assemble
import Symex.Probe.Lower
import Symex.Proofs.Explore.Exhaustive
import Symex.Proofs.Explore.Feasible
import Symex.Proofs.Explore.Routes
import Symex.Proofs.Frontier.Held
import Symex.Proofs.Goal.Meaning
import Symex.Proofs.Resolve.Aliased
import Symex.Proofs.Resolve.Current
import Symex.Proofs.Resolve.Snapshot
import Symex.Proofs.Resolve.Truth
import Symex.Proofs.Solver.Bounds
import Symex.Proofs.Solver.Decides
import Symex.Proofs.Synthesis.Arrays
import Symex.Proofs.Synthesis.Clusters
import Symex.Proofs.Synthesis.Granted
import Symex.Resolve.Basic
import Symex.Settings
import Symex.Solver.Basic
import Symex.State.Basic
import Symex.Synthesis.Basic
import Symex.Proofs.Frontier.Interleaved
import Symex.Proofs.Stats.Shortest
import Symex.Proofs.Plan.Language
import Symex.Proofs.Plan.Enumeration
import Symex.Proofs.Solver.Congruence
import Symex.Proofs.Synthesis.Shared
import Symex.Proofs.Synthesis.Endless
import Symex.Proofs.Synthesis.Fixture
import Symex.Proofs.Probe.Sharing
import Symex.Proofs.Synthesis.Separate
import Symex.Proofs.Explore.Turns
import Symex.Proofs.Explore.Identity
import Symex.Proofs.Explore.Bounded
import Symex.Proofs.Model.Aliases
import Symex.Proofs.Model.Isomorphic
import Symex.Proofs.Plan.Drained
import Symex.Proofs.Probe.Counted
import Symex.Proofs.Probe.Scoped
import Symex.Proofs.Probe.Called
import Symex.Proofs.Resolve.Arrays
import Symex.Proofs.Resolve.Requested
import Symex.Proofs.Resolve.Reads
import Symex.Proofs.Term.Renamed
import Symex.Proofs.Resolve.Named
import Symex.Proofs.Resolve.Framed
import Symex.Proofs.Resolve.Lengths
import Symex.Proofs.Resolve.Unbounded
import Symex.Proofs.Resolve.Fresh
import Symex.Proofs.Explore.Levels
import Symex.Proofs.Frontier.Bench
import Symex.Proofs.Machine.Divided
import Symex.Proofs.Solver.Closure
import Symex.Proofs.Solver.BruteForce
import Symex.Proofs.Settings.Suspensions
