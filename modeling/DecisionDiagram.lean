import DecisionDiagram.Detached.Compress
import DecisionDiagram.Detached.Reduce
import DecisionDiagram.Detached.Topology
import DecisionDiagram.History
import DecisionDiagram.Main
import DecisionDiagram.Proofs.Arena.Basic
import DecisionDiagram.Proofs.Arena.Unfolding
import DecisionDiagram.Proofs.UniqueTable.Index
import DecisionDiagram.Proofs.Arena.Apply
import DecisionDiagram.Proofs.Arena.Restrict
import DecisionDiagram.Proofs.Arena.Rename
import DecisionDiagram.Proofs.Arena.Settled
import DecisionDiagram.Proofs.Manager.Run
import DecisionDiagram.Proofs.Manager.Sound
import DecisionDiagram.Proofs.Manager.Algorithms
import DecisionDiagram.Proofs.Manager.Closed
import DecisionDiagram.Proofs.Manager.Query
import DecisionDiagram.Proofs.History
import DecisionDiagram.Proofs.Reached.Canonicity
import DecisionDiagram.Proofs.Reached.ComputedTable
import DecisionDiagram.Proofs.Reached.Connectives
import DecisionDiagram.Proofs.Manager.Support
import DecisionDiagram.Proofs.Reached.Arena
import DecisionDiagram.Proofs.Reached.Coincidence
import DecisionDiagram.Proofs.Reached.Renaming
import DecisionDiagram.Proofs.UniqueTable.Calls
import DecisionDiagram.Proofs.UniqueTable.Chains
import DecisionDiagram.Proofs.UniqueTable.Linked
import DecisionDiagram.Proofs.UniqueTable.Mirror
import DecisionDiagram.Proofs.UniqueTable.Buckets
import DecisionDiagram.Detached.Bench
import DecisionDiagram.Proofs.Tree.Reduction
import DecisionDiagram.Proofs.Detached.Made
import DecisionDiagram.Proofs.Detached.Equality
import DecisionDiagram.Proofs.Detached.Reduction
import DecisionDiagram.Proofs.Detached.Compression
import DecisionDiagram.Proofs.Detached.Topology
import DecisionDiagram.Proofs.Detached.Bench
import DecisionDiagram.Proofs.Manager.Attach
import DecisionDiagram.Proofs.Manager.Detach
import DecisionDiagram.Proofs.Reached.Attaching
import DecisionDiagram.Proofs.Reached.Exchange
import DecisionDiagram.Proofs.Manager.Answers
import DecisionDiagram.Proofs.Reached.Ensures
import DecisionDiagram.Proofs.Reached.Support
import DecisionDiagram.Proofs.Reached.Guarded
import DecisionDiagram.Proofs.Reached.Contracts
import DecisionDiagram.Proofs.Counter.Image
import DecisionDiagram.Proofs.Counter.Transition
import DecisionDiagram.Proofs.Counter.Reach
import DecisionDiagram.Proofs.Counter.Run
import DecisionDiagram.Proofs.Reached.Asking
import DecisionDiagram.Proofs.Reached.Sizing
import DecisionDiagram.Proofs.Reached.Restriction
import DecisionDiagram.Proofs.Reached.Persistence
import DecisionDiagram.Proofs.Reached.Containment
import DecisionDiagram.Proofs.Reached.Quantification
import DecisionDiagram.Proofs.Reached.Folds
import DecisionDiagram.Proofs.Arena.Paths
import DecisionDiagram.Proofs.Reached.Frugality
import DecisionDiagram.Proofs.ComputedTable.Fills
import DecisionDiagram.Proofs.Reached.Subproblems
import DecisionDiagram.Proofs.Reached.Misses
import DecisionDiagram.Proofs.Reached.Work
import DecisionDiagram.Proofs.Reached.Recall
import DecisionDiagram.Proofs.Reached.RoundTrip
import DecisionDiagram.Proofs.Detached.Equivalence
import DecisionDiagram.Proofs.Detached.Redundancy
import DecisionDiagram.Proofs.Manager.AttachOrdered
import DecisionDiagram.Proofs.Reached.OrderedAttaching
import DecisionDiagram.Proofs.Detached.Relabelling
import DecisionDiagram.Proofs.Reached.Relabelling
import DecisionDiagram.Proofs.Detached.Retention
import DecisionDiagram.Proofs.Detached.Text
import DecisionDiagram.Proofs.Reached.Equality
import DecisionDiagram.Proofs.Detached.Rivals
import DecisionDiagram.Proofs.UniqueTable.Growth
import DecisionDiagram.Proofs.Reached.Construction
import DecisionDiagram.Proofs.Nesting
import DecisionDiagram.Proofs.Manager.Tracing
import DecisionDiagram.Proofs.Manager.Keeping
import DecisionDiagram.Proofs.Reached.Descent
import DecisionDiagram.Proofs.Reached.Depth
import DecisionDiagram.Proofs.Pairing
import DecisionDiagram.Proofs.UniqueTable.Room
import DecisionDiagram.Proofs.Reached.Room
import DecisionDiagram.Proofs.Reached.Failure
