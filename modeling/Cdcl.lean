import Cdcl.Dimacs.Grammar
import Cdcl.Driving
import Cdcl.Formula
import Cdcl.Main
import Cdcl.Proofs.Accounts
import Cdcl.Proofs.Arena
import Cdcl.Proofs.Asserting
import Cdcl.Proofs.Backtracking
import Cdcl.Proofs.Blocks
import Cdcl.Proofs.Calls
import Cdcl.Proofs.Closure
import Cdcl.Proofs.Concluding
import Cdcl.Proofs.Delivering
import Cdcl.Proofs.Discarding
import Cdcl.Proofs.Drifting
import Cdcl.Proofs.Driven
import Cdcl.Proofs.Faults
import Cdcl.Proofs.Fitting
import Cdcl.Proofs.Forwarding
import Cdcl.Proofs.Frontier
import Cdcl.Proofs.Grounding
import Cdcl.Proofs.Heap
import Cdcl.Proofs.Heap.Ordering
import Cdcl.Proofs.Heap.Priority
import Cdcl.Proofs.Heap.Requests
import Cdcl.Proofs.Indexing
import Cdcl.Proofs.Inserting
import Cdcl.Proofs.Intake
import Cdcl.Proofs.Invariant
import Cdcl.Proofs.Keys
import Cdcl.Proofs.Learning
import Cdcl.Proofs.Lessons
import Cdcl.Proofs.Levels
import Cdcl.Proofs.Loading
import Cdcl.Proofs.Marks
import Cdcl.Proofs.Meaning
import Cdcl.Proofs.Memory
import Cdcl.Proofs.Models
import Cdcl.Proofs.Moving
import Cdcl.Proofs.Network
import Cdcl.Proofs.Observed
import Cdcl.Proofs.Order
import Cdcl.Proofs.Pacing
import Cdcl.Proofs.Passes
import Cdcl.Proofs.Permanence
import Cdcl.Proofs.Picking
import Cdcl.Proofs.Printing
import Cdcl.Proofs.Propagating
import Cdcl.Proofs.Reading
import Cdcl.Proofs.Rearranging
import Cdcl.Proofs.Reasons
import Cdcl.Proofs.Reducing
import Cdcl.Proofs.Refutation
import Cdcl.Proofs.Rehearsing
import Cdcl.Proofs.Reliability
import Cdcl.Proofs.Replacing
import Cdcl.Proofs.Requiring
import Cdcl.Proofs.Resolving
import Cdcl.Proofs.Restart
import Cdcl.Proofs.Rooting
import Cdcl.Proofs.Rounds
import Cdcl.Proofs.Scanning
import Cdcl.Proofs.Search
import Cdcl.Proofs.Searching
import Cdcl.Proofs.Shortening
import Cdcl.Proofs.Simplifying
import Cdcl.Proofs.Steps
import Cdcl.Proofs.Storing
import Cdcl.Proofs.Success
import Cdcl.Proofs.Success.Calls
import Cdcl.Proofs.Success.Heap
import Cdcl.Proofs.Success.Inserting
import Cdcl.Proofs.Success.Intake
import Cdcl.Proofs.Success.Learning
import Cdcl.Proofs.Success.Levels
import Cdcl.Proofs.Success.Order
import Cdcl.Proofs.Success.Propagation
import Cdcl.Proofs.Success.Resolving
import Cdcl.Proofs.Success.Search
import Cdcl.Proofs.Success.Shortening
import Cdcl.Proofs.Success.Simplifying
import Cdcl.Proofs.Success.Upkeep
import Cdcl.Proofs.Sweeping
import Cdcl.Proofs.Telling
import Cdcl.Proofs.Trail
import Cdcl.Proofs.Twins
import Cdcl.Proofs.Twins.Calls
import Cdcl.Proofs.Twins.Network
import Cdcl.Proofs.Twins.Search
import Cdcl.Proofs.Twins.Solver
import Cdcl.Proofs.Upkeep
import Cdcl.Proofs.Watching
import Cdcl.Proofs.Weights
