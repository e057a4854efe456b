import Midend.Main
import Midend.Proofs.Arena.DepthFirst
import Midend.Proofs.Arena.First
import Midend.Proofs.Arena.Named
import Midend.Proofs.Arena.Postorder
import Midend.Proofs.Arena.Redirected
import Midend.Proofs.Arena.Refitted
import Midend.Proofs.Arena.SameShape
import Midend.Proofs.Arena.Under
import Midend.Proofs.Arena.WellFormed
import Midend.Proofs.Arena.Write
import Midend.Proofs.Arena.Written
import Midend.Proofs.Demand.Bound
import Midend.Proofs.Demand.Calls
import Midend.Proofs.Demand.Charged
import Midend.Proofs.Demand.Cuts
import Midend.Proofs.Demand.Flowing
import Midend.Proofs.Demand.Least
import Midend.Proofs.Demand.Mapped
import Midend.Proofs.Demand.Needed
import Midend.Proofs.Demand.Origins
import Midend.Proofs.Demand.Parts
import Midend.Proofs.Demand.Placeholders
import Midend.Proofs.Demand.Private
import Midend.Proofs.Demand.Recorded
import Midend.Proofs.Demand.Resolved
import Midend.Proofs.Demand.Routes
import Midend.Proofs.Demand.Targets
import Midend.Proofs.Demand.Turns
import Midend.Proofs.Demand.Unresolved
import Midend.Proofs.Demand.Widened
import Midend.Proofs.Eval.Fragment
import Midend.Proofs.Eval.Kept
import Midend.Proofs.Eval.Strict
import Midend.Proofs.Live.Agrees
import Midend.Proofs.Live.Reached
import Midend.Proofs.Live.Uses
import Midend.Proofs.Merge.Absorbed
import Midend.Proofs.Merge.Canonical
import Midend.Proofs.Merge.Classes
import Midend.Proofs.Merge.Layers
import Midend.Proofs.Merge.Ranked
import Midend.Proofs.Merge.Sound
import Midend.Proofs.Merge.Steps
import Midend.Proofs.Merge.Twins
import Midend.Proofs.Merge.Unfolding
import Midend.Proofs.Optimize.Acyclic
import Midend.Proofs.Optimize.Again
import Midend.Proofs.Optimize.Converges
import Midend.Proofs.Optimize.Cutting
import Midend.Proofs.Optimize.Descends
import Midend.Proofs.Optimize.Merging
import Midend.Proofs.Optimize.Once
import Midend.Proofs.Optimize.Quiet
import Midend.Proofs.Optimize.Rerun
import Midend.Proofs.Optimize.Success
import Midend.Proofs.OrderedMap
import Midend.Proofs.Program.Accepted
import Midend.Proofs.Program.Declared
import Midend.Proofs.Program.Formed
import Midend.Proofs.Program.Given
import Midend.Proofs.Program.Loaded
import Midend.Proofs.Program.Names
import Midend.Proofs.Program.Valid
import Midend.Proofs.Program.WellFormed
import Midend.Proofs.Store.Built
import Midend.Proofs.Store.Calls
import Midend.Proofs.Store.Closed
import Midend.Proofs.Store.Exact
import Midend.Proofs.Store.Listed
import Midend.Proofs.Store.Liveness
import Midend.Proofs.Store.Redirect
import Midend.Proofs.Store.Roots
import Midend.Proofs.Store.Run
import Midend.Proofs.Store.Settled
