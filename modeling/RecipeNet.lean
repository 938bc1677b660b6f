import RecipeNet.Main
import RecipeNet.Plan.Misfit
import RecipeNet.Proofs.Snapshot.Pausing
import RecipeNet.Proofs.Snapshot.Restoring
import RecipeNet.Proofs.Reachable
import RecipeNet.Proofs.Safety
import RecipeNet.Proofs.Invisibility
import RecipeNet.Proofs.Net.Marking
import RecipeNet.Proofs.Refinement
import RecipeNet.Proofs.Net.Renaming
import RecipeNet.Proofs.Snapshot.Accepting
import RecipeNet.Proofs.Net.Chronicle
import RecipeNet.Proofs.Net.Worth
import RecipeNet.Proofs.History
import RecipeNet.Proofs.Sharing
import RecipeNet.Proofs.Recovery
import RecipeNet.Proofs.Net.Seats
import RecipeNet.Proofs.Presence
import RecipeNet.Proofs.Attention
import RecipeNet.Proofs.Settling
import RecipeNet.Proofs.Deciding
import RecipeNet.Proofs.Net.Equivariance
import RecipeNet.Proofs.Net.Drawing
import RecipeNet.Proofs.Sessions
import RecipeNet.Proofs.Restored
import RecipeNet.Proofs.Net.Tending
import RecipeNet.Proofs.Rest
import RecipeNet.Proofs.Lifecycle
import RecipeNet.Proofs.Failing
import RecipeNet.Proofs.Conclusion
import RecipeNet.Proofs.Payload
import RecipeNet.Proofs.Net.Awaiting
import RecipeNet.Proofs.Addressing
import RecipeNet.Proofs.Net.Fuel
import RecipeNet.Proofs.Asks
import RecipeNet.Proofs.Plan.Wrapping
import RecipeNet.Proofs.Wrapped
import RecipeNet.Proofs.Snapshot.File
import RecipeNet.Proofs.Transparency
import RecipeNet.Proofs.Faithful
import RecipeNet.Proofs.Pairing
import RecipeNet.Proofs.Turns
import RecipeNet.Proofs.Losses
import RecipeNet.Proofs.Refusing
import RecipeNet.Proofs.Naming
import RecipeNet.Proofs.Counting
import RecipeNet.Proofs.Plan.Saving
import RecipeNet.Proofs.Interruption
import RecipeNet.Proofs.Plan.WellFormed
import RecipeNet.Proofs.Gathering
import RecipeNet.Proofs.Plan.Acyclic
import RecipeNet.Proofs.Termination
import RecipeNet.Proofs.Fanning
import RecipeNet.Proofs.Net.Atomicity
import RecipeNet.Proofs.Decimal.Rounding
