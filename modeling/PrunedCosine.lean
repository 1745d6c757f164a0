import PrunedCosine.Main
import PrunedCosine.Proofs.Memo
import PrunedCosine.Proofs.Listing
import PrunedCosine.Proofs.Layer
import PrunedCosine.Proofs.Liveness
import PrunedCosine.Proofs.Pruning
import PrunedCosine.Proofs.Execution
import PrunedCosine.Proofs.Defect
import PrunedCosine.Proofs.Soundness
import PrunedCosine.Proofs.Truncation
import PrunedCosine.Proofs.Cosine
import PrunedCosine.Proofs.Exact
import PrunedCosine.Proofs.Transform
import PrunedCosine.Proofs.Checked
import PrunedCosine.Proofs.History
import PrunedCosine.Proofs.Placement
import PrunedCosine.Proofs.RoutineRun
import PrunedCosine.Proofs.FirstRead
import PrunedCosine.Proofs.Removal
import PrunedCosine.Proofs.Word
import PrunedCosine.Proofs.Guarded
import PrunedCosine.Proofs.Reader
import PrunedCosine.Proofs.ReadBack
import PrunedCosine.Proofs.Frame
import PrunedCosine.Proofs.Confinement
import PrunedCosine.Proofs.Independence
import PrunedCosine.Proofs.UsedScales
import PrunedCosine.Proofs.ScaleLayout
import PrunedCosine.Proofs.LiveInputs
import PrunedCosine.Proofs.Cost
import PrunedCosine.Proofs.FiniteSet
import PrunedCosine.Proofs.Constants
import PrunedCosine.Proofs.Declaration
import PrunedCosine.Proofs.Coverage
import PrunedCosine.Proofs.Delivery
import PrunedCosine.Proofs.Growth
import PrunedCosine.Proofs.Homomorphism
import PrunedCosine.Proofs.Tolerance
import PrunedCosine.Proofs.Orthonormal
import PrunedCosine.Proofs.Accounts
import PrunedCosine.Proofs.Interleave
