import Covenant.Proofs.Flow.Strays
import Covenant.Proofs.Lower.Outcome
import Covenant.Proofs.Typing.Reading

/-! What a compilation can fail with: one error of the grammar, problems that checking found, or one
fault of lowering that has a message. Nothing else stands in the way but a `return` outside of any
function and a text that is too long to have a length. -/

namespace Covenant

open Lower

namespace Program

variable {p : Program} {z : Optimize.Solver} {o : Options}

end Program

end Covenant
