import Covenant.Guard.Solver
import Covenant.Memory.Pool
import Covenant.Options.Source
import Covenant.Options.Manifest
import Covenant.Proofs.Compile.Failures
import Covenant.Proofs.Flow.Returns
import Covenant.Proofs.Lower.Immediates
import Covenant.Proofs.Lower.Linking
import Covenant.Proofs.Lower.Ranges
import Covenant.Proofs.Machine.Strings
import Covenant.Proofs.Matching.Arms
import Covenant.Proofs.Memory.Interning
import Covenant.Proofs.Mistakes.Program
import Covenant.Proofs.Optimizer.Annotations
import Covenant.Proofs.Optimizer.Branches
import Covenant.Proofs.Optimizer.Translation
import Covenant.Proofs.Ordering.Program
import Covenant.Proofs.Reading.Literals
import Covenant.Proofs.Renaming.Compile
import Covenant.Proofs.Scalar.Function
import Covenant.Proofs.Scoping.Frames
import Covenant.Proofs.Scoping.Hiding
import Covenant.Proofs.Scoping.Holes
import Covenant.Proofs.Typing.Common
import Covenant.Proofs.Wasm.Canonical
import Covenant.Proofs.Wasm.Truncation
import Covenant.Wasm.Draft
