import Covenant.Operator

/-! Constants and their arithmetic. An integer is a 64-bit two's complement word: sums, differences
and products wrap around, a quotient goes toward zero and a remainder has the sign of the dividend.
What would trap when run has no folded value. -/

namespace Covenant

def wordSize : Nat := 0x10000000000000000

def minWord : Int := -0x8000000000000000

def maxWord : Int := 0x7FFFFFFFFFFFFFFF

/-- The representative of a number modulo `wordSize` that is nearest to zero, the negative one of
two. -/
def wrapWord (n : Int) : Int := n.bmod wordSize

def inWordRange (n : Int) : Bool := minWord ≤ n && n ≤ maxWord

def quotient? (a b : Int) : Option Int :=
  if b = 0 then none else some (a.tdiv b)

def remainder? (a b : Int) : Option Int :=
  if b = 0 then none else some (a.tmod b)

inductive Value where
  | int (n : Int)
  | bool (b : Bool)
  | text (s : String)
  deriving DecidableEq, Repr, Inhabited

namespace Value

def foldUnary : UnaryOp → Value → Option Value
  | .neg, int n => some (int (wrapWord (-n)))
  | .not, bool b => some (bool !b)
  | _, _ => none

def foldInt : BinaryOp → Int → Int → Option Value
  | .add, a, b => some (int (wrapWord (a + b)))
  | .sub, a, b => some (int (wrapWord (a - b)))
  | .mul, a, b => some (int (wrapWord (a * b)))
  | .div, a, b =>
    if a = minWord ∧ b = -1 then none else (quotient? a b).map int
  | .rem, a, b => (remainder? a b).map int
  | .lt, a, b => some (bool (a < b))
  | .gt, a, b => some (bool (a > b))
  | .le, a, b => some (bool (a ≤ b))
  | .ge, a, b => some (bool (a ≥ b))
  | .eq, a, b => some (bool (a = b))
  | .ne, a, b => some (bool (a ≠ b))
  | _, _, _ => none

def foldBool : BinaryOp → Bool → Bool → Option Value
  | .and, a, b => some (bool (a && b))
  | .or, a, b => some (bool (a || b))
  | .eq, a, b => some (bool (a = b))
  | .ne, a, b => some (bool (a ≠ b))
  | _, _, _ => none

def foldText : BinaryOp → String → String → Option Value
  | .concat, a, b => some (text (a ++ b))
  | .eq, a, b => some (bool (a = b))
  | .ne, a, b => some (bool (a ≠ b))
  | _, _, _ => none

def foldBinary : BinaryOp → Value → Value → Option Value
  | op, int a, int b => foldInt op a b
  | op, bool a, bool b => foldBool op a b
  | op, text a, text b => foldText op a b
  | _, _, _ => none

/-- The value of an operator on operands that may be missing. Two missing ones are equal. -/
def foldMissing : BinaryOp → Option Value → Option Value → Option Value
  | op, some a, some b => foldBinary op a b
  | .eq, none, none => some (bool true)
  | .ne, none, none => some (bool false)
  | _, _, _ => none

end Value

end Covenant
