import Covenant.Ty

/-! Operators, their spelling, and the type of what they yield. -/

namespace Covenant

inductive UnaryOp where
  | neg
  | not
  deriving DecidableEq, Repr

inductive BinaryOp where
  | add
  | sub
  | mul
  | div
  | rem
  | concat
  | lt
  | gt
  | le
  | ge
  | eq
  | ne
  | and
  | or
  deriving DecidableEq, Repr

namespace UnaryOp

def text : UnaryOp → String
  | neg => "-"
  | not => "!"

def ofText? : String → Option UnaryOp
  | "-" => some neg
  | "!" => some not
  | _ => none

theorem ofText?_text (op : UnaryOp) : ofText? op.text = some op := by
  cases op <;> rfl

/-- The type of an operator applied to an operand; `none` if it does not apply. -/
def type? (op : UnaryOp) (t : Ty) : Option Ty :=
  if t = .error then some .error
  else match op with
    | neg => if t.isNumeric then some t else none
    | not => if t = .boolean then some .boolean else none

end UnaryOp

namespace BinaryOp

def text : BinaryOp → String
  | add => "+"
  | sub => "-"
  | mul => "*"
  | div => "/"
  | rem => "%"
  | concat => "++"
  | lt => "<"
  | gt => ">"
  | le => "<="
  | ge => ">="
  | eq => "=="
  | ne => "!="
  | and => "&&"
  | or => "||"

def ofText? : String → Option BinaryOp
  | "+" => some add
  | "-" => some sub
  | "*" => some mul
  | "/" => some div
  | "%" => some rem
  | "++" => some concat
  | "<" => some lt
  | ">" => some gt
  | "<=" => some le
  | ">=" => some ge
  | "==" => some eq
  | "!=" => some ne
  | "&&" => some and
  | "||" => some or
  | _ => none

theorem ofText?_text (op : BinaryOp) : ofText? op.text = some op := by
  cases op <;> rfl

/-- The type of an operator applied to two operands; `none` if it does not apply. Arithmetic
yields `Mana` as soon as one side is `Mana`. -/
def type? (op : BinaryOp) (s t : Ty) : Option Ty :=
  if s = .error || t = .error then some .error
  else match op with
    | add | sub | mul | div | rem =>
      if s.isNumeric && t.isNumeric then
        some (if s = .mana || t = .mana then .mana else .integer)
      else none
    | concat => if s = .string && t = .string then some .string else none
    | lt | gt | le | ge => if s.isNumeric && t.isNumeric then some .boolean else none
    | eq | ne =>
      if s.isScalar && t.isScalar && s.compatible t then some .boolean else none
    | and | or => if s = .boolean && t = .boolean then some .boolean else none

end BinaryOp

/-- As `UnaryOp.type?`, for an operator given by its spelling. A spelling of no operator applies
only to what was already reported. -/
def Ty.applyUnary (op : String) (t : Ty) : Option Ty :=
  match UnaryOp.ofText? op with
  | some o => o.type? t
  | none => if t = .error then some .error else none

/-- As `BinaryOp.type?`, for an operator given by its spelling. -/
def Ty.applyBinary (op : String) (s t : Ty) : Option Ty :=
  match BinaryOp.ofText? op with
  | some o => o.type? s t
  | none => if s = .error || t = .error then some .error else none

end Covenant
