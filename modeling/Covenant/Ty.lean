/-! The types of the contract language, and when two of them agree. -/

namespace Covenant

/-- `error` stands for an expression that was already reported. `hole` is the element type of an
empty array, of `None` and of `Err(..)` until the context settles it. -/
inductive Ty where
  | integer
  | mana
  | boolean
  | string
  | did
  | void
  | error
  | hole
  | array (element : Ty)
  | option (inner : Ty)
  | result (inner : Ty)
  | record (name : String)
  | enum (name : String)
  deriving DecidableEq, Repr, Inhabited

namespace Ty

/-- A type as messages show it: records and enums by their name alone. -/
def text : Ty → String
  | integer => "Integer"
  | mana => "Mana"
  | boolean => "Boolean"
  | string => "String"
  | did => "Did"
  | void => "Void"
  | error => "Error"
  | hole => "?"
  | array t => "Array<" ++ t.text ++ ">"
  | option t => "Option<" ++ t.text ++ ">"
  | result t => "Result<" ++ t.text ++ ">"
  | record n => n
  | enum n => n

def isNumeric : Ty → Bool
  | integer | mana => true
  | _ => false

/-- Types whose values `==` compares. -/
def isScalar : Ty → Bool
  | integer | mana | boolean | string | did | enum _ => true
  | _ => false

/-- Types whose values are addresses in linear memory. -/
def isReference : Ty → Bool
  | string | did | array _ | option _ | result _ | record _ => true
  | _ => false

def isEnum : Ty → Bool
  | enum _ => true
  | _ => false

def hasHole : Ty → Bool
  | hole => true
  | array t | option t | result t => t.hasHole
  | _ => false

def isOpen : Ty → Bool
  | error | hole => true
  | array t | option t | result t => t.isOpen
  | _ => false

def ofName? : String → Option Ty
  | "Integer" | "Int" => some integer
  | "Boolean" | "Bool" => some boolean
  | "String" => some string
  | "Mana" => some mana
  | "Did" => some did
  | _ => none

/-- Whether a value of the second type may stand where the first is declared. -/
def compatible : Ty → Ty → Bool
  | error, _ | hole, _ | _, error | _, hole => true
  | array s, array t => compatible s t
  | option s, option t => compatible s t
  | result s, result t => compatible s t
  | s, t => s = t || (s.isNumeric && t.isNumeric)

/-- The common type of two compatible ones, each filling the other's holes. -/
def unify : Ty → Ty → Option Ty
  | error, _ | _, error => some error
  | hole, t => some t
  | t, hole => some t
  | array s, array t => (unify s t).map array
  | option s, option t => (unify s t).map option
  | result s, result t => (unify s t).map result
  | s, t => if s = t || (s.isNumeric && t.isNumeric) then some s else none

theorem compatible_error_right (t : Ty) : compatible t error = true := by
  cases t <;> rfl

theorem compatible_hole_right (t : Ty) : compatible t hole = true := by
  cases t <;> rfl

theorem unify_isSome (s t : Ty) : (unify s t).isSome = compatible s t := by
  fun_induction unify s t <;>
    simp_all [compatible, compatible_error_right, compatible_hole_right]

end Ty

end Covenant
