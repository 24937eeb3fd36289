import Covenant.Text.Position
import Covenant.Ty

/-! Why a program has no module. A checked program can only have too many string literals or one that is too
long, or look for an item that has no equality. -/

namespace Covenant.Lower

inductive Jump where
  | leave
  | next
  deriving DecidableEq, Repr

def Jump.text : Jump → String
  | leave => "BreakStmt"
  | next => "ContinueStmt"

/-- What a program may lack that checking would have added. -/
inductive Gap where
  | type
  | slot
  | record
  | enum
  | field
  | recordFields
  | operand
  | function
  | routine
  deriving DecidableEq, Repr

inductive Fault where
  | noEntryPoint (name : String)
  | dataTooLarge (pages limit : Nat)
  | jumpOutside (jump : Jump) (pos : Pos)
  | assignTarget (pos : Pos)
  | unresolvedTarget (name : String) (pos : Pos)
  | unresolvedName (name : String) (pos : Pos)
  | unresolvedVariant (owner variant : String) (pos : Pos)
  | unresolvedCall (name : String) (pos : Pos)
  | unresolvedMethod (pos : Pos)
  | noConstant (name : String)
  | noField (record field : String)
  | noEquality (type : Ty)
  | textTooLong
  | gap (gap : Gap)
  deriving DecidableEq, Repr

def Fault.message? : Fault → Option String
  | noEntryPoint n => some ("no '" ++ n ++ "' function to export")
  | dataTooLarge p l => some s!"string data needs {p} pages, more than the {l} allowed"
  | jumpOutside j p => some (j.text ++ " outside of a loop at " ++ p.text)
  | assignTarget p => some ("cannot assign at " ++ p.text)
  | unresolvedTarget n p => some ("assignment to unresolved '" ++ n ++ "' at " ++ p.text)
  | unresolvedName n p => some ("unresolved name '" ++ n ++ "' at " ++ p.text)
  | unresolvedVariant o v p => some ("unresolved variant '" ++ o ++ "::" ++ v ++ "' at " ++ p.text)
  | unresolvedCall n p => some ("unresolved call to '" ++ n ++ "' at " ++ p.text)
  | unresolvedMethod p => some ("unknown built-in 'None' at " ++ p.text)
  | noConstant n => some ("constant '" ++ n ++ "' has no value")
  | noField r f => some ("'" ++ r ++ "' has no field '" ++ f ++ "'")
  | noEquality t => some ("no equality for " ++ t.text)
  | textTooLong | gap _ => none

end Covenant.Lower
