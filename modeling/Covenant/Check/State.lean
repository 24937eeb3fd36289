import Covenant.Scope
import Covenant.Syntax.Basic

/-! The state of checking. Problems and warnings are only ever added, so checking goes on after each
of them. -/

namespace Covenant

/-- What to do with a declaration that hides an outer one. -/
inductive Policy where
  | warn
  | error
  | allow
  deriving DecidableEq, Repr

namespace Check

structure Signature where
  name : String
  params : List Ty
  result : Option Ty
  deriving DecidableEq, Repr

structure Current where
  name : String
  result : Option Ty
  deriving DecidableEq, Repr

structure Env where
  policy : Policy
  functions : List Signature
  records : List RecordDecl
  enums : List EnumDecl
  current : Option Current

namespace Env

def function? (env : Env) (name : String) : Option Signature :=
  env.functions.find? (·.name = name)

def record? (env : Env) (name : String) : Option RecordDecl :=
  env.records.find? (·.name = name)

def enum? (env : Env) (name : String) : Option EnumDecl :=
  env.enums.find? (·.name = name)

/-- A declared type with enum names told apart from record names, or the name that is neither. -/
def resolve (env : Env) : Ty → Except String Ty
  | .record n =>
    if (env.enum? n).isSome then .ok (.enum n)
    else if (env.record? n).isSome then .ok (.record n)
    else .error n
  | .array t => (env.resolve t).map .array
  | .option t => (env.resolve t).map .option
  | .result t => (env.resolve t).map .result
  | t => .ok t

end Env

/-- `loops` tells for each enclosing loop, the innermost first, whether a `break` leaves it.
`strayReturn` tells that a `return` stood outside of any function. -/
structure State where
  scope : Scope
  errors : List Diagnostic
  warnings : List Warning
  loops : List Bool
  strayReturn : Bool

def State.initial : State := ⟨.empty, [], [], [], false⟩

abbrev Checking := StateM State

/-- Records a problem; the expression at fault has the type `error`. -/
def report (problem : Problem) (pos : Pos) : Checking Ty := do
  modify fun s => { s with errors := s.errors ++ [⟨problem, pos⟩] }
  return .error

def reportIf (bad : Bool) (problem : Problem) (pos : Pos) : Checking Unit := do
  if bad then
    let _ ← report problem pos

def warn (caution : Caution) (pos : Pos) : Checking Unit :=
  modify fun s => { s with warnings := s.warnings ++ [⟨caution, pos⟩] }

def pushFrame (nested : Bool) : Checking Unit :=
  modify fun s => { s with scope := s.scope.push nested }

def popFrame : Checking Unit :=
  modify fun s => { s with scope := s.scope.pop }

def inFrame {α : Type} (nested : Bool) (body : Checking α) : Checking α := do
  pushFrame nested
  let a ← body
  popFrame
  return a

def lookup (name : String) : Checking (Option Symbol) := do
  return (← get).scope.get? name

def declare (name : String) (type : Ty) (kind : SymbolKind) (isMutable : Bool) : Checking Symbol := do
  let s ← get
  let (symbol, scope) := s.scope.declare name type kind isMutable
  set { s with scope }
  return symbol

/-- Runs a check inside a loop, and tells whether a `break` leaves that loop. -/
def inLoop {α : Type} (body : Checking α) : Checking (α × Bool) := do
  modify fun s => { s with loops := false :: s.loops }
  let a ← body
  let left := (← get).loops.headD false
  modify fun s => { s with loops := s.loops.tail }
  return (a, left)

def resolveType (env : Env) (t : Ty) (pos : Pos) : Checking Ty :=
  match env.resolve t with
  | .ok t => return t
  | .error n => report (.unknownType n) pos

/-- A declaration in the frame of a nested body that hides a variable of the function or a
constant. -/
def reportHiding (env : Env) (word : Keyword) (name : String) (pos : Pos) : Checking Unit := do
  let scope := (← get).scope
  if scope.inNestedBody && ((scope.getOuter? name).isSome || (scope.findGlobal? name).isSome) then
    match env.policy with
    | .allow => return
    | .warn => warn (.hides word name) pos
    | .error => let _ ← report (.hides word name) pos

end Check

end Covenant
