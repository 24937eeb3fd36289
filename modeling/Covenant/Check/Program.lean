import Covenant.Check.Body
import Covenant.Check.Declare
import Covenant.Fold

/-! Checking whole programs: declarations, then constants in order, then functions, then the entry
point. -/

namespace Covenant

def entryPoint : String := "run"

namespace Check

def constantValue? (s : State) (name : String) : Option Value :=
  (s.scope.findGlobal? name).bind (·.value)

def initializer (env : Env) (c : ConstDecl) (declared : Ty) : Checking ConstDecl := do
  let (e, t) ← inFrame false (needValue c.value.pos (expr env c.value))
  reportIf (!declared.compatible t) (.constantType c.name declared t) c.pos
  let value := e.constant? (constantValue? (← get))
  reportIf (value.isNone && t ≠ .error) (.notConstant c.name) c.pos
  modify fun s => { s with
    scope := s.scope.registerGlobal ⟨c.name, declared, false, .constant, none, value⟩ }
  return { c with type := declared, value := e }

def constant (env : Env) (c : ConstDecl) : Checking ConstDecl := do
  if ((← get).scope.findGlobal? c.name).isSome then
    reportIf true (.constantRedefined c.name) c.pos
    return c
  else
    let declared ← resolveType env c.type c.pos
    modify fun s => { s with scope := s.scope.beginFunction }
    initializer env c declared

/-- Declares the parameters in order; a repeated name is reported and declared all the same. -/
def declareParams (function : String) : List Param → Checking Unit
  | [] => return
  | p :: ps => do
    let known := ((← get).scope.frames.head?.bind (·.find? p.name)).isSome
    reportIf known (.parameterRepeated p.name function) p.pos
    let _ ← declare p.name p.type .param true
    declareParams function ps

def functionBody (env : Env) (f : FunctionDecl) : Checking FunctionDecl := do
  let env := { env with current := some ⟨f.name, f.result⟩ }
  pushFrame false
  declareParams f.name f.params
  let (ss, ends) ← stmts env false false f.body.statements
  match f.result with
  | some t => reportIf (!ends) (.missingReturn f.name t) f.pos
  | none => pure ()
  let slots := (← get).scope.slots
  popFrame
  return { f with body := .mk f.body.pos ss, slots }

def function (env : Env) (f : FunctionDecl) : Checking FunctionDecl := do
  modify fun s => { s with scope := s.scope.beginFunction }
  functionBody env f

def constants (env : Env) : List Item → Checking (List Item)
  | [] => return []
  | .constant c :: is => do
    let c' ← constant env c
    return .constant c' :: (← constants env is)
  | i :: is => return i :: (← constants env is)

/-- Puts the resolved declarations in place and checks function bodies. The accepted declarations are
in source order with distinct names, so an item is accepted iff it has the name of the next one; a
refused item stays as it is. -/
def functions (env : Env) (d : Declared) : List Item → Checking (List Item)
  | [] => return []
  | .function f :: is =>
    match d.functions with
    | g :: rest =>
      if g.name = f.name then do
        let g' ← function env g
        return .function g' :: (← functions env { d with functions := rest } is)
      else do
        return .function f :: (← functions env d is)
    | [] => return .function f :: (← functions env d is)
  | .record r :: is =>
    match d.records with
    | s :: rest =>
      if s.name = r.name then
        return .record s :: (← functions env { d with records := rest } is)
      else return .record r :: (← functions env d is)
    | [] => return .record r :: (← functions env d is)
  | i :: is => return i :: (← functions env d is)

def checkEntryParams : List Param → Checking Unit
  | [] => return
  | p :: ps => do
    reportIf (!(p.type.isScalar || p.type = .error)) (.entryParameter p.name p.type) p.pos
    checkEntryParams ps

def checkEntry (d : Declared) (pos : Pos) : Checking Unit :=
  match d.functions.find? (·.name = entryPoint) with
  | none => reportIf true .noEntryPoint pos
  | some f => do
    let fits := f.result.any fun t => t.isScalar || t = .error
    reportIf (!fits) (.entryResult (f.result.getD .void)) f.pos
    checkEntryParams f.params

def program (policy : Policy) (p : Program) : Checking Program := do
  let (env, d) ← collect policy p.items
  let items ← constants env p.items
  let items ← functions env d items
  checkEntry d p.pos
  return { p with items }

end Check

/-- A checked program with all that was found. A `return` outside of any function leaves checking
without an answer. -/
structure Checked where
  program : Program
  errors : List Diagnostic
  warnings : List Warning
  strayReturn : Bool

def Program.check (policy : Policy) (p : Program) : Checked :=
  let (p, s) := (Check.program policy p).run .initial
  ⟨p, s.errors, s.warnings, s.strayReturn⟩

def Checked.accepted (c : Checked) : Bool :=
  c.errors.isEmpty && !c.strayReturn

end Covenant
