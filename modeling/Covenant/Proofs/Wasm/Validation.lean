import Covenant.Wasm.Module

/-! Validation of function bodies, by the algorithm of the WebAssembly specification. It goes through
the instructions once, with a stack of operand types and a stack of frames for the constructs that are
open. After an instruction that never goes on, operands of any type can be taken from the stack. -/

namespace Covenant.Wasm

/-- What the instructions of a function may refer to. Functions are numbered after the imports, and
locals after the parameters. -/
structure BodyScope where
  functions : List FuncType
  locals : List ValType
  globals : List Global
  hasMemory : Bool
  results : List ValType

def NumOp.type : NumOp → FuncType
  | i32Eqz => ⟨[.i32], [.i32]⟩
  | i32Eq | i32Ne | i32LtU | i32GtU | i32GeU => ⟨[.i32, .i32], [.i32]⟩
  | i64Eqz => ⟨[.i64], [.i32]⟩
  | i64Eq | i64Ne | i64LtS | i64GtS | i64LeS | i64GeS | i64GeU => ⟨[.i64, .i64], [.i32]⟩
  | i32Add | i32Sub | i32Mul | i32And | i32Shl | i32ShrU => ⟨[.i32, .i32], [.i32]⟩
  | i64Add | i64Sub | i64Mul | i64DivS | i64RemS => ⟨[.i64, .i64], [.i64]⟩
  | i32WrapI64 => ⟨[.i64], [.i32]⟩
  | i64ExtendI32U => ⟨[.i32], [.i64]⟩

/-- What an instruction takes from the stack and leaves there, if it is not one that jumps or takes a
value of any type. -/
def Op.type? (E : BodyScope) : Op → Option FuncType
  | call i => E.functions[i]?
  | localGet i => E.locals[i]?.map fun t => ⟨[], [t]⟩
  | localSet i => E.locals[i]?.map fun t => ⟨[t], []⟩
  | localTee i => E.locals[i]?.map fun t => ⟨[t], [t]⟩
  | globalGet i => E.globals[i]?.map fun g => ⟨[], [g.type]⟩
  | globalSet i => (E.globals[i]?.filter (·.isMutable)).map fun g => ⟨[g.type], []⟩
  | i32Load _ | i32Load8U _ => if E.hasMemory then some ⟨[.i32], [.i32]⟩ else none
  | i64Load _ => if E.hasMemory then some ⟨[.i32], [.i64]⟩ else none
  | i32Store _ | i32Store8 _ => if E.hasMemory then some ⟨[.i32, .i32], []⟩ else none
  | i64Store _ => if E.hasMemory then some ⟨[.i32, .i64], []⟩ else none
  | memorySize => if E.hasMemory then some ⟨[], [.i32]⟩ else none
  | memoryGrow => if E.hasMemory then some ⟨[.i32], [.i32]⟩ else none
  | i32Const _ => some ⟨[], [.i32]⟩
  | i64Const _ => some ⟨[], [.i64]⟩
  | num o => some o.type
  | unreachable | br _ | brIf _ | ret | drop => none

namespace Validation

/-- An open construct; the body of the function is one without an opener. `label` is what a jump to it
takes, and `height` the number of operands that are not its own. -/
structure Frame where
  opener : Option Opener
  label : List ValType
  results : List ValType
  height : Nat
  isDead : Bool
  deriving DecidableEq, Repr

/-- Operands with the last one first, and frames with the innermost first. -/
structure State where
  operands : List ValType
  frames : List Frame
  deriving DecidableEq, Repr

def popIf (fits : ValType → Bool) (s : State) : Option State :=
  match s.frames with
  | [] => none
  | f :: _ =>
    if s.operands.length = f.height then if f.isDead then some s else none
    else match s.operands with
      | [] => none
      | t :: ts => if fits t then some { s with operands := ts } else none

def pop (t : ValType) (s : State) : Option State := popIf (· = t) s

def pops : List ValType → State → Option State
  | [], s => some s
  | t :: ts, s => (pops ts s).bind (pop t)

def push (ts : List ValType) (s : State) : State :=
  { s with operands := ts.reverse ++ s.operands }

def stop (s : State) : Option State :=
  match s.frames with
  | [] => none
  | f :: fs => some
    ⟨s.operands.drop (s.operands.length - f.height), { f with isDead := true } :: fs⟩

def enter (opener : Opener) (label results : List ValType) (s : State) : State :=
  { s with frames := ⟨some opener, label, results, s.operands.length, false⟩ :: s.frames }

def leave (s : State) : Option (Frame × State) :=
  match s.frames with
  | [] => none
  | f :: fs =>
    match pops f.results s with
    | none => none
    | some s => if s.operands.length = f.height then some (f, ⟨s.operands, fs⟩) else none

def apply (t : FuncType) (s : State) : Option State :=
  (pops t.params s).map (push t.results)

def op (E : BodyScope) : Op → State → Option State
  | .unreachable, s => stop s
  | .br n, s => s.frames[n]?.bind fun f => (pops f.label s).bind stop
  | .brIf n, s => (pop .i32 s).bind fun s => s.frames[n]?.bind fun f => apply ⟨f.label, f.label⟩ s
  | .ret, s => (pops E.results s).bind stop
  | .drop, s => popIf (fun _ => true) s
  | o, s => (o.type? E).bind fun t => apply t s

/-- An `if` without `else` leaves nothing. -/
def step (E : BodyScope) (number : String → Option Nat) : Piece → State → Option State
  | .op o, s => op E o s
  | .start .block t, s => some (enter .block t.toList t.toList s)
  | .start .loop t, s => some (enter .loop [] t.toList s)
  | .start .cond t, s => (pop .i32 s).map (enter .cond t.toList t.toList)
  | .otherwise, s => (leave s).bind fun (f, s) =>
    if f.opener = some .cond then some (enter .block f.label f.results s) else none
  | .finish, s => (leave s).bind fun (f, s) =>
    if f.opener = some .cond ∧ f.results ≠ [] then none else some (push f.results s)
  | .routine n, s => (number n).bind fun i => op E (.call i) s
  | .raw _, _ => none

def steps (E : BodyScope) (number : String → Option Nat) : Code → State → Option State
  | [], s => some s
  | p :: ps, s => (step E number p s).bind (steps E number ps)

end Validation

def Code.isValid (E : BodyScope) (number : String → Option Nat) (code : Code) : Bool :=
  (Validation.steps E number (code ++ [.finish])
    ⟨[], [⟨none, E.results, E.results, 0, false⟩]⟩).any (·.frames.isEmpty)

namespace Module

def functionTypes? (m : Module) : Option (List FuncType) :=
  (m.imports.map (·.type) ++ m.functions.map (·.type)).mapM (m.types[·]?)

def isValidBody (m : Module) (number : String → Option Nat) (f : Function) : Bool :=
  match m.functionTypes?, m.types[f.type]? with
  | some types, some t =>
    f.code.isValid ⟨types, t.params ++ f.locals, m.globals, m.memory.isSome, t.results⟩ number
  | _, _ => false

end Module

end Covenant.Wasm
