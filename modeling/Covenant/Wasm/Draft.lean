import Covenant.Wasm.Module

/-! Modules that are put together from any whole numbers. Only a draft whose numbers are in range is a
module. -/

namespace Covenant.Wasm

/-- Why a draft has no binary form: a routine has no number, a number is negative, or one is no byte. -/
inductive DraftFault where
  | unnumbered (routine : String)
  | negative
  | byte
  deriving DecidableEq, Repr

structure DraftFunction where
  type : Int
  locals : List ValType
  code : Code
  deriving DecidableEq, Repr

/-- `imports` are modules, names and types; `exports` are names, kinds and indices. -/
structure Draft where
  types : List FuncType
  imports : List (String × String × Int)
  functions : List DraftFunction
  memory : Option (Int × Int)
  globals : List Global
  exports : List (String × Int × Int)
  segments : List Segment
  deriving DecidableEq, Repr

namespace Draft

def empty : Draft := ⟨[], [], [], none, [], [], []⟩

def typeIndex (d : Draft) (t : FuncType) : Draft × Nat :=
  let (types, i) := t.indexIn d.types
  ({ d with types }, i)

/-- A function by its place; a negative place counts from the end. -/
def function? (d : Draft) (i : Int) : Option DraftFunction :=
  if 0 ≤ i then d.functions[i.toNat]?
  else if d.functions.length + i < 0 then none
  else d.functions[(d.functions.length + i).toNat]?

def natural (n : Int) : Except DraftFault Nat :=
  if n < 0 then .error .negative else .ok n.toNat

def byte (n : Int) : Except DraftFault UInt8 :=
  if 0 ≤ n ∧ n < 256 then .ok n.toNat.toUInt8 else .error .byte

/-- The module of a draft. Faults are found in the order of the binary form. -/
def module (d : Draft) : Except DraftFault Module := do
  let imports ← d.imports.mapM fun (m, n, t) => do return (⟨m, n, ← natural t⟩ : Import)
  let functions ← d.functions.mapM fun f => do
    return (⟨← natural f.type, f.locals, f.code⟩ : Function)
  let memory ← d.memory.mapM fun (a, b) => do return (⟨← natural a, ← natural b⟩ : Limits)
  let exports ← d.exports.mapM fun (n, k, i) => do return (⟨n, ← byte k, ← natural i⟩ : Export)
  return ⟨d.types, imports, functions, memory, d.globals, exports, d.segments⟩

/-- The first fault in the numbers of the routines that are called. -/
def checkNumbers (number : String → Option Int) (code : Code) : Except DraftFault Unit :=
  (Code.routines code).forM fun n =>
    match number n with
    | none => .error (.unnumbered n)
    | some i => (natural i).map fun _ => ()

def naturals (number : String → Option Int) (name : String) : Option Nat :=
  (number name).map Int.toNat

def bodyBytes (number : String → Option Int) (f : DraftFunction) : Except DraftFault (List UInt8) := do
  checkNumbers number f.code
  return (Function.bytes? (naturals number) ⟨0, f.locals, f.code⟩).getD []

def bytes (number : String → Option Int) (d : Draft) : Except DraftFault (List UInt8) := do
  let m ← d.module
  m.functions.forM fun f => checkNumbers number f.code
  return (m.bytes? (naturals number)).getD []

end Draft

end Covenant.Wasm
