import Covenant.Wasm.Module

/-! Code with its nesting: a block, a loop or a branch holds the code inside it. -/

namespace Covenant.Lower

open Wasm

inductive Routine where
  | alloc
  | concat
  | equal
  deriving DecidableEq, Repr

namespace Routine

def name : Routine → String
  | alloc => "alloc"
  | concat => "string_concat"
  | equal => "string_eq"

/-- In the order in which they follow the functions of a contract. -/
def all : List Routine := [alloc, concat, equal]

def needs : Routine → List Routine
  | concat => [alloc]
  | _ => []

theorem name_injective {r s : Routine} (h : r.name = s.name) : r = s := by
  revert h; cases r <;> cases s <;> decide

end Routine

inductive Instr where
  | op (o : Op)
  | routine (r : Routine)
  | block (type : BlockType) (body : List Instr)
  | loop (type : BlockType) (body : List Instr)
  | cond (type : BlockType) (yes : List Instr) (no : Option (List Instr))

namespace Instr

def get (i : Nat) : Instr := .op (.localGet i)

def set (i : Nat) : Instr := .op (.localSet i)

def tee (i : Nat) : Instr := .op (.localTee i)

def i32 (v : Int) : Instr := .op (.i32Const v)

def i64 (v : Int) : Instr := .op (.i64Const v)

def num (o : NumOp) : Instr := .op (.num o)

def trap : Instr := .op .unreachable

def load (t : ValType) (offset : Nat) : Instr :=
  match t with
  | .i32 => .op (.i32Load offset)
  | .i64 => .op (.i64Load offset)

def store (t : ValType) (offset : Nat) : Instr :=
  match t with
  | .i32 => .op (.i32Store offset)
  | .i64 => .op (.i64Store offset)

/-- Traps if the number on the stack is not zero. -/
def trapIf : Instr := .cond none [trap] none

mutual

def pieces : Instr → Code
  | .op o => [.op o]
  | .routine r => [.routine r.name]
  | .block t b => .start .block t :: piecesOf b ++ [.finish]
  | .loop t b => .start .loop t :: piecesOf b ++ [.finish]
  | .cond t y none => .start .cond t :: piecesOf y ++ [.finish]
  | .cond t y (some n) => .start .cond t :: piecesOf y ++ .otherwise :: piecesOf n ++ [.finish]

def piecesOf : List Instr → Code
  | [] => []
  | i :: is => pieces i ++ piecesOf is

end

mutual

def routines : Instr → List Routine
  | .op _ => []
  | .routine r => [r]
  | .block _ b => routinesOf b
  | .loop _ b => routinesOf b
  | .cond _ y none => routinesOf y
  | .cond _ y (some n) => routinesOf y ++ routinesOf n

def routinesOf : List Instr → List Routine
  | [] => []
  | i :: is => routines i ++ routinesOf is

end

end Instr

end Covenant.Lower
