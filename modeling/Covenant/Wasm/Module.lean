import Covenant.Wasm.Op

/-! Modules and their binary form. Code stands in the order of its bytes. Functions are numbered after the
imports; until then, calls to routines go by name. -/

namespace Covenant.Wasm

inductive Opener where
  | block
  | loop
  | cond
  deriving DecidableEq, Repr

def Opener.byte : Opener → UInt8
  | block => 0x02
  | loop => 0x03
  | cond => 0x04

inductive Piece where
  | op (o : Op)
  | start (opener : Opener) (type : BlockType)
  | otherwise
  | finish
  | routine (name : String)
  | raw (bytes : List UInt8)
  deriving DecidableEq, Repr

abbrev Code := List Piece

def endByte : UInt8 := 0x0B

def Piece.bytes? (number : String → Option Nat) : Piece → Option (List UInt8)
  | op o => some o.bytes
  | start k t => some [k.byte, t.byte]
  | otherwise => some [0x05]
  | finish => some [endByte]
  | routine n => (number n).map fun i => (Op.call i).bytes
  | raw bs => some bs

namespace Code

def routines (code : Code) : List String :=
  code.filterMap fun | .routine n => some n | _ => none

def bytes? (number : String → Option Nat) : Code → Option (List UInt8)
  | [] => some []
  | p :: ps =>
    match p.bytes? number with
    | none => none
    | some bs => (bytes? number ps).map (bs ++ ·)

end Code

structure FuncType where
  params : List ValType
  results : List ValType
  deriving DecidableEq, Repr

def valTypesText (ts : List ValType) : String :=
  "(" ++ ", ".intercalate (ts.map ValType.text) ++ ")"

def FuncType.text (t : FuncType) : String :=
  valTypesText t.params ++ " -> " ++ valTypesText t.results

structure Import where
  module : String
  name : String
  type : Nat
  deriving DecidableEq, Repr

structure Function where
  type : Nat
  locals : List ValType
  code : Code
  deriving DecidableEq, Repr

structure Global where
  type : ValType
  isMutable : Bool
  init : Int
  deriving DecidableEq, Repr

structure Export where
  name : String
  kind : UInt8
  index : Nat
  deriving DecidableEq, Repr

def functionKind : UInt8 := 0x00

def memoryKind : UInt8 := 0x02

def globalKind : UInt8 := 0x03

structure Segment where
  offset : Int
  content : List UInt8
  deriving DecidableEq, Repr

structure Limits where
  min : Nat
  max : Nat
  deriving DecidableEq, Repr

structure Module where
  types : List FuncType
  imports : List Import
  functions : List Function
  memory : Option Limits
  globals : List Global
  exports : List Export
  segments : List Segment
  deriving DecidableEq, Repr

/-- The index of a function type among others, added at the end if it is new. -/
def FuncType.indexIn (t : FuncType) (types : List FuncType) : List FuncType × Nat :=
  match types.findIdx? (· = t) with
  | some i => (types, i)
  | none => (types ++ [t], types.length)

namespace Module

def empty : Module := ⟨[], [], [], none, [], [], []⟩

def typeIndex (m : Module) (t : FuncType) : Module × Nat :=
  let (types, i) := t.indexIn m.types
  ({ m with types }, i)

end Module

def magic : List UInt8 := [0x00, 0x61, 0x73, 0x6D]

def version : List UInt8 := [0x01, 0x00, 0x00, 0x00]

def nameBytes (s : String) : List UInt8 :=
  let raw := s.toUTF8.toList
  uleb raw.length ++ raw

def vector (items : List (List UInt8)) : List UInt8 :=
  uleb items.length ++ items.flatten

def FuncType.bytes (t : FuncType) : List UInt8 :=
  0x60 :: uleb t.params.length ++ t.params.map ValType.byte ++
    uleb t.results.length ++ t.results.map ValType.byte

def Import.bytes (i : Import) : List UInt8 :=
  nameBytes i.module ++ nameBytes i.name ++ [functionKind] ++ uleb i.type

def Limits.bytes (l : Limits) : List UInt8 :=
  0x01 :: uleb l.min ++ uleb l.max

def constBytes (t : ValType) (v : Int) : List UInt8 :=
  (match t with
    | .i32 => Op.i32Const v
    | .i64 => Op.i64Const v).bytes ++ [endByte]

def Global.bytes (g : Global) : List UInt8 :=
  g.type.byte :: (if g.isMutable then 1 else 0) :: constBytes g.type g.init

def Export.bytes (e : Export) : List UInt8 :=
  nameBytes e.name ++ [e.kind] ++ uleb e.index

def Segment.bytes (s : Segment) : List UInt8 :=
  0x00 :: constBytes .i32 s.offset ++ uleb s.content.length ++ s.content

def runs : List ValType → List (Nat × ValType)
  | [] => []
  | t :: ts =>
    match runs ts with
    | (n, u) :: rest => if t = u then (n + 1, u) :: rest else (1, t) :: (n, u) :: rest
    | [] => [(1, t)]

def runBytes (r : Nat × ValType) : List UInt8 :=
  uleb r.1 ++ [r.2.byte]

def Function.bytes? (number : String → Option Nat) (f : Function) : Option (List UInt8) :=
  (f.code.bytes? number).map fun code =>
    let body := vector ((runs f.locals).map runBytes) ++ code ++ [endByte]
    uleb body.length ++ body

/-- A section with no items is left out. -/
def sectionBytes (id : UInt8) (items : List (List UInt8)) : List UInt8 :=
  if items.isEmpty then []
  else
    let payload := vector items
    id :: uleb payload.length ++ payload

def Module.bytes? (number : String → Option Nat) (m : Module) : Option (List UInt8) :=
  (m.functions.mapM (Function.bytes? number)).map fun bodies =>
    magic ++ version ++
    sectionBytes 1 (m.types.map FuncType.bytes) ++
    sectionBytes 2 (m.imports.map Import.bytes) ++
    sectionBytes 3 (m.functions.map fun f => uleb f.type) ++
    sectionBytes 5 (m.memory.toList.map Limits.bytes) ++
    sectionBytes 6 (m.globals.map Global.bytes) ++
    sectionBytes 7 (m.exports.map Export.bytes) ++
    sectionBytes 10 bodies ++
    sectionBytes 11 (m.segments.map Segment.bytes)

end Covenant.Wasm
