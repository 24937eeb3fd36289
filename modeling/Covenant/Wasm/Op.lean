import Covenant.Wasm.Leb

/-! Value types and instructions of WebAssembly, as far as contracts use them, and their bytes. -/

namespace Covenant.Wasm

inductive ValType where
  | i32
  | i64
  deriving DecidableEq, Repr

namespace ValType

def byte : ValType → UInt8
  | i32 => 0x7F
  | i64 => 0x7E

def text : ValType → String
  | i32 => "i32"
  | i64 => "i64"

def ofByte? : UInt8 → Option ValType
  | 0x7F => some i32
  | 0x7E => some i64
  | _ => none

def ofText? : String → Option ValType
  | "i32" => some i32
  | "i64" => some i64
  | _ => none

theorem ofByte?_byte (t : ValType) : ofByte? t.byte = some t := by
  cases t <;> rfl

theorem ofText?_text (t : ValType) : ofText? t.text = some t := by
  cases t <;> rfl

end ValType

/-- What a block leaves on the stack: nothing or one value. -/
abbrev BlockType := Option ValType

def BlockType.byte : BlockType → UInt8
  | none => 0x40
  | some t => t.byte

inductive NumOp where
  | i32Eqz
  | i32Eq
  | i32Ne
  | i32LtU
  | i32GtU
  | i32GeU
  | i64Eqz
  | i64Eq
  | i64Ne
  | i64LtS
  | i64GtS
  | i64LeS
  | i64GeS
  | i64GeU
  | i32Add
  | i32Sub
  | i32Mul
  | i32And
  | i32Shl
  | i32ShrU
  | i64Add
  | i64Sub
  | i64Mul
  | i64DivS
  | i64RemS
  | i32WrapI64
  | i64ExtendI32U
  deriving DecidableEq, Repr

def NumOp.byte : NumOp → UInt8
  | i32Eqz => 0x45
  | i32Eq => 0x46
  | i32Ne => 0x47
  | i32LtU => 0x49
  | i32GtU => 0x4B
  | i32GeU => 0x4F
  | i64Eqz => 0x50
  | i64Eq => 0x51
  | i64Ne => 0x52
  | i64LtS => 0x53
  | i64GtS => 0x55
  | i64LeS => 0x57
  | i64GeS => 0x59
  | i64GeU => 0x5A
  | i32Add => 0x6A
  | i32Sub => 0x6B
  | i32Mul => 0x6C
  | i32And => 0x71
  | i32Shl => 0x74
  | i32ShrU => 0x76
  | i64Add => 0x7C
  | i64Sub => 0x7D
  | i64Mul => 0x7E
  | i64DivS => 0x7F
  | i64RemS => 0x81
  | i32WrapI64 => 0xA7
  | i64ExtendI32U => 0xAD

/-- Instructions that hold no others. Offsets are added to the address on the stack. -/
inductive Op where
  | unreachable
  | br (depth : Nat)
  | brIf (depth : Nat)
  | ret
  | call (index : Nat)
  | drop
  | localGet (index : Nat)
  | localSet (index : Nat)
  | localTee (index : Nat)
  | globalGet (index : Nat)
  | globalSet (index : Nat)
  | i32Load (offset : Nat)
  | i64Load (offset : Nat)
  | i32Load8U (offset : Nat)
  | i32Store (offset : Nat)
  | i64Store (offset : Nat)
  | i32Store8 (offset : Nat)
  | memorySize
  | memoryGrow
  | i32Const (value : Int)
  | i64Const (value : Int)
  | num (op : NumOp)
  deriving DecidableEq, Repr

namespace Op

def access (code align : UInt8) (offset : Nat) : List UInt8 :=
  code :: align :: uleb offset

def bytes : Op → List UInt8
  | unreachable => [0x00]
  | br d => 0x0C :: uleb d
  | brIf d => 0x0D :: uleb d
  | ret => [0x0F]
  | call i => 0x10 :: uleb i
  | drop => [0x1A]
  | localGet i => 0x20 :: uleb i
  | localSet i => 0x21 :: uleb i
  | localTee i => 0x22 :: uleb i
  | globalGet i => 0x23 :: uleb i
  | globalSet i => 0x24 :: uleb i
  | i32Load n => access 0x28 2 n
  | i64Load n => access 0x29 3 n
  | i32Load8U n => access 0x2D 0 n
  | i32Store n => access 0x36 2 n
  | i64Store n => access 0x37 3 n
  | i32Store8 n => access 0x3A 0 n
  | memorySize => [0x3F, 0x00]
  | memoryGrow => [0x40, 0x00]
  | i32Const v => 0x41 :: sleb v
  | i64Const v => 0x42 :: sleb v
  | num o => [o.byte]

end Op

end Covenant.Wasm
