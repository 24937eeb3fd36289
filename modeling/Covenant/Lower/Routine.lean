import Covenant.Lower.Instr
import Covenant.Memory.Layout

/-! The bodies of the routines. Locals are numbered with the parameters first; global 0 is the first
free address of the heap. -/

namespace Covenant.Lower.Routine

open Wasm Memory

def heapGlobal : Nat := 0

/-- `alloc size` takes the next `size` bytes of the heap, in whole slots, and returns their address. It
grows the memory when the heap leaves it and traps when that fails or the address space ends. -/
def allocCode : List Instr :=
  let size := 0
  let address := 1
  let after := 2
  [.op (.globalGet heapGlobal), .set address,
    .get address, .get size, .num .i32Add, .i32 (slotSize - 1 : Nat), .num .i32Add,
    .i32 (-(slotSize : Int)), .num .i32And, .set after,
    .get after, .get address, .num .i32LtU, .trapIf,
    .get after, .op .memorySize, .i32 16, .num .i32Shl, .num .i32GtU,
    .cond none
      [.get after, .op .memorySize, .i32 16, .num .i32Shl, .num .i32Sub,
        .i32 0xFFFF, .num .i32Add, .i32 16, .num .i32ShrU,
        .op .memoryGrow, .i32 (-1), .num .i32Eq, .trapIf]
      none,
    .get after, .op (.globalSet heapGlobal),
    .get address]

def copyBytes (dst src count i : Nat) : List Instr :=
  [.i32 0, .set i,
    .block none
      [.loop none
        [.get i, .get count, .num .i32GeU, .op (.brIf 1),
          .get dst, .get i, .num .i32Add,
          .get src, .get i, .num .i32Add, .op (.i32Load8U stringHeader),
          .op (.i32Store8 stringHeader),
          .get i, .i32 1, .num .i32Add, .set i,
          .op (.br 0)]]]

def concatStart (a b lenA lenB out : Nat) : List Instr :=
  [.get a, .load .i32 0, .set lenA,
    .get b, .load .i32 0, .set lenB,
    .get lenA, .get lenB, .num .i32Add, .i32 stringHeader, .num .i32Add,
    .routine .alloc, .set out,
    .get out, .get lenA, .get lenB, .num .i32Add, .store .i32 0]

/-- `concat a b` returns a new string; neither argument is reused. -/
def concatCode : List Instr :=
  let a := 0
  let b := 1
  let lenA := 2
  let lenB := 3
  let out := 4
  let dst := 5
  let i := 6
  concatStart a b lenA lenB out ++
    Instr.get out :: Instr.set dst :: copyBytes dst a lenA i ++
    Instr.get out :: Instr.get lenA :: Instr.num .i32Add :: Instr.set dst ::
      copyBytes dst b lenB i ++
    [Instr.get out]

def equalCode : List Instr :=
  let a := 0
  let b := 1
  let len := 2
  let i := 3
  [.get a, .get b, .num .i32Eq, .cond none [.i32 1, .op .ret] none,
    .get a, .load .i32 0, .tee len, .get b, .load .i32 0, .num .i32Ne,
    .cond none [.i32 0, .op .ret] none,
    .i32 0, .set i,
    .block none
      [.loop none
        [.get i, .get len, .num .i32GeU, .op (.brIf 1),
          .get a, .get i, .num .i32Add, .op (.i32Load8U stringHeader),
          .get b, .get i, .num .i32Add, .op (.i32Load8U stringHeader),
          .num .i32Ne, .cond none [.i32 0, .op .ret] none,
          .get i, .i32 1, .num .i32Add, .set i,
          .op (.br 0)]],
    .i32 1]

def code : Routine → List Instr
  | alloc => allocCode
  | concat => concatCode
  | equal => equalCode

def type : Routine → FuncType
  | alloc => ⟨[.i32], [.i32]⟩
  | concat | equal => ⟨[.i32, .i32], [.i32]⟩

def locals : Routine → List ValType
  | alloc | equal => List.replicate 2 .i32
  | concat => List.replicate 5 .i32

end Covenant.Lower.Routine
