import Covenant.Lower.Instr
import Covenant.Memory.Layout

/-! Pieces of code for arrays, options and loops. The values they work on are in locals, given by
number. -/

namespace Covenant.Lower

open Wasm Memory

def allocate (bytes : Nat) : List Instr :=
  [.i32 bytes, .routine .alloc]

/-- The address of an element, less the header. Traps unless the index, a signed `i64`, is that of an
element: as an unsigned number a negative one is greater than any length. -/
def elementCode (array index : Nat) : List Instr :=
  [.get index, .get array, .load .i32 lengthOffset, .num .i64ExtendI32U, .num .i64GeU, .trapIf,
    .get array, .get index, .num .i32WrapI64, .i32 slotSize, .num .i32Mul, .num .i32Add]

/-- Adds a value to an array and leaves the new length. Traps if the array is full. -/
def pushCode (t : ValType) (array v n : Nat) : List Instr :=
  [.get array, .load .i32 lengthOffset, .tee n, .get array, .load .i32 capacityOffset,
    .num .i32GeU, .trapIf,
    .get array, .get n, .i32 slotSize, .num .i32Mul, .num .i32Add, .get v, .store t arrayHeader,
    .get array, .get n, .i32 1, .num .i32Add, .tee n, .store .i32 lengthOffset,
    .get n, .num .i64ExtendI32U]

/-- Takes the last element of an array and leaves it as an option. Its slot is copied whole, whatever
it holds. -/
def popCode (array n out : Nat) : List Instr :=
  [.i32 variantSize, .routine .alloc, .set out,
    .get array, .load .i32 lengthOffset, .tee n, .num .i32Eqz,
    .cond none
      [.get out, .i64 0, .store .i64 tagOffset]
      (some
        [.get array, .get n, .i32 1, .num .i32Sub, .tee n, .store .i32 lengthOffset,
          .get out, .i64 1, .store .i64 tagOffset,
          .get out, .get array, .get n, .i32 slotSize, .num .i32Mul, .num .i32Add,
          .load .i64 arrayHeader, .store .i64 payloadOffset]),
    .get out]

def containsCode (t : ValType) (same : Instr) (array v i found : Nat) : List Instr :=
  [.i32 0, .set i, .i32 0, .set found,
    .block none
      [.loop none
        [.get i, .get array, .load .i32 lengthOffset, .num .i32GeU, .op (.brIf 1),
          .get array, .get i, .i32 slotSize, .num .i32Mul, .num .i32Add, .load t arrayHeader,
          .get v, same, .cond none [.i32 1, .set found, .op (.br 2)] none,
          .get i, .i32 1, .num .i32Add, .set i, .op (.br 0)]],
    .get found]

/-- A new array in a local, with room for `capacity` elements, the first `count` of which are yet to
be stored. -/
def arrayCode (array count capacity : Nat) : List Instr :=
  [.i32 (arraySize capacity), .routine .alloc, .tee array, .i32 count, .store .i32 lengthOffset,
    .get array, .i32 capacity, .store .i32 capacityOffset]

def variantCode (address : Nat) (tag : Int) : List Instr :=
  [.i32 variantSize, .routine .alloc, .tee address, .i64 tag, .store .i64 tagOffset]

def whileCode (test body : List Instr) : List Instr :=
  let around : List Instr := [.num .i32Eqz, .op (.brIf 1), .block none body, .op (.br 0)]
  [.block none [.loop none (test ++ around)]]

/-- Runs a body for each element of an array, in a local of its own. The length is read again each
time, since the body may change it. -/
def forCode (t : ValType) (array i element : Nat) (body : List Instr) : List Instr :=
  [.set array, .i32 0, .set i,
    .block none
      [.loop none
        [.get i, .get array, .load .i32 lengthOffset, .num .i32GeU, .op (.brIf 1),
          .get array, .get i, .i32 slotSize, .num .i32Mul, .num .i32Add, .load t arrayHeader,
          .set element,
          .block none body,
          .get i, .i32 1, .num .i32Add, .set i, .op (.br 0)]]]

end Covenant.Lower
