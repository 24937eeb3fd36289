import Covenant.Ty
import Covenant.Wasm.Op

/-! How values lie in linear memory. Numbers are little-endian.

* A string is its length in four bytes and then its UTF-8 bytes.
* An array is its length and its capacity, four bytes each, and then a slot for each element.
* A record is a slot for each field, in declaration order.
* An option or result is a tag of eight bytes and a slot; the tag is 1 for `Some` and `Ok`.

Address zero is never used. -/

namespace Covenant.Memory

def pageSize : Nat := 65536

def slotSize : Nat := 8

def dataBase : Nat := 8

def stringHeader : Nat := 4

def arrayHeader : Nat := 8

def lengthOffset : Nat := 0

def capacityOffset : Nat := 4

def tagOffset : Nat := 0

def payloadOffset : Nat := 8

def variantSize : Nat := 16

def align (n unit : Nat) : Nat := (n + unit - 1) / unit * unit

/-- The same for any whole numbers. Zero has no multiples to choose from. -/
def alignInt? (n unit : Int) : Option Int :=
  if unit = 0 then none else some ((n + unit - 1).fdiv unit * unit)

def arraySize (capacity : Nat) : Nat := arrayHeader + capacity * slotSize

def arraySizeInt (capacity : Int) : Int := arrayHeader + capacity * slotSize

/-- A record without fields still has an address of its own. -/
def recordSize (fields : Nat) : Nat := max fields 1 * slotSize

def slotOffset (index : Nat) : Nat := index * slotSize

end Memory

open Wasm in
/-- A truth value or an address is an `i32`, everything else an `i64`. -/
def Ty.valType (t : Ty) : ValType :=
  if t = .boolean || t.isReference then .i32 else .i64

end Covenant
