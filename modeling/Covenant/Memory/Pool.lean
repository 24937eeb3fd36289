import Covenant.Memory.Layout

/-! The string literals of a module, one after the other from `dataBase` on, each in a cell of whole slots. A `Pool`
has the texts alone; `Data` has the bytes as they grow, and the address of each text. -/

namespace Covenant.Memory

structure Pool where
  texts : List String
  deriving DecidableEq, Repr

/-- A length has four bytes. A text of this size has none. -/
def lengthLimit : Nat := 0x100000000

def cellSize (text : String) : Nat := align (stringHeader + text.utf8ByteSize) slotSize

def le32 (n : Nat) : List UInt8 :=
  [n.toUInt8, (n / 0x100).toUInt8, (n / 0x10000).toUInt8, (n / 0x1000000).toUInt8]

def cell (text : String) : List UInt8 :=
  let raw := text.toUTF8.toList
  le32 text.utf8ByteSize ++ raw ++
    List.replicate (cellSize text - stringHeader - text.utf8ByteSize) 0

def cellsSize : List String → Nat
  | [] => 0
  | t :: ts => cellSize t + cellsSize ts

namespace Pool

def empty : Pool := ⟨[]⟩

def size (p : Pool) : Nat := cellsSize p.texts

def bytes (p : Pool) : List UInt8 := p.texts.flatMap cell

def address (p : Pool) (text : String) : Nat :=
  dataBase + cellsSize (p.texts.takeWhile (· ≠ text))

def insert (p : Pool) (text : String) : Pool :=
  if text ∈ p.texts then p else ⟨p.texts ++ [text]⟩

def insert? (p : Pool) (text : String) : Option Pool :=
  if text.utf8ByteSize < lengthLimit then some (p.insert text) else none

def heapBase (p : Pool) : Nat := align (dataBase + p.size) slotSize

def pages (p : Pool) : Nat := (p.heapBase + pageSize - 1) / pageSize

end Pool

structure Data where
  blob : List UInt8
  addresses : List (String × Nat)
  order : List String
  deriving DecidableEq, Repr

namespace Data

def empty : Data := ⟨[], [], []⟩

/-- The address of a text. It is added if it is new, unless its length does not fit in four bytes. -/
def intern? (d : Data) (text : String) : Option (Nat × Data) :=
  match d.addresses.lookup text with
  | some address => some (address, d)
  | none =>
    if text.utf8ByteSize < lengthLimit then
      let address := dataBase + d.blob.length
      let blob := d.blob ++ (le32 text.utf8ByteSize ++ text.toUTF8.toList)
      let padding := align blob.length slotSize - blob.length
      some (address, ⟨blob ++ List.replicate padding 0, d.addresses ++ [(text, address)], d.order ++ [text]⟩)
    else none

def heapBase (d : Data) : Nat := align (dataBase + d.blob.length) slotSize

def pages (d : Data) : Nat := (d.heapBase + pageSize - 1) / pageSize

end Data

end Covenant.Memory
