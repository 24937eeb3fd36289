/-! LEB128 numbers: seven bits to a byte, least significant first, with the high bit set on every
byte but the last. A signed number repeats bit six of its last byte forever. -/

namespace Covenant.Wasm

inductive LebFault where
  | truncated
  | negative
  deriving DecidableEq, Repr

def LebFault.message : LebFault → String
  | .truncated => "truncated LEB128"
  | .negative => "unsigned LEB128 needs a non-negative value"

def uleb (n : Nat) : List UInt8 :=
  if n < 128 then [n.toUInt8] else (n % 128 + 128).toUInt8 :: uleb (n / 128)
termination_by n
decreasing_by omega

def sleb (n : Int) : List UInt8 :=
  if -64 ≤ n ∧ n < 64 then [(n % 128).toNat.toUInt8]
  else ((n % 128).toNat + 128).toUInt8 :: sleb (n / 128)
termination_by n.natAbs
decreasing_by omega

/-- Only a natural number has an unsigned form. -/
def uleb? (n : Int) : Except LebFault (List UInt8) :=
  if n < 0 then .error .negative else .ok (uleb n.toNat)

def readUleb : List UInt8 → Except LebFault (Nat × List UInt8)
  | [] => .error .truncated
  | b :: bs =>
    if b < 128 then .ok (b.toNat, bs)
    else match readUleb bs with
      | .ok (n, rest) => .ok (b.toNat % 128 + 128 * n, rest)
      | .error e => .error e

def readSleb : List UInt8 → Except LebFault (Int × List UInt8)
  | [] => .error .truncated
  | b :: bs =>
    if b < 64 then .ok (b.toNat, bs)
    else if b < 128 then .ok (b.toNat - 128, bs)
    else match readSleb bs with
      | .ok (n, rest) => .ok ((b.toNat % 128 : Nat) + 128 * n, rest)
      | .error e => .error e

/-- The bytes from a position on. A negative position counts from the end, and after the last byte come
all bytes again; there is none before the first byte. -/
def bytesFrom? (bytes : List UInt8) (pos : Int) : Option (List UInt8) :=
  if 0 ≤ pos then some (bytes.drop pos.toNat)
  else if bytes.length + pos < 0 then none
  else some (bytes.drop (bytes.length + pos).toNat ++ bytes)

def lebAt? {α : Type} (read : List UInt8 → Except LebFault (α × List UInt8)) (bytes : List UInt8)
    (pos : Int) : Option (Except LebFault (α × Int)) :=
  (bytesFrom? bytes pos).map fun source =>
    (read source).map fun (n, rest) => (n, pos + (source.length - rest.length : Nat))

end Covenant.Wasm
