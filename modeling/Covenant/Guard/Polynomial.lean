import Covenant.Guard.Formula

/-! Sums of products over 64-bit words. Two terms that are equal by the laws of addition and
multiplication have the same sum. -/

namespace Covenant.Guard

/-- The slots of a product, in increasing order. -/
abbrev Monomial := List Nat

namespace Monomial

def lex : Monomial → Monomial → Ordering
  | [], [] => .eq
  | [], _ :: _ => .lt
  | _ :: _, [] => .gt
  | i :: is, j :: js => (Ord.compare i j).then (lex is js)

/-- Short products come first. This order is kept by multiplication. -/
def compare (m n : Monomial) : Ordering :=
  (Ord.compare m.length n.length).then (lex m n)

def mul : Monomial → Monomial → Monomial
  | [], js => js
  | i :: is, [] => i :: is
  | i :: is, j :: js => if i ≤ j then i :: mul is (j :: js) else j :: mul (i :: is) js

def eval (v : Nat → Word) : Monomial → Word
  | [] => 1
  | i :: is => v i * eval v is

end Monomial

/-- Products with their coefficients, in increasing order and without zero coefficients. -/
abbrev Polynomial := List (Monomial × Word)

namespace Polynomial

def eval (v : Nat → Word) : Polynomial → Word
  | [] => 0
  | (m, c) :: p => c * m.eval v + eval v p

def constant (c : Word) : Polynomial :=
  if c = 0 then [] else [([], c)]

def slot (i : Nat) : Polynomial := [([i], 1)]

def constant? : Polynomial → Option Word
  | [] => some 0
  | [([], c)] => some c
  | _ => none

def add : Polynomial → Polynomial → Polynomial
  | [], q => q
  | (m, c) :: p, [] => (m, c) :: p
  | (m, c) :: p, (n, d) :: q =>
    match m.compare n with
    | .lt => (m, c) :: add p ((n, d) :: q)
    | .gt => (n, d) :: add ((m, c) :: p) q
    | .eq => if c + d = 0 then add p q else (m, c + d) :: add p q

def scale (m : Monomial) (c : Word) : Polynomial → Polynomial
  | [] => []
  | (n, d) :: p => if c * d = 0 then scale m c p else (m.mul n, c * d) :: scale m c p

def neg (p : Polynomial) : Polynomial :=
  p.map fun (m, c) => (m, -c)

def sub (p q : Polynomial) : Polynomial := p.add q.neg

def mulBy (p q : Polynomial) : Polynomial :=
  p.foldr (fun (m, c) r => add (scale m c q) r) []

/-- How many products a multiplication may take, and how long a sum may get by a replacement. -/
def sizeLimit : Nat := 400

def mul? (limit : Nat) (p q : Polynomial) : Option Polynomial :=
  if p.length * q.length > limit then none
  else if p.length ≤ q.length then some (mulBy p q)
  else some (mulBy q p)

def power? (p : Polynomial) : Nat → Option Polynomial
  | 0 => some (constant 1)
  | n + 1 => do mul? sizeLimit p (← power? p n)

def subst? (i : Nat) (q : Polynomial) : Polynomial → Option Polynomial
  | [] => some []
  | (m, c) :: p => do
    let p ← subst? i q p
    let n := m.count i
    if n = 0 then return add [(m, c)] p
    else
      let r ← power? q n
      let p := add (scale (m.filter (· ≠ i)) c r) p
      if p.length ≤ sizeLimit then return p else none

def mentions (i : Nat) (p : Polynomial) : Bool := p.any fun (m, _) => m.contains i

def slots (p : Polynomial) : List Nat := (p.flatMap (·.1)).eraseDups

def degree (p : Polynomial) : Nat := p.foldl (fun n (m, _) => max n m.length) 0

/-- The word that an odd one is multiplied with to give one. Each step doubles the number of bits that
are right. -/
def inverse (c : Word) : Word :=
  let better (i : Word) : Word := i * (2 - c * i)
  better (better (better (better (better c))))

def oddPart : Nat → Nat → Nat
  | 0, n => n
  | fuel + 1, n => if n % 2 = 0 then oddPart fuel (n / 2) else n

/-- Divides the coefficients, as signed numbers, by their common odd factor and makes the last one
positive. Where the sum is zero does not change. -/
def primitive (p : Polynomial) : Polynomial :=
  let g := oddPart 64 (p.foldl (fun n (_, c) => Nat.gcd n c.toInt.natAbs) 0)
  let p := if g ≤ 1 then p else p.map fun (m, c) => (m, BitVec.ofInt 64 (c.toInt / g))
  match p.getLast? with
  | some (_, c) => if c.msb then p.neg else p
  | none => p

/-- The sum is never zero: a power of two divides every product and not the constant. -/
def neverZero (p : Polynomial) : Bool :=
  let bits : Word := p.foldl (fun w (m, c) => if m = [] then w else w ||| c) 0
  let lowest := bits &&& -bits
  p.any fun (m, c) => m = [] && (c &&& (lowest - 1)) ≠ 0

/-- A sum as a word times a sum, such that sums that differ by an odd number have the same second part. -/
def normal (p : Polynomial) : Word × Polynomial :=
  match p.getLast? with
  | none => (1, p)
  | some (_, c) =>
    if c.getLsbD 0 then (c, scale [] (inverse c) p)
    else if c.msb then (-1, p.neg)
    else (1, p)

def isSolvable (unitsOnly : Bool) (p : Polynomial) : Monomial × Word → Bool
  | ([i], c) =>
    (if unitsOnly then c = 1 || c = -1 else c.getLsbD 0) &&
      p.all fun (m, _) => m = [i] || !m.contains i
  | _ => false

/-- The slot that an equation with zero determines, and its value. -/
def solve? (unitsOnly : Bool) (p : Polynomial) : Option (Nat × Polynomial) :=
  match p.find? (isSolvable unitsOnly p) with
  | some ([i], c) =>
    some (i, scale [] (-inverse c) (p.filter fun (m, _) => m ≠ [i]))
  | _ => none

def product : Monomial → Term
  | [] => .const 1
  | [i] => .var i
  | i :: is => .mul (.var i) (product is)

def summand (m : Monomial) (c : Word) : Term :=
  if m = [] then .const c else if c = 1 then product m else .mul (.const c) (product m)

def sum : Polynomial → Term
  | [] => .const 0
  | [(m, c)] => summand m c
  | (m, c) :: p => .add (summand m c) (sum p)

def split (p : Polynomial) : Polynomial × Polynomial :=
  (p.filter fun (_, c) => !c.msb, neg (p.filter fun (_, c) => c.msb))

def toTerm (p : Polynomial) : Term :=
  match p.split with
  | (pos, []) => pos.sum
  | (pos, negs) => .sub pos.sum negs.sum

end Polynomial

end Covenant.Guard
