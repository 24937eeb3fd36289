/-! Binary numbers with 53 significant digits. A decimal number stands for the nearest of them, and of two equally near
ones for that with an even last digit; a binary number is written as the shortest decimal one that stands for it. -/

namespace Covenant

/-- A finite number is `m` times two to the power `q`, or its negation. -/
inductive Binary64 where
  | finite (negative : Bool) (m : Nat) (q : Int)
  | infinite (negative : Bool)
  | nan
  deriving DecidableEq, Repr

namespace Binary64

def leastPower : Int := -1074

def greatestPower : Int := 971

def significands : Nat := 0x20000000000000

def width (n : Nat) : Nat := if n = 0 then 0 else n.log2 + 1

/-- A quotient over two to the power `q`, again as a quotient. -/
def scaled (n d : Nat) (q : Int) : Nat × Nat := (n <<< (-q).toNat, d <<< q.toNat)

/-- The nearest whole number to a quotient, the even one of two. -/
def nearest (n d : Nat) : Nat :=
  let r := 2 * (n % d)
  if d < r || (r = d && n / d % 2 = 1) then n / d + 1 else n / d

/-- The least power of two over which a quotient has a significand. -/
def power (n d : Nat) : Int :=
  let q := max ((width n : Int) - width d - 53) leastPower
  let (a, b) := scaled n d q
  if significands ≤ a / b then q + 1 else q

def ofQuotient (negative : Bool) (n d : Nat) : Binary64 :=
  let q := power n d
  let (a, b) := scaled n d q
  let m := nearest a b
  let (m, q) := if m = significands then (m / 2, q + 1) else (m, q)
  if greatestPower < q then infinite negative else finite negative m q

/-- The number nearest to `n` times ten to the power `e`. Far out the digits of `n` do not matter. -/
def ofDecimal (negative : Bool) (n : Nat) (e : Int) : Binary64 :=
  if n = 0 || e < -400 - width n then finite negative 0 leastPower
  else if 400 < e then infinite negative
  else ofQuotient negative (n * Nat.pow 10 e.toNat) (Nat.pow 10 (-e).toNat)

end Binary64

/-- A place on the line of numbers: `n` times two to the power `q`, or one of the ends. -/
inductive Place where
  | first
  | point (n : Int) (q : Int)
  | last
  deriving DecidableEq, Repr

namespace Place

def ofInt (n : Int) : Place := point n 0

def before : Place → Place → Bool
  | _, first => false
  | first, _ => true
  | last, _ => false
  | _, last => true
  | point a p, point b q =>
    let r := min p q
    a * ((1 <<< (p - r).toNat : Nat) : Int) < b * ((1 <<< (q - r).toNat : Nat) : Int)

end Place

def Binary64.place? : Binary64 → Option Place
  | finite negative m q => some (.point (if negative then -(m : Int) else m) q)
  | infinite negative => some (if negative then .first else .last)
  | nan => none

namespace Binary64

/-- The number `digits` times ten to the power `exponent`. -/
structure Decimal where
  digits : Nat
  exponent : Int
  deriving DecidableEq, Repr

def compareScaled (a : Nat) (i : Int) (n : Nat) (j : Int) : Ordering :=
  compare ((a * Nat.pow 10 i.toNat) <<< (-j).toNat) ((n * Nat.pow 10 (-i).toNat) <<< j.toNat)

/-- Whether the number `m` times two to the power `q` is nearest to a decimal one. The bounds lie halfway
to its neighbours, and belong to it if `m` is even. -/
def readsBack (m : Nat) (q : Int) (d : Decimal) : Bool :=
  let lower := if m = significands / 2 && leastPower < q then 4 * m - 1 else 4 * m - 2
  let l := compareScaled d.digits d.exponent lower (q - 2)
  let u := compareScaled d.digits d.exponent (4 * m + 2) (q - 2)
  let ends := m % 2 = 0
  (l = .gt || (ends && l = .eq)) && (u = .lt || (ends && u = .eq))

def tenAbove (m : Nat) (q : Int) : Int :=
  let guess := (width m + q - 1) * 1233 / 4096
  ([guess - 1, guess, guess + 1].find? fun k => compareScaled 1 k m q = .gt).getD (guess + 2)

/-- The one of two neighbours on a decimal grid that reads back and is nearer, the even one of two. -/
def onGrid? (m : Nat) (q g : Int) : Option Decimal :=
  let f := ((m * Nat.pow 10 (-g).toNat) <<< q.toNat) / ((Nat.pow 10 g.toNat) <<< (-q).toNat)
  let a : Decimal := ⟨f, g⟩
  let b : Decimal := ⟨f + 1, g⟩
  match readsBack m q a, readsBack m q b with
  | false, false => none
  | true, false => some a
  | false, true => some b
  | true, true =>
    match compareScaled (2 * f + 1) g (2 * m) q with
    | .gt => some a
    | .lt => some b
    | .eq => some (if f % 2 = 0 then a else b)

/-- The decimal number of fewest digits that reads back; seventeen digits are always enough. -/
def shortest (m : Nat) (q : Int) : Decimal :=
  let k := tenAbove m q
  let exact : Decimal :=
    if 0 ≤ q then ⟨m <<< q.toNat, 0⟩ else ⟨m * Nat.pow 5 (-q).toNat, q⟩
  ((List.range 17).findSome? fun (n : Nat) => onGrid? m q (k - n - 1)).getD exact

def zeros (n : Nat) : String := String.ofList (List.replicate n '0')

/-- Decimal numbers are written out from ten to the power minus four up to ten to the power sixteen, and
always with a point; others have an exponent of two digits or more. -/
def Decimal.text (d : Decimal) : String :=
  let written := (Nat.repr d.digits).toList
  let ds := (written.reverse.dropWhile (· = '0')).reverse
  let point := written.length + d.exponent
  if -4 < point && point ≤ 16 then
    if point ≤ 0 then "0." ++ zeros (-point).toNat ++ String.ofList ds
    else if ds.length ≤ point then
      String.ofList ds ++ zeros (point.toNat - ds.length) ++ ".0"
    else String.ofList (ds.take point.toNat) ++ "." ++ String.ofList (ds.drop point.toNat)
  else
    let fraction := if ds.length ≤ 1 then "" else "." ++ String.ofList (ds.drop 1)
    let e := Nat.repr (point - 1).natAbs
    String.ofList (ds.take 1) ++ fraction ++ (if point < 1 then "e-" else "e+")
      ++ zeros (2 - e.length) ++ e

def text : Binary64 → String
  | nan => "nan"
  | infinite negative => if negative then "-inf" else "inf"
  | finite negative m q =>
    (if negative then "-" else "") ++ (if m = 0 then "0.0" else (shortest m q).text)

end Binary64

end Covenant
