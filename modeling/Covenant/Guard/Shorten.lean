import Covenant.Guard.Goal

/-! Changes of unknowns that make the sums of a goal shorter. Taking `x - q` for a slot `x`, where `q` is a
sum of other slots, changes no goal that has a solution into one that has none, nor the reverse. -/

namespace Covenant.Guard

def Monomial.without? : Monomial → Monomial → Option Monomial
  | m, [] => some m
  | [], _ :: _ => none
  | i :: is, j :: js =>
    if i = j then without? is js
    else if i < j then (without? is (j :: js)).map (i :: ·)
    else none

namespace Polynomial

def factor? (i : Nat) (p : Polynomial) : Option (Polynomial × Polynomial) :=
  if p.all fun (m, _) => m.count i ≤ 1 then
    let (withSlot, others) := p.partition fun (m, _) => m.contains i
    some (withSlot.map fun (m, c) => (m.erase i, c), others)
  else none

/-- A word times an odd one, or times a divisor, gives the first. -/
def ratio? (d c : Word) : Option Word :=
  if c.getLsbD 0 then some (d * inverse c)
  else if c ≠ 0 && d.toInt % c.toInt = 0 then some (BitVec.ofInt 64 (d.toInt / c.toInt))
  else none

def quotient (a : Polynomial) : Nat → Polynomial → Polynomial
  | 0, _ => []
  | fuel + 1, b =>
    match a.getLast?, b.getLast? with
    | some (m, c), some (n, d) =>
      match n.without? m, ratio? d c with
      | some k, some e => add [(k, e)] (quotient a fuel (b.sub (scale k e a)))
      | _, _ => quotient a fuel b.dropLast
    | _, _ => []

def shifts (i : Nat) (p : Polynomial) : List Polynomial :=
  match p.factor? i with
  | some (a, b) => [quotient a 64 b].filter fun q => !q.isEmpty
  | none => []

end Polynomial

namespace Goal

def growth? (g : Goal) (i : Nat) (q : Polynomial) : Option Int :=
  (g.atoms.flatMap (·.sums)).foldlM (fun (n : Int) p =>
    if p.mentions i then
      (Polynomial.subst? i q p).map fun r => n + (r.length : Int) - (p.length : Int)
    else some n) 0

/-- Takes `i - q` for the slot `i` if that makes a goal shorter. The inner result is `none` if there is no
solution. -/
def shift? (unitsOnly : Bool) (g : Goal) (i : Nat) (q : Polynomial) : Option (Option Goal) :=
  let r := (Polynomial.slot i).sub q
  match g.growth? i r with
  | none => none
  | some n =>
    if n < 0 then (substAll? i r g.conditions).map (ofConditions? unitsOnly) else none

def shorter? (unitsOnly : Bool) (g : Goal) : Option (Option Goal) :=
  let b := g.bounds
  ((g.atoms.flatMap (·.sums)).eraseDups.take 100).findSome? fun p =>
    (p.slots.filter fun i => (b.get i).isWide).findSome? fun i =>
      (p.shifts i).findSome? (g.shift? unitsOnly i)

def shorten? (unitsOnly : Bool) : Nat → Goal → Option Goal
  | 0, g => some g
  | fuel + 1, g =>
    match g.shorter? unitsOnly with
    | some (some h) => shorten? unitsOnly fuel h
    | some none => none
    | none => some g

end Goal

end Covenant.Guard
