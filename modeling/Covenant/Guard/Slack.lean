import Covenant.Guard.Goal

/-! Unknowns for products of slots, for long sums and for distances between sums. Where nothing wraps around, `p < q`
says that `q - p - 1` is not negative. A goal that has a solution still has one. -/

namespace Covenant.Guard

def Polynomial.products (p : Polynomial) : List Monomial :=
  (p.map (·.1)).filter (·.length ≥ 2)

/-- Puts the unknowns of some products in their places; the unknowns are numbered from `base`. -/
def Polynomial.relax (base : Nat) (products : List Monomial) (p : Polynomial) : Polynomial :=
  p.foldr (fun (m, c) q =>
    let k := products.idxOf m
    add [(if k < products.length then [base + k] else m, c)] q) []

def Polynomial.varying (p : Polynomial) : Polynomial := p.filter fun (m, _) => m ≠ []

/-- Puts the unknown of a sum in the place of all but the constant, if the sum is among those that have
an unknown; these are numbered from `base`. -/
def Polynomial.abridge (base : Nat) (sums : List Polynomial) (p : Polynomial) : Polynomial :=
  let (c, q) := p.varying.normal
  let k := sums.idxOf q
  if k < sums.length then add (p.filter fun (m, _) => m = []) [([base + k], c)] else p

def Atom.mapSums (f : Polynomial → Polynomial) : Atom → Atom
  | truth i => truth i
  | zero p => zero (f p)
  | less p q => less (f p) (f q)

def Condition.mapSums (f : Polynomial → Polynomial) : Condition → Condition
  | const b => const b
  | literal a positive => literal (a.mapSums f) positive
  | and c d => and (c.mapSums f) (d.mapSums f)
  | or c d => or (c.mapSums f) (d.mapSums f)
  | iff c d => iff (c.mapSums f) (d.mapSums f)

namespace Goal

def products (g : Goal) : List Monomial :=
  (g.atoms.flatMap fun a => a.sums.flatMap (·.products)).eraseDups

def nextSlot (g : Goal) : Nat :=
  g.atoms.foldl (fun n a => a.words.foldl (fun n i => max n (i + 1)) n) 0

def mapSums (f : Polynomial → Polynomial) (g : Goal) : Goal :=
  ⟨g.facts.map fun (a, positive) => (a.mapSums f, positive), g.rest.map (·.mapSums f)⟩

def relax (g : Goal) (products : List Monomial) : Goal :=
  g.mapSums (Polynomial.relax g.nextSlot products)

def linear (g : Goal) : Goal := g.relax g.products

def abridge (limit : Nat) (g : Goal) : Goal :=
  let long := (g.atoms.flatMap (·.sums)).filter fun p => p.length > limit
  g.mapSums (Polynomial.abridge g.nextSlot (long.map fun p => p.varying.normal.2).eraseDups)

end Goal

/-- Divides the coefficients by their common divisor and the constant, rounding down, as well. The sum is
not negative iff the result is not. -/
def Polynomial.tighten (p : Polynomial) : Polynomial :=
  let g : Nat := p.foldl (fun n (m, c) => if m = [] then n else Nat.gcd n c.toInt.natAbs) 0
  if g ≤ 1 then p
  else p.filterMap fun (m, c) =>
    let d := BitVec.ofInt 64 (c.toInt / g)
    if d = 0 then none else some (m, d)

namespace Goal

/-- Sums one of which is not negative, as far as a fact says so without wrapping around. -/
def distances (b : Bounds) : Atom × Bool → List Polynomial
  | (.zero p, false) =>
    if (b.sum p).fits && Bounds.isTame p then
      [p.sub (.constant 1), p.neg.sub (.constant 1)]
    else []
  | (.zero _, true) => []
  | f => b.notNegative f

def inBounds (i : Nat) (r : Interval) : List Condition :=
  (if Interval.full.lo < r.lo then
    [.ofLess (.constant (BitVec.ofInt 64 (r.lo - 1))) (.slot i)] else []) ++
  (if r.hi < Interval.full.hi then
    [.ofLess (.slot i) (.constant (BitVec.ofInt 64 (r.hi + 1)))] else [])

def bounded (g : Goal) : List Condition :=
  g.conditions ++ g.bounds.flatMap fun (i, r) => inBounds i r

def withDistance? (g : Goal) (b : Bounds) (p : Polynomial) : Option (List Condition) :=
  let p := p.tighten
  let top := (b.sum p).hi
  if p.slots.length < 2 || Interval.full.hi ≤ top then none
  else
    match p.solve? true with
    | none => none
    | some (i, q) =>
      -- The solution makes the sum zero; the unknown is added with the sign of the slot.
      let t := g.nextSlot
      let up := p.contains ([i], 1)
      let q := if up then q.add (.slot t) else q.sub (.slot t)
      (substAll? i q g.bounded).map fun cs => inBounds t ⟨0, top⟩ ++ cs

def distanceCases? (g : Goal) : Option (List (List Condition)) :=
  let b := g.bounds
  g.facts.findSome? fun f =>
    match distances b f with
    | [] => none
    | ps => ps.mapM (g.withDistance? b)

def contradicts (unitsOnly : Bool) : Nat → Goal → Bool
  | 0, _ => false
  | fuel + 1, g =>
    match g.distanceCases? with
    | none => false
    | some cases => cases.all fun cs =>
      match ofConditions? unitsOnly cs with
      | none => true
      | some h => contradicts unitsOnly fuel h

end Goal

end Covenant.Guard
