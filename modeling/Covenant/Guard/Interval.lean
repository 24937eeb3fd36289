import Covenant.Guard.Condition

/-! What the bounds of slots say about sums. A sum is computed without wrapping around; where the result
fits a signed word, it is the value of the sum. -/

namespace Covenant.Guard

structure Interval where
  lo : Int
  hi : Int
  deriving DecidableEq, Repr

namespace Interval

def wordSpan : Int := 0x10000000000000000

def full : Interval := ⟨-0x8000000000000000, 0x7FFFFFFFFFFFFFFF⟩

def point (n : Int) : Interval := ⟨n, n⟩

def add (s t : Interval) : Interval := ⟨s.lo + t.lo, s.hi + t.hi⟩

def mul (s t : Interval) : Interval :=
  let a := s.lo * t.lo
  let b := s.lo * t.hi
  let c := s.hi * t.lo
  let d := s.hi * t.hi
  ⟨min (min a b) (min c d), max (max a b) (max c d)⟩

def square (s : Interval) : Interval :=
  let t := s.mul s
  if 0 ≤ s.lo then t else if s.hi ≤ 0 then ⟨s.hi * s.hi, s.lo * s.lo⟩ else ⟨0, t.hi⟩

def meet (s t : Interval) : Interval := ⟨max s.lo t.lo, min s.hi t.hi⟩

def join (s t : Interval) : Interval := ⟨min s.lo t.lo, max s.hi t.hi⟩

def neg (s : Interval) : Interval := ⟨-s.hi, -s.lo⟩

def isEmpty (s : Interval) : Bool := s.hi < s.lo

def size (s : Interval) : Nat := (s.hi - s.lo + 1).toNat

/-- Whether half of all words or more are in the interval. -/
def isWide (s : Interval) : Bool := full.hi ≤ s.hi - s.lo

def fits (s : Interval) : Bool := full.lo ≤ s.lo && s.hi ≤ full.hi

/-- Whether some number stands for the word zero. -/
def hasZero (s : Interval) : Bool := s.lo ≤ s.hi / wordSpan * wordSpan

end Interval

abbrev Bounds := List (Nat × Interval)

namespace Bounds

def get (b : Bounds) (slot : Nat) : Interval := (b.lookup slot).getD .full

def restrict (b : Bounds) (slot : Nat) (i : Interval) : Bounds :=
  match b with
  | [] => [(slot, i)]
  | (j, k) :: rest => if j = slot then (j, k.meet i) :: rest else (j, k) :: restrict rest slot i

def monomial (b : Bounds) : Monomial → Interval
  | [] => .point 1
  | [i] => b.get i
  | i :: j :: is =>
    if i = j then (b.get i).square.mul (monomial b is) else (b.get i).mul (monomial b (j :: is))

def polynomial (b : Bounds) : Polynomial → Interval
  | [] => .point 0
  | (m, c) :: p => ((Interval.point c.toInt).mul (b.monomial m)).add (polynomial b p)

/-- A product of slots as a sum of products of their distances from the lower bounds. -/
def distances (b : Bounds) : Monomial → List (Monomial × Int)
  | [] => [([], 1)]
  | i :: is =>
    let n := if b.get i = .full then 0 else (b.get i).lo
    (distances b is).flatMap fun (m, c) => [(i :: m, c), (m, c * n)]

def addSummand (m : Monomial) (c : Int) : List (Monomial × Int) → List (Monomial × Int)
  | [] => [(m, c)]
  | (n, d) :: rest => if m = n then (n, c + d) :: rest else (n, d) :: addSummand m c rest

def fromZero (b : Bounds) : Bounds :=
  b.map fun (i, s) => (i, if s = .full then s else ⟨0, s.hi - s.lo⟩)

/-- The interval of a sum of few summands, from the distances of its slots from their lower bounds:
some summands cancel in that form. -/
def byDistances (b : Bounds) (p : Polynomial) : Interval :=
  let summands := p.flatMap fun (m, c) => (b.distances m).map fun (n, d) => (n, c.toInt * d)
  let total := summands.foldl (fun sum (m, c) => addSummand m c sum) []
  let z := b.fromZero
  total.foldl (fun i (m, c) => i.add ((Interval.point c).mul (z.monomial m))) (.point 0)

def sum (b : Bounds) (p : Polynomial) : Interval :=
  if p.length ≤ 32 && 2 ≤ p.degree && p.degree ≤ 4 then (b.polynomial p).meet (b.byDistances p) else b.polynomial p

/-- Coefficients whose differences do not wrap around. -/
def isTame (p : Polynomial) : Bool :=
  p.all fun (_, c) => c.toInt.natAbs < 0x2000000000000000

def decide? (b : Bounds) : Atom → Option Bool
  | .truth _ => none
  | .zero p =>
    let i := b.sum p
    if !i.hasZero then some false
    else if i.lo = i.hi then some true
    else none
  | .less p q =>
    let i := b.sum p
    let j := b.sum q
    if i.fits && j.fits then
      if i.hi < j.lo then some true
      else if j.hi ≤ i.lo then some false
      else if isTame p && isTame q then
        let d := b.sum (p.sub q)
        if d.hi < 0 then some true else if 0 ≤ d.lo then some false else none
      else none
    else none

def ofComparison (w : Word) (positive : Bool) : Interval :=
  if positive then ⟨Interval.full.lo, w.toInt - 1⟩ else ⟨w.toInt, Interval.full.hi⟩

def ofFact (b : Bounds) : Atom × Bool → Bounds
  | (.less [([i], c)] q, positive) =>
    match q.constant? with
    | some w => if c = 1 then b.restrict i (ofComparison w positive) else b
    | none => b
  | (.zero p, true) =>
    match p.solve? true with
    | some (i, q) =>
      match q.constant? with
      | some w => b.restrict i (.point w.toInt)
      | none => b
    | none => b
  | _ => b

def ofCondition : Condition → Bounds
  | .const _ => []
  | .literal a positive => ofFact [] (a, positive)
  | .and c d => (ofCondition d).foldl (fun b (i, s) => b.restrict i s) (ofCondition c)
  | .or c d =>
    let e := ofCondition d
    (ofCondition c).filterMap fun (i, s) => (e.lookup i).map fun t => (i, s.join t)
  | .iff _ _ => []

def ofComparisons (facts : List (Atom × Bool)) (p : Polynomial) : Interval :=
  facts.foldl (fun s f =>
    match f with
    | (.less q k, positive) =>
      match k.constant? with
      | some w => if q = p then s.meet (ofComparison w positive) else s
      | none => s
    | _ => s) .full

def boundedSums (facts : List (Atom × Bool)) : List (Polynomial × Interval) :=
  let sums := facts.filterMap fun
    | (.less p k, _) => if 1 < p.length && k.constant?.isSome then some p else none
    | _ => none
  (sums.eraseDups.map fun p => (p, ofComparisons facts p)).filter fun (_, s) => !s.isWide

/-- What the interval of a sum says about a slot that stands alone in it: the slot makes up the
difference to the rest. This holds even if the sum wraps around. -/
def ofBoundedSum (b : Bounds) (p : Polynomial) (s : Interval) : Bounds :=
  p.foldl (fun b (m, c) =>
    match m with
    | [i] =>
      if c = 1 || c = -1 then
        let rest := b.sum (p.filter fun (m, _) => m ≠ [i])
        let d := s.add rest.neg
        let d := if c = 1 then d else d.neg
        if d.fits then b.restrict i d else b
      else b
    | _ => b) b

def notNegative (b : Bounds) : Atom × Bool → List Polynomial
  | (.less p q, positive) =>
    if (b.sum p).fits && (b.sum q).fits && isTame p && isTame q then
      [if positive then (q.sub p).sub (.constant 1) else p.sub q]
    else []
  | (.zero p, true) =>
    let i := b.sum p
    if isTame p && -Interval.wordSpan < i.lo && i.hi < Interval.wordSpan then [p, p.neg] else []
  | _ => []

/-- What a sum that is not negative says about its slots: each is bounded by what the rest of the sum can
make up for. -/
def ofSum (b : Bounds) (p : Polynomial) : Bounds :=
  p.foldl (fun b (m, c) =>
    match m with
    | [i] =>
      let n := c.toInt
      let most := (b.sum (p.filter fun (m, _) => m ≠ [i])).hi
      b.restrict i
        (if 0 < n then ⟨-(most / n), Interval.full.hi⟩ else ⟨Interval.full.lo, most / -n⟩)
    | _ => b) b

def refine (facts : List (Atom × Bool)) (sums : List (Polynomial × Interval)) (b : Bounds) : Bounds :=
  let b := sums.foldl (fun b (p, s) => b.ofBoundedSum p s) b
  facts.foldl (fun b f => (b.notNegative f).foldl ofSum b) b

def refineAll (facts : List (Atom × Bool)) (sums : List (Polynomial × Interval)) : Nat → Bounds → Bounds
  | 0, b => b
  | fuel + 1, b =>
    let c := refine facts sums b
    if c = b then b else refineAll facts sums fuel c

def ofFacts (facts : List (Atom × Bool)) (others : List Condition) : Bounds :=
  let b := facts.foldl ofFact []
  let b := others.foldl (fun b c => (ofCondition c).foldl (fun b (i, s) => b.restrict i s) b) b
  refineAll facts (boundedSums facts) 3 b

end Bounds

end Covenant.Guard
