import Covenant.Guard.Goal

/-! Trying values. A goal that some values satisfy has a solution, and a goal whose slots have few
values is decided by trying them all. The zeros of a sum in one slot are found bit by bit from the lowest: the
lowest bits of a zero make the same number of lowest bits of the sum zero. -/

namespace Covenant.Guard

namespace Root

/-- Coefficients from the constant on. -/
abbrev Coefficients := List Word

def eval (cs : Coefficients) (x : Word) : Word :=
  cs.foldr (fun c acc => c + x * acc) 0

def coefficients (p : Polynomial) : Coefficients :=
  (List.range (p.degree + 1)).map fun n =>
    ((p.find? fun (m, _) => m.length = n).map (·.2)).getD 0

/-- The candidates for the lowest `k + 1` bits, given those for the lowest `k`, where `bit` is the
value of the next bit. -/
def lift (cs : Coefficients) (bit : Word) (rs : List Word) : List Word :=
  rs.flatMap fun r =>
    [r, r + bit].filter fun r => eval cs r &&& (bit + (bit - 1)) == 0

def search (cs : Coefficients) (limit : Nat) : Nat → Word → List Word → List Word × Bool
  | 0, _, rs => (rs, true)
  | n + 1, bit, rs =>
    let rs := lift cs bit rs
    let (found, all) := search cs limit n (bit + bit) (rs.take limit)
    (found, all && rs.length ≤ limit)

def find (limit : Nat) (p : Polynomial) : List Word × Bool :=
  search (coefficients p) limit 64 1 [0]

def slot? (p : Polynomial) : Option Nat :=
  match p.slots with
  | [i] => some i
  | _ => none

def all? (limit : Nat) (p : Polynomial) : Option (Nat × List Word) :=
  match slot? p with
  | none => none
  | some i =>
    match find limit p with
    | (rs, true) => some (i, rs)
    | _ => none

end Root

namespace Goal

def wordSlots (g : Goal) : List Nat := (g.atoms.flatMap (·.words)).eraseDups

def truthSlots (g : Goal) : List Nat := (g.atoms.flatMap (·.truths)).eraseDups

end Goal

def Term.constants : Term → List Word
  | const w => [w]
  | var _ => []
  | neg t => t.constants
  | add s t | sub s t | mul s t => s.constants ++ t.constants

def Formula.constants : Formula → List Word
  | const _ | var _ => []
  | not f => f.constants
  | and f g | or f g | iff f g => f.constants ++ g.constants
  | eq s t | lt s t | le s t => s.constants ++ t.constants

namespace Sample

def constants (g : Goal) : List Word :=
  g.atoms.flatMap fun a => a.sums.flatMap fun p => p.filterMap fun (m, c) =>
    if m = [] then some c else none

/-- Values worth trying: some constants, their neighbours, the ends of the range, and values whose
squares leave it. -/
def pool (cs : List Word) : Array Word :=
  (([0, 1, -1, BitVec.intMin 64, BitVec.intMax 64, 2, -2, 3, 10, 100, 0x80000000,
      0x100000000, 0xFFFFFFFF, 3037000500] ++
    cs.eraseDups.flatMap fun c => [c, c + 1, c - 1, -c]).eraseDups).toArray

def within (r : Interval) (w : Word) : Word :=
  if r.lo ≤ w.toInt && w.toInt ≤ r.hi then w
  else BitVec.ofInt 64 (r.lo + w.toInt % (r.hi - r.lo + 1))

def attempt (b : Bounds) (pool : Array Word) (k : Nat) : Valuation where
  word i := within (b.get i)
    (pool[(k * (2 * i + 1) + (k / pool.size) * (i + 3) + k * k / 7 * i) % pool.size]?.getD 0)
  truth i := ((k * (i + 1) + k >>> (i % 8)) / 2 + i) % 2 = 0

def scattered (k : Nat) : Valuation where
  word i := BitVec.ofNat 64 (((i + 1) * 0x9E3779B97F4A7C15 + k * 0xD1B54A32D192ED03) >>> (k % 8 * 8))
  truth i := ((i + 1) * 0x9E3779B97F4A7C15 + k * 0xD1B54A32D192ED03) >>> 40 % 2 = 0

def satisfies (f : Formula) : Bool :=
  let p := pool (f.constants.take 20)
  (List.range 64).any (fun k => f.eval (scattered k)) ||
    (List.range 64).any fun k => f.eval (attempt [] p k)

def succeeds (g : Goal) : Bool :=
  let p := pool (constants g)
  let b := g.bounds
  (List.range (4 * p.size + 16)).any fun k => g.eval (attempt b p k)

def remaining (v : Valuation) (i : Nat) (p : Polynomial) : Polynomial :=
  p.foldr (fun (m, c) q =>
    let w := c * Monomial.eval v.word (m.filter (· ≠ i))
    if w = 0 then q else Polynomial.add [(m.filter (· = i), w)] q) []

def weight (g : Goal) : Nat := g.atoms.foldl (fun n a => n + 1 + (a.sums.flatMap id).length) 1

def succeedsAlong (g : Goal) (p : Polynomial) (attempts : Nat) : Bool :=
  let values := pool (constants g)
  let b := g.bounds
  let slots := p.slots.take 6
  (List.range attempts).any fun k =>
    let v := attempt b values k
    slots.any fun i =>
      let (rs, _) := Root.find 16 (remaining v i p)
      rs.any fun r => g.eval { v with word := fun j => if j = i then r else v.word j }

structure Choice where
  words : List (Nat × Word)
  truths : List (Nat × Bool)

def Choice.valuation (c : Choice) : Valuation where
  word i := (c.words.lookup i).getD 0
  truth i := (c.truths.lookup i).getD false

def sweepTruths (g : Goal) : List Nat → Choice → Bool
  | [], c => g.eval c.valuation
  | i :: is, c =>
    sweepTruths g is { c with truths := (i, false) :: c.truths } ||
      sweepTruths g is { c with truths := (i, true) :: c.truths }

def sweep (g : Goal) (truths : List Nat) : List (Nat × Interval) → Choice → Bool
  | [], c => sweepTruths g truths c
  | (i, r) :: is, c =>
    (List.range r.size).any fun k =>
      sweep g truths is { c with words := (i, BitVec.ofInt 64 (r.lo + k)) :: c.words }

def choices (limit : Nat) (ranges : List (Nat × Interval)) (truths : Nat) : Nat :=
  let n := ranges.foldl (fun n (_, r) => if n > limit then n else n * r.size) 1
  if truths > 12 then limit + 1 else if n > limit then n else n * (1 <<< truths)

def exhaust? (effort : Nat) (g : Goal) : Option Bool :=
  let limit := effort / weight g
  let b := g.bounds
  let ranges := g.wordSlots.map fun i => (i, b.get i)
  let truths := g.truthSlots
  if choices limit ranges truths.length > limit then none
  else some (sweep g truths ranges ⟨[], []⟩)

def narrow (g : Goal) : Goal :=
  let b := g.bounds
  let isNarrow (a : Atom) : Bool := a.words.all fun i => (b.get i).size ≤ 1000000
  ⟨g.facts.filter fun (a, _) => isNarrow a, g.rest.filter fun c => c.atoms.all isNarrow⟩

def narrowRefutes (effort : Nat) (g : Goal) : Bool :=
  (narrow g).components.any fun h => exhaust? effort h == some false

end Sample

end Covenant.Guard
