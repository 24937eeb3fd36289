import Covenant.Guard.Polynomial

/-! Conditions: formulas whose comparisons are between sums of products, brought to one form, and whose negations stand
only at the leaves. Where a sum would be too long, each factor gets a name, a slot of its own. -/

namespace Covenant.Guard

inductive Atom where
  | truth (slot : Nat)
  | zero (p : Polynomial)
  | less (p q : Polynomial)
  deriving DecidableEq, Repr

def Atom.eval (v : Valuation) : Atom → Bool
  | truth i => v.truth i
  | zero p => p.eval v.word == 0
  | less p q => (p.eval v.word).slt (q.eval v.word)

inductive Condition where
  | const (b : Bool)
  | literal (a : Atom) (positive : Bool)
  | and (c d : Condition)
  | or (c d : Condition)
  | iff (c d : Condition)
  deriving DecidableEq, Repr

namespace Condition

def eval (v : Valuation) : Condition → Bool
  | const b => b
  | literal a positive => a.eval v == positive
  | and c d => c.eval v && d.eval v
  | or c d => c.eval v || d.eval v
  | iff c d => c.eval v == d.eval v

def negate : Condition → Condition
  | const b => const !b
  | literal a positive => literal a !positive
  | and c d => or c.negate d.negate
  | or c d => and c.negate d.negate
  | iff c d => iff c.negate d

def both : Condition → Condition → Condition
  | const true, d => d
  | const false, _ => const false
  | c, const true => c
  | _, const false => const false
  | c, d => and c d

def either : Condition → Condition → Condition
  | const true, _ => const true
  | const false, d => d
  | _, const true => const true
  | c, const false => c
  | c, d => or c d

def same : Condition → Condition → Condition
  | const true, d => d
  | const false, d => d.negate
  | c, const true => c
  | c, const false => c.negate
  | c, d => if c = d then const true else if c = d.negate then const false else iff c d

def ofZero (p : Polynomial) : Condition :=
  match p with
  | [] => const true
  | p =>
    let p := p.primitive
    if p.neverZero then const false else literal (.zero p) true

/-- A sum is less than another. A constant stands on the right. -/
def ofLess (p q : Polynomial) : Condition :=
  if p = q then const false
  else
    match p.constant?, q.constant? with
    | some a, some b => const (a.slt b)
    | some a, none =>
      if a = BitVec.intMax 64 then const false
      else literal (.less q (.constant (a + 1))) false
    | none, some b => if b = BitVec.intMin 64 then const false else literal (.less p q) true
    | none, none => literal (.less p q) true

def signed (positive : Bool) (c : Condition) : Condition := if positive then c else c.negate

def mapAtoms? (f : Atom → Option Condition) : Condition → Option Condition
  | const b => some (const b)
  | literal a positive => (f a).map (signed positive)
  | and c d => do return both (← mapAtoms? f c) (← mapAtoms? f d)
  | or c d => do return either (← mapAtoms? f c) (← mapAtoms? f d)
  | iff c d => do return same (← mapAtoms? f c) (← mapAtoms? f d)

def decideAtoms (known : Atom → Option Bool) : Condition → Condition
  | const b => const b
  | literal a positive =>
    match known a with
    | some b => const (b == positive)
    | none => literal a positive
  | and c d => both (decideAtoms known c) (decideAtoms known d)
  | or c d => either (decideAtoms known c) (decideAtoms known d)
  | iff c d => same (decideAtoms known c) (decideAtoms known d)

def size : Condition → Nat
  | const _ | literal _ _ => 1
  | and c d | or c d | iff c d => c.size + d.size + 1

def atoms : Condition → List Atom
  | const _ => []
  | literal a _ => [a]
  | and c d | or c d | iff c d => atoms c ++ atoms d

end Condition

namespace Atom

def subst? (i : Nat) (q : Polynomial) : Atom → Option Condition
  | truth j => some (.literal (.truth j) true)
  | zero p =>
    if p.mentions i then (Polynomial.subst? i q p).map Condition.ofZero
    else some (.literal (.zero p) true)
  | less p r =>
    if p.mentions i || r.mentions i then do
      return Condition.ofLess (← Polynomial.subst? i q p) (← Polynomial.subst? i q r)
    else some (.literal (.less p r) true)

def words : Atom → List Nat
  | truth _ => []
  | zero p => p.slots
  | less p q => p.slots ++ q.slots

def truths : Atom → List Nat
  | truth i => [i]
  | _ => []

def sums : Atom → List Polynomial
  | truth _ => []
  | zero p => [p]
  | less p q => [p, q]

end Atom

def Term.nextSlot : Term → Nat
  | const _ => 0
  | var i => i + 1
  | neg t => t.nextSlot
  | add s t | sub s t | mul s t => max s.nextSlot t.nextSlot

def Formula.nextSlot : Formula → Nat
  | const _ => 0
  | var i => i + 1
  | not f => f.nextSlot
  | and f g | or f g | iff f g => max f.nextSlot g.nextSlot
  | eq s t | lt s t | le s t => max s.nextSlot t.nextSlot

def Polynomial.product? (limit : Nat) (ps : List Polynomial) : Option Polynomial :=
  (ps.mergeSort (fun p q => p.length ≤ q.length)).foldlM (fun p q => mul? limit p q) (constant 1)

/-- The sums that have names, which are the slots from `base` on. Sums are multiplied if that takes no
more than `limit` products. -/
structure Names where
  limit : Nat
  base : Nat
  sums : List Polynomial

namespace Names

def conditions (ns : Names) : List Condition :=
  ns.sums.zipIdx.map fun (p, k) => .ofZero ((Polynomial.slot (ns.base + k)).sub p)

def name (p : Polynomial) : StateM Names Polynomial := fun ns =>
  if p.length ≤ 1 then (p, ns)
  else
    let (c, q) := p.normal
    let k := ns.sums.idxOf q
    let ns := if k < ns.sums.length then ns else { ns with sums := ns.sums ++ [q] }
    ([([ns.base + k], c)], ns)

/-- The product of some sums, with names for them if it is too long. It is never too long if only one of
them has several summands. -/
def product (ps : List Polynomial) : StateM Names Polynomial := do
  if ps.any (·.isEmpty) then return []
  let (sums, single) := ps.partition (·.length > 1)
  let single := single.foldl .mulBy (.constant 1)
  match sums with
  | [] => return single
  | [p] => return single.mulBy p
  | sums =>
    match Polynomial.product? (← get).limit sums with
    | some p => return single.mulBy p
    | none => return (← sums.mapM name).foldl .mulBy single

def factors : Term → StateM Names (List Polynomial)
  | .const w => return [.constant w]
  | .var i => return [.slot i]
  | .neg t => return .constant (-1) :: (← factors t)
  | .add s t => return [(← product (← factors s)).add (← product (← factors t))]
  | .sub s t => return [(← product (← factors s)).sub (← product (← factors t))]
  | .mul s t => return (← factors s) ++ (← factors t)

def sum (t : Term) : StateM Names Polynomial := do product (← factors t)

def condition : Formula → StateM Names Condition
  | .const b => return .const b
  | .var i => return .literal (.truth i) true
  | .not f => return (← condition f).negate
  | .and f g => return (← condition f).both (← condition g)
  | .or f g => return (← condition f).either (← condition g)
  | .iff f g => return (← condition f).same (← condition g)
  | .eq s t => return .ofZero ((← sum s).sub (← sum t))
  | .lt s t => return .ofLess (← sum s) (← sum t)
  | .le s t => return (Condition.ofLess (← sum t) (← sum s)).negate

end Names

/-- Conditions that can hold together iff a formula can be true, and whether there are names in them. -/
def Formula.conditions (limit : Nat) (f : Formula) : List Condition × Bool :=
  let (c, ns) := (Names.condition f).run ⟨limit, f.nextSlot, []⟩
  (c :: ns.conditions, !ns.sums.isEmpty)

end Covenant.Guard
