import Covenant.Guard.Slack
import Std.Sat.AIG.CNF
import Std.Sat.AIG.RelabelNat
import Std.Tactic.BVDecide.Bitblast

/-! Conditions cut into bits. -/

namespace Covenant.Guard

open Std.Sat Std.Tactic.BVDecide

/-- Words and truth values of a slot are different unknowns. -/
def wordIndex (slot : Nat) : Nat := 2 * slot

def truthIndex (slot : Nat) : Nat := 2 * slot + 1

abbrev SlotBits (w : Nat) := Nat → BVExpr w

def freeSlot (w : Nat) : SlotBits w := fun i => .var (wordIndex i)

def bitLength : Nat → Nat → Nat
  | 0, _ => 0
  | fuel + 1, n => if n = 0 then 0 else 1 + bitLength fuel (n / 2)

def narrowSlot (base : Int) (k : Nat) (i : Nat) : BVExpr 64 :=
  if h : k ≤ 64 then
    let e : BVExpr 64 :=
      .append (.const (0 : BitVec (64 - k))) (.var (w := k) (wordIndex i)) (by omega)
    if base = 0 then e else .bin e .add (.const (BitVec.ofInt 64 base))
  else .var (wordIndex i)

def boundedSlot (b : Bounds) : SlotBits 64 := fun i =>
  let r := b.get i
  let direct := bitLength 64 r.hi.toNat
  let moved := bitLength 64 (r.hi - r.lo).toNat
  if 0 ≤ r.lo && direct ≤ moved + 1 then narrowSlot 0 direct i
  else if moved < 48 then narrowSlot r.lo moved i
  else .var (wordIndex i)

namespace Term

def bits {w : Nat} (s : SlotBits w) : Term → BVExpr w
  | const c => .const (c.setWidth w)
  | var i => s i
  | neg t => .bin (.un .not (bits s t)) .add (.const 1)
  | add t u => .bin (bits s t) .add (bits s u)
  | sub t u => .bin (bits s t) .add (.bin (.un .not (bits s u)) .add (.const 1))
  | mul t u => .bin (bits s t) .mul (bits s u)

end Term

/-- Turning the sign bit makes signed order unsigned. -/
def shifted (e : BVExpr 64) : BVExpr 64 :=
  .bin e .xor (.const (BitVec.intMin 64))

def zeroBits {w : Nat} (s : SlotBits w) (p : Polynomial) : BVLogicalExpr :=
  let (l, r) := p.split
  .literal (.bin (l.sum.bits s) .eq (r.sum.bits s))

def Atom.bits (s : SlotBits 64) : Atom → BVLogicalExpr
  | truth i => .literal (.getLsbD (w := 1) (.var (truthIndex i)) 0)
  | zero p => zeroBits s p
  | less p q => .literal (.bin (shifted (p.toTerm.bits s)) .ult (shifted (q.toTerm.bits s)))

namespace Condition

def bits (s : SlotBits 64) : Condition → BVLogicalExpr
  | const b => .const b
  | literal a true => a.bits s
  | literal a false => .not (a.bits s)
  | and c d => .gate .and (c.bits s) (d.bits s)
  | or c d => .gate .or (c.bits s) (d.bits s)
  | iff c d => .gate .beq (c.bits s) (d.bits s)

end Condition

def allBits (es : List BVLogicalExpr) : BVLogicalExpr :=
  es.foldr (fun e f => .gate .and e f) (.const true)

def clausesOf (e : BVLogicalExpr) : CNF Nat :=
  AIG.toCNF e.bitblast.relabelNat

namespace Goal

def clauses (g : Goal) : CNF Nat :=
  clausesOf (allBits (g.conditions.map (·.bits (boundedSlot g.bounds))))

def slotWidth (b : Bounds) (i : Nat) : Nat :=
  let r := b.get i
  if 0 ≤ r.lo then bitLength 64 r.hi.toNat else 64

def productSize (b : Bounds) : Monomial → Nat × Nat
  | [] => (1, 0)
  | [i] => (slotWidth b i, 0)
  | i :: is =>
    let (w, n) := productSize b is
    (min 64 (slotWidth b i + w), n + slotWidth b i * w)

def sizedProducts (g : Goal) : List (Monomial × Nat) :=
  let b := g.bounds
  (g.products.map fun m => (m, (productSize b m).2)).mergeSort fun s t => s.2 ≤ t.2

def largeProducts (limit : Nat) (g : Goal) : List Monomial :=
  (g.sizedProducts.foldl (fun (n, ms) (m, k) => if n + k ≤ limit then (n + k, ms) else (n, m :: ms))
    (0, [])).2

def additions (p : Polynomial) : Nat :=
  p.foldl (fun n (_, c) =>
    let d := if c.slt 0 then -c else c
    n + (List.range 64).countP fun k => d.getLsbD k) 0

def gates (c : Condition) : Nat :=
  c.atoms.foldl (fun n a => a.sums.foldl (fun n p => n + 64 * (4 + 8 * additions p)) (n + 1)) 1

/-- As many conditions as do not take more gates than `limit`, small ones first. -/
def withinGates (limit : Nat) (g : Goal) : Goal :=
  let sorted := (g.conditions.map fun c => (c, gates c)).mergeSort fun s t => s.2 ≤ t.2
  let kept := (sorted.foldl (fun (n, cs) (c, k) => if n + k ≤ limit then (n + k, c :: cs) else (n, cs))
    (0, [])).2
  ⟨g.facts.filter fun (a, positive) => kept.contains (.literal a positive),
    g.rest.filter kept.contains⟩

def equations (g : Goal) : List Polynomial :=
  g.facts.filterMap fun
    | (.zero p, true) => some p
    | _ => none

def lowClauses (w : Nat) (equations : List Polynomial) : CNF Nat :=
  clausesOf (allBits (equations.map (zeroBits (freeSlot w))))

end Goal

end Covenant.Guard
