import Covenant.Guard.Interval

/-! A set of conditions that are to hold together, taken apart into single facts. Equations that determine a slot are
used up. A goal has a solution iff each of its parts without a slot in common has. -/

namespace Covenant.Guard

/-- `facts` are atoms with the values they must have; `rest` are conditions that are no facts. -/
structure Goal where
  facts : List (Atom × Bool)
  rest : List Condition
  deriving Repr

namespace Goal

def empty : Goal := ⟨[], []⟩

def conditions (g : Goal) : List Condition :=
  g.facts.map (fun (a, positive) => .literal a positive) ++ g.rest

def eval (v : Valuation) (g : Goal) : Bool := g.conditions.all (·.eval v)

def solved? (unitsOnly : Bool) : Atom → Bool → Option (Nat × Polynomial)
  | .zero p, true => p.solve? unitsOnly
  | _, _ => none

def substAll? (i : Nat) (q : Polynomial) (cs : List Condition) : Option (List Condition) :=
  cs.mapM (Condition.mapAtoms? (Atom.subst? i q))

/-- Adds conditions to a goal; the result is `none` if they cannot hold together with it. With
`unitsOnly` only equations are used up in which the slot has the coefficient one or minus one. -/
def assume? (unitsOnly : Bool) : Nat → List Condition → Goal → Option Goal
  | 0, cs, g => some { g with rest := cs ++ g.rest }
  | _ + 1, [], g => some g
  | fuel + 1, c :: cs, g =>
    match c.decideAtoms (g.facts.lookup ·) with
    | .const true => assume? unitsOnly fuel cs g
    | .const false => none
    | .and c d => assume? unitsOnly fuel (c :: d :: cs) g
    | .literal a positive =>
      let used := (solved? unitsOnly a positive).bind fun (i, q) =>
        substAll? i q (cs ++ g.conditions)
      match used with
      | some cs => assume? unitsOnly fuel cs empty
      | none =>
        let (changed, kept) := g.rest.partition (·.atoms.contains a)
        assume? unitsOnly fuel (changed ++ cs) ⟨(a, positive) :: g.facts, kept⟩
    | c => assume? unitsOnly fuel cs { g with rest := c :: g.rest }

/-- Enough to look at each part once for each equation that is used up, and at the parts that they
make. -/
def steps (cs : List Condition) : Nat :=
  let n := cs.foldl (fun n c => n + c.size) 1
  1000 + 10 * n * n

def bounds (g : Goal) : Bounds := .ofFacts g.facts g.rest

/-- Uses the bounds of slots: a fact that they contradict has no solution, and conditions that they
decide are no longer needed. -/
def useBounds? (unitsOnly : Bool) (g : Goal) : Option Goal :=
  let b := g.bounds
  if b.any (·.2.isEmpty) then none
  else if g.facts.any fun (a, positive) => b.decide? a == some !positive then none
  else
    let rest := g.rest.map (·.decideAtoms b.decide?)
    assume? unitsOnly (steps rest) rest { g with rest := [] }

/-- Repeats the use of bounds until nothing changes. -/
def settle? (unitsOnly : Bool) : Nat → Goal → Option Goal
  | 0, g => some g
  | fuel + 1, g =>
    match g.useBounds? unitsOnly with
    | none => none
    | some h =>
      if h.rest.length = g.rest.length && h.facts.length = g.facts.length then some h
      else settle? unitsOnly fuel h

def ofConditions? (unitsOnly : Bool) (cs : List Condition) : Option Goal :=
  (assume? unitsOnly (steps cs) cs empty).bind (settle? unitsOnly 8)

def atoms (g : Goal) : List Atom := g.conditions.flatMap (·.atoms)

def openEquation? (g : Goal) : Option Atom :=
  (g.rest.flatMap (·.atoms)).find? fun
    | .zero _ => true
    | _ => false

end Goal

def Condition.unknowns (c : Condition) : List Nat :=
  (c.atoms.flatMap fun a => a.words.map (2 * ·) ++ a.truths.map (2 * · + 1)).eraseDups

namespace Goal

structure Part where
  unknowns : List Nat
  goal : Goal

/-- Adds a part to parts with different unknowns, joining what has unknowns in common. -/
def Part.join (p : Part) (parts : List Part) : List Part :=
  let (touching, apart) := parts.partition fun q => q.unknowns.any p.unknowns.contains
  touching.foldl (fun p q =>
    ⟨(p.unknowns ++ q.unknowns).eraseDups,
      ⟨q.goal.facts ++ p.goal.facts, q.goal.rest ++ p.goal.rest⟩⟩) p :: apart

def parts (g : Goal) : List Part :=
  let facts := g.facts.map fun (a, positive) =>
    (⟨(Condition.literal a positive).unknowns, ⟨[(a, positive)], []⟩⟩ : Part)
  let rest := g.rest.map fun c => (⟨c.unknowns, ⟨[], [c]⟩⟩ : Part)
  (facts ++ rest).foldl (fun parts p => p.join parts) []

def length (g : Goal) : Nat :=
  g.atoms.foldl (fun n a => a.sums.foldl (fun n p => n + p.length) (n + 1)) 0

def components (g : Goal) : List Goal :=
  (g.parts.map (·.goal)).mergeSort fun g h => g.length ≤ h.length

end Goal

end Covenant.Guard
