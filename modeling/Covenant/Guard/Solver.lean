import Covenant.Guard.Bits
import Covenant.Guard.Condition
import Covenant.Guard.Order
import Covenant.Guard.Sample
import Covenant.Guard.Search
import Covenant.Guard.Shorten
import Covenant.Guard.Slack

/-! Deciding that a formula has no solution. -/

namespace Covenant.Guard

open Std.Sat Std.Tactic.BVDecide

inductive Verdict where
  | refuted
  | satisfied
  | unknown
  deriving DecidableEq, Repr

/-- A way to decide goals with limited effort; it returns also the effort that is left. -/
abbrev Decider := Nat → Goal → Verdict × Nat

abbrev Decider.Result := Verdict × Nat

/-- Searches for a solution of clauses. A refutation counts only if it passes a check. -/
def decideClauses (cnf : CNF Nat) (fixedOrder : Bool) (effort : Nat) : Verdict × Nat :=
  match Search.outcome cnf fixedOrder effort with
  | (.refuted proof, left) => (if LRAT.check proof cnf then .refuted else .unknown, left)
  | (.satisfied, left) => (.satisfied, left)
  | (.late, left) => (.unknown, left)

def lowSize (w : Nat) (p : Polynomial) : Nat := p.foldl (fun n (m, _) => n + m.length * w * w) 0

def lowRefutes (equations : List Polynomial) : Bool :=
  [2, 3, 4, 6, 8, 12].any fun w =>
    match equations.filter fun p => lowSize w p ≤ 20000 with
    | [] => false
    | ps => (decideClauses (Goal.lowClauses w ps) true 200000).1 == .refuted

def Goal.lowRefutes (g : Goal) : Bool :=
  match g.equations with
  | [] => false
  | [p] => Guard.lowRefutes [p]
  | ps => (ps.take 8).any (fun p => Guard.lowRefutes [p]) || Guard.lowRefutes ps

def decideRuns (cnf : CNF Nat) : List (Bool × Nat) → Decider.Result → Decider.Result
  | [], r => r
  | (fixedOrder, share) :: runs, (_, effort) =>
    match decideClauses cnf fixedOrder (min share effort) with
    | (.unknown, left) => decideRuns cnf runs (.unknown, effort - min share effort + left)
    | (v, left) => (v, effort - min share effort + left)

/-- Products beyond this number of pairs of bits are not cut into bits. -/
def pairLimit : Nat := 12000

def gateLimit : Nat := 200000

def lengthLimit : Nat := 100

def decideAll (cnf : CNF Nat) (effort : Nat) : Decider.Result :=
  let runs :=
    if cnf.clauses.size < 20000 then [(false, effort / 20), (true, effort / 2), (false, effort / 2)]
    else [(true, effort / 8), (false, effort / 8)]
  decideRuns cnf runs (.unknown, effort)

/-- Decides a goal by the bits of what is not too large in it, at first with an unknown of its own for
each product. -/
def decideBits : Decider := fun effort g =>
  let h := (g.abridge lengthLimit).withinGates gateLimit
  let effort := effort - 16 * h.conditions.foldl (fun n c => n + Goal.gates c) 0
  if effort = 0 then (.unknown, 0)
  else if !h.products.isEmpty && (decideClauses h.linear.clauses false 5000000).1 == .refuted then
    (.refuted, effort)
  else
    match decideAll (h.relax (h.largeProducts pairLimit)).clauses effort with
    | (.refuted, left) => (.refuted, left)
    | (_, left) => (.unknown, left)

def giveUp : Decider := fun effort _ => (.unknown, effort)

def Condition.disjuncts : Condition → List Condition
  | .or c d => c.disjuncts ++ d.disjuncts
  | c => [c]

def Condition.isEquation : Condition → Bool
  | .literal (.zero _) true => true
  | _ => false

def Goal.alternatives? (g : Goal) : Option (List Condition) :=
  let choices := (g.rest.map (·.disjuncts)).filter fun cs =>
    1 < cs.length && (g.rest.length ≤ 3 || cs.any (·.isEquation))
  (choices.mergeSort fun cs ds => cs.length ≤ ds.length).head?

/-- Conditions one of which holds in every solution of a goal. -/
def Goal.cases? (g : Goal) : Option (List Condition) :=
  let roots := g.equations.findSome? fun p =>
    (Root.all? 64 p).map fun (i, rs) =>
      rs.map fun r => Condition.ofZero ((Polynomial.slot i).sub (.constant r))
  let truth := g.openEquation?.map fun a => [Condition.literal a true, .literal a false]
  roots <|> g.alternatives? <|> truth

def decideCases (decide : Condition → Nat → Verdict × Nat) : List Condition → Nat → Verdict × Nat
  | [], effort => (.refuted, effort)
  | c :: cs, effort =>
    match decide c effort with
    | (.refuted, effort) => decideCases decide cs effort
    | r => r

def decideParts (decide : Decider) : List Goal → Nat → Decider.Result
  | [], effort => (.satisfied, effort)
  | g :: gs, effort =>
    let share := effort / (gs.length + 1)
    match decide share g with
    | (.refuted, left) => (.refuted, effort - share + left)
    | (v, left) =>
      match decideParts decide gs (effort - share + left) with
      | (.satisfied, left) => (v, left)
      | r => r

/-- Decides a goal by trying values, by its lowest bits and by distances, and case by case with `next`.
What remains is for `leaf`. -/
def decidePart (unitsOnly : Bool) (leaf next : Decider) : Decider := fun effort g =>
  if Sample.succeeds g then (.satisfied, effort)
  else
    match Sample.exhaust? 2000000 g with
    | some b => (if b then .satisfied else .refuted, effort)
    | none =>
      if Sample.narrowRefutes 1000000 g || g.lowRefutes || g.contradicts unitsOnly 4 then
        (.refuted, effort)
      else
        match g.cases? with
        | none =>
          let attempts := min 40 (100000 / (Sample.weight g * g.equations.length + 1))
          if g.equations.any fun p => Sample.succeedsAlong g p attempts then (.satisfied, effort)
          else leaf effort g
        | some cs =>
          let decide (c : Condition) (effort : Nat) : Decider.Result :=
            match Goal.ofConditions? unitsOnly (c :: g.conditions) with
            | none => (.refuted, effort)
            | some h => next effort h
          match decideCases decide cs effort with
          | (.unknown, effort) => leaf effort g
          | r => r

/-- Decides a goal by the order of its sums and then part by part, with at most `fuel` cases below each
other. -/
def decideGoal (unitsOnly : Bool) (leaf : Decider) : Nat → Decider
  | 0, effort, g => leaf effort g
  | fuel + 1, effort, g =>
    match g.useOrder? unitsOnly with
    | none => (.refuted, effort)
    | some g =>
      decideParts (decidePart unitsOnly leaf (decideGoal unitsOnly leaf fuel)) g.components effort

def decideWords (unitsOnly : Bool) (cs : List Condition) : Verdict :=
  match Goal.ofConditions? unitsOnly cs with
  | none => .refuted
  | some g => (decideGoal unitsOnly giveUp 8 0 g).1

def decideConditions (effort : Nat) (cs : List Condition) : Verdict :=
  match (Goal.ofConditions? true cs).bind (Goal.shorten? true 16) with
  | none => .refuted
  | some g => (decideGoal true decideBits 8 effort g).1

def firstVerdict : List (Unit → Verdict) → Verdict
  | [] => .unknown
  | f :: fs =>
    match f () with
    | .unknown => firstVerdict fs
    | v => v

/-- Whether a formula was shown to have no solution. Products are multiplied out, and if that does not
help all factors that are sums get names. -/
def refutes (f : Formula) : Bool :=
  if Sample.satisfies f then false
  else
    let effort := 60000000
    let (cs, _) := f.conditions Polynomial.sizeLimit
    let (ds, named) := f.conditions 1
    let attempts : List (Unit → Verdict) :=
      if named && cs != ds then
        [fun _ => decideWords false cs, fun _ => decideWords true ds,
          fun _ => decideConditions (effort / 2) cs, fun _ => decideConditions (effort / 2) ds]
      else [fun _ => decideWords false cs, fun _ => decideConditions effort cs]
    firstVerdict attempts == .refuted

/-- The solver for a limit. What it spends has bounds of its own, so the limit is not needed. -/
def solve (_ : Nat) (f : Formula) : Bool := refutes f

end Covenant.Guard
