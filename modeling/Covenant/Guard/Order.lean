import Covenant.Guard.Goal

/-! Chains of comparisons. A sum that comes before itself contradicts the order, and sums that come
neither before nor after each other are equal. -/

namespace Covenant.Guard

/-- That a sum is less than another, or not greater if not `strict`. The sums are numbered. -/
structure Step where
  low : Nat
  high : Nat
  strict : Bool
  deriving DecidableEq

namespace Step

/-- The sums that chains lead to from some sums, in at most `fuel` rounds. -/
def above (steps : List Step) : Nat → List Nat → List Nat
  | 0, ps => ps
  | fuel + 1, ps =>
    let next := (steps.filter fun s => ps.contains s.low && !ps.contains s.high).map (·.high)
    if next.isEmpty then ps else above steps fuel (ps ++ next.eraseDups)

def cyclic (steps : List Step) : List Step :=
  let ends := (steps.map (·.high)).eraseDups.map fun p => (p, above steps steps.length [p])
  steps.filter fun s => ((ends.lookup s.high).getD []).contains s.low

end Step

namespace Goal

def compared (g : Goal) : List Polynomial × List Polynomial :=
  let sums := (g.facts.flatMap fun
    | (.less p q, _) => [p, q]
    | _ => []).eraseDups
  let words := sums.filterMap (·.constant?)
  (sums, (words.mergeSort fun v w => v.toInt ≤ w.toInt).map .constant)

def orderSteps (g : Goal) : List Step :=
  let (sums, constants) := g.compared
  let facts := g.facts.filterMap fun
    | (.less p q, true) => some (⟨sums.idxOf p, sums.idxOf q, true⟩ : Step)
    | (.less p q, false) => some ⟨sums.idxOf q, sums.idxOf p, false⟩
    | _ => none
  facts ++ (constants.zip (constants.drop 1)).map fun (p, q) => ⟨sums.idxOf p, sums.idxOf q, true⟩

/-- Uses chains of comparisons; the result is `none` if there is no solution. -/
def useOrder? (unitsOnly : Bool) (g : Goal) : Option Goal :=
  let sums := g.compared.1
  let cyclic := Step.cyclic g.orderSteps
  if cyclic.any (·.strict) then none
  else
    match cyclic.map fun s => Condition.ofZero ((sums.getD s.low []).sub (sums.getD s.high [])) with
    | [] => some g
    | cs => ofConditions? unitsOnly (cs ++ g.conditions)

end Goal

end Covenant.Guard
