import Std.Tactic.BVDecide.LRAT.Checker

/-! A search for a satisfying assignment of clauses that learns from its conflicts. When none exists it ends with a
refutation: a list of clauses, each of which follows from earlier ones by unit propagation, down to the empty clause. It
is checked before it is believed. -/

namespace Covenant.Guard

/-- A chain of variables: `before` and `after` hold neighbours counted from one, and zero at the ends.
Stamps grow along the chain. Everything behind the cursor is in use. A queue that is `fixed` never
changes its order. -/
structure Recency where
  before : Array Nat
  after : Array Nat
  stamps : Array Nat
  last : Nat
  cursor : Nat
  clock : Nat
  fixed : Bool

namespace Recency

/-- Variables are taken from the smallest on in a fixed order, else at first from the largest on. -/
def start (n : Nat) (fixed : Bool) : Recency :=
  let up := Array.ofFn fun i : Fin n => if i.val + 1 < n then i.val + 2 else 0
  let down := Array.ofFn fun i : Fin n => i.val
  { before := if fixed then up else down
    after := if fixed then down else up
    stamps := Array.ofFn fun i : Fin n => if fixed then n - i.val else i.val + 1
    last := if n = 0 then 0 else if fixed then 1 else n
    cursor := if n = 0 then 0 else if fixed then 1 else n
    clock := n + 1
    fixed := fixed }

def touch (q : Recency) (v : Nat) : Recency :=
  match q with
  | ⟨before, after, stamps, last, cursor, clock, fixed⟩ =>
    let b := before.getD v 0
    let a := after.getD v 0
    if a = 0 then ⟨before, after, stamps, last, cursor, clock, fixed⟩
    else
      let before := before.setIfInBounds (a - 1) b
      let after := if b = 0 then after else after.setIfInBounds (b - 1) a
      ⟨before.setIfInBounds v last, (after.setIfInBounds (last - 1) (v + 1)).setIfInBounds v 0,
        stamps.setIfInBounds v clock, v + 1,
        if cursor = v + 1 then (if b = 0 then v + 1 else b) else cursor, clock + 1, fixed⟩

def touchAll (q : Recency) (vs : Array Nat) : Recency :=
  if q.fixed then q
  else
    let sorted := vs.qsort fun u v => q.stamps.getD u 0 < q.stamps.getD v 0
    sorted.foldl touch q

def release (q : Recency) (v : Nat) : Recency :=
  if q.cursor = 0 || q.stamps.getD (q.cursor - 1) 0 < q.stamps.getD v 0 then
    { q with cursor := v + 1 }
  else q

/-- Goes back from the cursor to a free variable, for some steps at most. Returns also how many steps are
left. -/
def take (values : Array UInt8) : Nat → Recency → Recency × Option Nat × Nat
  | 0, q => (q, none, 0)
  | fuel + 1, q =>
    if q.cursor = 0 then (q, none, fuel)
    else
      let v := q.cursor - 1
      if values.getD (2 * v) 0 == 0 then (q, some v, fuel)
      else take values fuel { q with cursor := q.before.getD v 0 }

end Recency

open Std.Sat Std.Tactic.BVDecide

/-- Twice the variable, plus one for its negation. -/
abbrev Lit := Nat

namespace Search

def litOf (l : Literal Nat) : Lit := 2 * l.1 + (if l.2 then 0 else 1)

def flip (l : Lit) : Lit := l ^^^ 1

def signed (l : Lit) : Int := if l % 2 = 0 then (l / 2 + 1 : Nat) else -((l / 2 + 1 : Nat) : Int)

end Search

/-- What is assumed at a moment. `values` tells by literal whether it is open (0), true (1) or false
(2). By variable, `levels` tells the number of guesses before it, `reasons` the clause that made it
true, counted from one, or zero for a guess, and `places` where it stands in the trail. -/
structure Trail where
  values : Array UInt8
  levels : Array Nat
  reasons : Array Nat
  places : Array Nat
  lits : Array Lit
  head : Nat

def Trail.assume (t : Trail) (level : Nat) (l : Lit) (reason : Nat) : Trail :=
  match t with
  | ⟨values, levels, reasons, places, lits, head⟩ =>
    let v := l / 2
    ⟨(values.setIfInBounds l 1).setIfInBounds (Search.flip l) 2, levels.setIfInBounds v level,
      reasons.setIfInBounds v reason, places.setIfInBounds v lits.size, lits.push l, head⟩

/-- Clause `c` has the literals of the arena from `starts[c]` up to `starts[c + 1]`; the first two are
watched. A watch list holds clauses, each followed by a literal that, if true, spares a visit. `units`
holds by variable the number of the clause that fixes it for good. `grades` holds by clause the number of
levels in it when it was learned, and zero for others. `fresh` counts the clauses learned since some were
last dropped. -/
structure Search where
  arena : Array Lit
  starts : Array Nat
  watches : Array (Array Nat)
  trail : Trail
  units : Array Nat
  limits : Array Nat
  queue : Recency
  phases : Array Bool
  seen : Array UInt8
  proof : Array LRAT.IntAction
  grades : Array Nat
  fresh : Nat

namespace Search

def numVars (s : Search) : Nat := s.units.size

def numClauses (s : Search) : Nat := s.starts.size - 1

def level (s : Search) : Nat := s.limits.size

def start (numVars : Nat) (fixedOrder : Bool) : Search where
  arena := #[]
  starts := #[0]
  watches := Array.replicate (2 * numVars) #[]
  trail :=
    { values := Array.replicate (2 * numVars) 0
      levels := Array.replicate numVars 0
      reasons := Array.replicate numVars 0
      places := Array.replicate numVars 0
      lits := #[]
      head := 0 }
  units := Array.replicate numVars 0
  limits := #[]
  queue := Recency.start numVars fixedOrder
  phases := Array.replicate numVars false
  seen := Array.replicate numVars 0
  proof := #[]
  grades := #[]
  fresh := 0

def clause (s : Search) (c : Nat) : Array Lit :=
  s.arena.extract (s.starts.getD c 0) (s.starts.getD (c + 1) 0)

def watch (arena : Array Lit) (starts : Array Nat) (watches : Array (Array Nat)) (i : Nat) :
    Array (Array Nat) :=
  let p := starts.getD i 0
  if starts.getD (i + 1) 0 < p + 2 then watches
  else
    let a := arena.getD p 0
    let b := arena.getD (p + 1) 0
    (watches.modify a fun w => (w.push i).push b).modify b fun w => (w.push i).push a

def attach (s : Search) (c : Array Lit) (grade : Nat) : Search :=
  match s with
  | ⟨arena, starts, watches, trail, units, limits, queue, phases, seen, proof, grades, fresh⟩ =>
    let i := starts.size - 1
    let arena := arena ++ c
    let starts := starts.push arena.size
    ⟨arena, starts, watch arena starts watches i, trail, units, limits, queue, phases, seen, proof,
      grades.push grade, fresh⟩

def freeSpot? (values : Array UInt8) (arena : Array Lit) : Nat → Nat → Option Nat
  | 0, _ => none
  | n + 1, k => if values.getD (arena.getD k 0) 0 != 2 then some k else freeSpot? values arena n (k + 1)

/-- Visits the clauses that watch a literal that became false. Entries of the list up to `i` are done,
and those to be kept stand before `j`. Returns a violated clause, counted from one, or zero. -/
def visit (starts : Array Nat) (level : Nat) (falseLit : Lit) :
    Nat → Nat → Nat → Array Nat → Array Lit → Array (Array Nat) → Trail →
      Nat × Array Lit × Array (Array Nat) × Trail
  | 0, _, j, list, arena, watches, trail =>
    (0, arena, watches.setIfInBounds falseLit (list.shrink j), trail)
  | n + 1, i, j, list, arena, watches, trail =>
    let c := list.getD i 0
    let blocker := list.getD (i + 1) 0
    if trail.values.getD blocker 0 == 1 then
      let list := (list.setIfInBounds j c).setIfInBounds (j + 1) blocker
      visit starts level falseLit n (i + 2) (j + 2) list arena watches trail
    else
      let p := starts.getD c 0
      let q := starts.getD (c + 1) 0
      let other := arena.getD p 0 ^^^ arena.getD (p + 1) 0 ^^^ falseLit
      let value := trail.values.getD other 0
      if value == 1 then
        let list := (list.setIfInBounds j c).setIfInBounds (j + 1) other
        visit starts level falseLit n (i + 2) (j + 2) list arena watches trail
      else
        match freeSpot? trail.values arena (q - p - 2) (p + 2) with
        | some k =>
          let l := arena.getD k 0
          let arena := ((arena.setIfInBounds p other).setIfInBounds (p + 1) l).setIfInBounds k falseLit
          let watches := watches.modify l fun w => (w.push c).push other
          visit starts level falseLit n (i + 2) j list arena watches trail
        | none =>
          let list := (list.setIfInBounds j c).setIfInBounds (j + 1) other
          if value == 2 then
            let rest := list.extract (i + 2) list.size
            (c + 1, arena, watches.setIfInBounds falseLit (list.shrink (j + 2) ++ rest), trail)
          else
            let arena := (arena.setIfInBounds p other).setIfInBounds (p + 1) falseLit
            visit starts level falseLit n (i + 2) (j + 2) list arena watches
              (trail.assume level other (c + 1))

/-- Draws all consequences of the literals made true. Returns a violated clause, counted from one, or
zero, and how many clauses were visited. -/
def spread (starts : Array Nat) (level : Nat) :
    Nat → Nat → Array Lit → Array (Array Nat) → Trail →
      Nat × Nat × Array Lit × Array (Array Nat) × Trail
  | 0, work, arena, watches, trail => (0, work, arena, watches, trail)
  | fuel + 1, work, arena, watches, trail =>
    if trail.head < trail.lits.size then
      let falseLit := flip (trail.lits.getD trail.head 0)
      let list := watches.getD falseLit #[]
      let watches := watches.setIfInBounds falseLit #[]
      let trail := { trail with head := trail.head + 1 }
      let visits := list.size / 2
      match visit starts level falseLit visits 0 0 list arena watches trail with
      | (0, arena, watches, trail) => spread starts level fuel (work + visits + 1) arena watches trail
      | (bad, arena, watches, trail) => (bad, work + visits + 1, arena, watches, trail)
    else (0, work, arena, watches, trail)

def propagate (s : Search) : Nat × Nat × Search :=
  match s with
  | ⟨arena, starts, watches, trail, units, limits, queue, phases, seen, proof, grades, fresh⟩ =>
    match spread starts limits.size (units.size + 1) 0 arena watches trail with
    | (bad, work, arena, watches, trail) =>
      (bad, work, ⟨arena, starts, watches, trail, units, limits, queue, phases, seen, proof, grades, fresh⟩)

def unitHints (units : Array Nat) (clause : Array Lit) (except : Lit) : Array Nat :=
  clause.filterMap fun l => if l = except then none else some (units.getD (l / 2) 0)

def recordUnits : Nat → Nat → Search → Search
  | 0, _, s => s
  | fuel + 1, k, s =>
    match s.trail.lits[k]? with
    | none => s
    | some l =>
      let v := l / 2
      if s.units.getD v 0 != 0 then recordUnits fuel (k + 1) s
      else
        let c := s.trail.reasons.getD v 0 - 1
        let lits := s.clause c
        if lits.size = 1 then
          recordUnits fuel (k + 1) { s with units := s.units.setIfInBounds v (c + 1) }
        else
          let id := s.numClauses + 1
          let hints := (unitHints s.units lits l).push (c + 1)
          let s := s.attach #[l] 0
          recordUnits fuel (k + 1) { s with
            units := s.units.setIfInBounds v id
            proof := s.proof.push (.addRup id #[signed l] hints) }

/-- What a conflict teaches so far. Variables marked 1 in `seen` are in the lesson or were replaced by
their reasons, those marked 2 follow from others in it, and those marked 3 do not. `pending` counts the
literals of the current level still to be replaced, `used` are variables whose reasons are used,
`fixed` are variables fixed for good, and `bumped` are those that mattered. -/
structure Lesson where
  seen : Array UInt8
  lits : Array Lit
  pending : Nat
  used : Array Nat
  fixed : Array Nat
  marked : Array Nat
  bumped : Array Nat

def absorb (arena : Array Lit) (levels : Array Nat) (level : Nat) : Nat → Nat → Lesson → Lesson
  | 0, _, n => n
  | fuel + 1, k, n =>
    let l := arena.getD k 0
    let v := l / 2
    if n.seen.getD v 0 != 0 then absorb arena levels level fuel (k + 1) n
    else
      match n with
      | ⟨seen, lits, pending, used, fixed, marked, bumped⟩ =>
        let seen := seen.setIfInBounds v 1
        let marked := marked.push v
        let at' := levels.getD v 0
        let n : Lesson :=
          if at' = 0 then ⟨seen, lits, pending, used, fixed.push v, marked, bumped⟩
          else
            let bumped := bumped.push v
            if at' = level then ⟨seen, lits, pending + 1, used, fixed, marked, bumped⟩
            else ⟨seen, lits.push l, pending, used, fixed, marked, bumped⟩
        absorb arena levels level fuel (k + 1) n

def absorbClause (s : Search) (c : Nat) (n : Lesson) : Lesson :=
  let p := s.starts.getD c 0
  absorb s.arena s.trail.levels s.level (s.starts.getD (c + 1) 0 - p) p n

def resolve (s : Search) : Nat → Lesson → Lit × Lesson
  | 0, n => (0, n)
  | k + 1, n =>
    let l := s.trail.lits.getD k 0
    let v := l / 2
    if n.seen.getD v 0 == 1 && s.trail.levels.getD v 0 = s.level then
      if n.pending ≤ 1 then (flip l, n)
      else
        let n := { n with pending := n.pending - 1, used := n.used.push v }
        resolve s k (absorbClause s (s.trail.reasons.getD v 0 - 1) n)
    else resolve s k n

/-- Whether a variable follows from the lesson: all other literals of its reason are in it or follow
from it in turn. -/
def follows (s : Search) : Nat → Nat → Lesson → Bool × Lesson
  | 0, _, n => (false, n)
  | fuel + 1, v, n =>
    let r := s.trail.reasons.getD v 0
    if r = 0 then (false, n)
    else
      let p := s.starts.getD (r - 1) 0
      let q := s.starts.getD r 0
      (List.range (q - p)).foldl (fun (ok, n) k =>
        if !ok then (false, n)
        else
          let u := s.arena.getD (p + k) 0 / 2
          let mark := n.seen.getD u 0
          if u = v || mark == 1 || mark == 2 then (true, n)
          else if mark == 3 then (false, n)
          else if s.trail.levels.getD u 0 = 0 then
            (true, { n with
              seen := n.seen.setIfInBounds u 1, marked := n.marked.push u, fixed := n.fixed.push u })
          else
            let (ok, n) := follows s fuel u n
            if ok then
              (true, { n with
                seen := n.seen.setIfInBounds u 2, marked := n.marked.push u, used := n.used.push u })
            else
              (false, { n with seen := n.seen.setIfInBounds u 3, marked := n.marked.push u }))
        (true, n)

def minimize (s : Search) (lits : Array Lit) (n : Lesson) : Array Lit × Lesson :=
  lits.foldl (fun (kept, n) l =>
    let (ok, n) := follows s 40 (l / 2) n
    if ok then (kept, { n with used := n.used.push (l / 2) }) else (kept.push l, n)) (#[], n)

def highest (levels : Array Nat) (lits : Array Lit) : Nat → Nat → Nat → Nat
  | 0, _, best => best
  | fuel + 1, k, best =>
    let best :=
      if levels.getD (lits.getD k 0 / 2) 0 > levels.getD (lits.getD best 0 / 2) 0 then k else best
    highest levels lits fuel (k + 1) best

def backjump (s : Search) (level : Nat) : Search :=
  if level < s.level then
    let keep := s.limits.getD level 0
    let undone := s.trail.lits.extract keep s.trail.lits.size
    match s with
    | ⟨arena, starts, watches, ⟨values, levels, reasons, places, lits, _⟩, units, limits, queue,
        phases, seen, proof, grades, fresh⟩ =>
      let values := undone.foldl (fun vs l => (vs.setIfInBounds l 0).setIfInBounds (flip l) 0) values
      let queue := undone.foldl (fun q l => q.release (l / 2)) queue
      let phases := undone.foldl (fun ps l => ps.setIfInBounds (l / 2) (l % 2 = 0)) phases
      ⟨arena, starts, watches, ⟨values, levels, reasons, places, lits.shrink keep, keep⟩, units,
        limits.shrink level, queue, phases, seen, proof, grades, fresh⟩
  else s

/-- Reasons in the order in which they became relevant. -/
def orderedHints (trail : Trail) (used : Array Nat) : Array Nat :=
  let sorted := used.qsort fun u v => trail.places.getD u 0 < trail.places.getD v 0
  sorted.map fun v => trail.reasons.getD v 0

def grade (levels : Array Nat) (lits : Array Lit) : Nat :=
  let sorted := (lits.map fun l => levels.getD (l / 2) 0).qsort (· < ·)
  (sorted.foldl (fun (n, last) k => if k = last then (n, last) else (n + 1, k)) (0, 0)).1

def dropped : Nat := 0xFFFFFFFF

/-- Drops the worse half of the clauses learned with more than three levels: they are no longer
watched. -/
def reduce (s : Search) : Search :=
  match s with
  | ⟨arena, starts, watches, trail, units, limits, queue, phases, seen, proof, grades, _⟩ =>
    let sorted := (grades.filter fun g => 3 < g && g < dropped).qsort (· < ·)
    let bound := sorted.getD (sorted.size / 2) 3
    let grades := grades.map fun g => if bound < g then dropped else g
    let watches := watches.map fun _ => #[]
    let watches := grades.size.fold (fun i _ watches =>
      if grades.getD i 0 = dropped then watches else watch arena starts watches i) watches
    ⟨arena, starts, watches, trail, units, limits, queue, phases, seen, proof, grades, 0⟩

/-- Learns a clause from a violated one and goes back to where it has a consequence. Returns also how many
variables were looked at. -/
def learn (s : Search) (violated : Nat) : Search × Nat :=
  let seen := s.seen
  let s := { s with seen := #[] }
  let n := absorbClause s violated ⟨seen, #[], 0, #[], #[], #[], #[]⟩
  let (top, n) := resolve s s.trail.lits.size n
  let (others, n) := minimize s n.lits n
  let hints := (n.fixed.map fun v => s.units.getD v 0) ++ orderedHints s.trail n.used
  let lits := #[top] ++ others
  let k := highest s.trail.levels lits (lits.size - 2) 2 1
  let lits := (lits.setIfInBounds 1 (lits.getD k 0)).setIfInBounds k (lits.getD 1 0)
  let level := if lits.size < 2 then 0 else s.trail.levels.getD (lits.getD 1 0 / 2) 0
  let seen := n.marked.foldl (fun a v => a.setIfInBounds v 0) n.seen
  let s := { s with seen, queue := s.queue.touchAll n.bumped }
  let id := s.numClauses + 1
  let grade := grade s.trail.levels lits
  let s := s.backjump level
  let s := { s with proof := s.proof.push (.addRup id (lits.map signed) (hints.push (violated + 1))) }
  let s := s.attach lits grade
  ({ s with trail := s.trail.assume level top id, fresh := s.fresh + 1 }, n.marked.size)

def choose (s : Search) : Search × Option Nat × Nat :=
  let fuel := s.numVars + 1
  let (queue, v, left) := s.queue.take s.trail.values fuel
  ({ s with queue }, v, fuel - left)

def guess (s : Search) (v : Nat) : Search :=
  let l := if s.phases.getD v false then 2 * v else 2 * v + 1
  let s := { s with limits := s.limits.push s.trail.lits.size }
  { s with trail := s.trail.assume s.level l 0 }

def close (s : Search) (violated : Nat) : Array LRAT.IntAction :=
  s.proof.push (.addEmpty (s.numClauses + 1)
    ((unitHints s.units (s.clause violated) (2 * s.numVars)).push (violated + 1)))

inductive Outcome where
  | refuted (proof : Array LRAT.IntAction)
  | satisfied
  | late

/-- The sequence 1, 1, 2, 1, 1, 2, 4, … of the lengths of runs. -/
def runLength : Nat → Nat → Nat
  | 0, _ => 1
  | fuel + 1, i =>
    let k := Nat.log2 (i + 1)
    if i + 1 = 1 <<< k then 1 <<< (k - 1) else runLength fuel (i + 1 - (1 <<< k))

def restart (s : Search) : Search :=
  let s := s.backjump 0
  if 2000 < s.fresh then s.reduce else s

/-- Searches until the effort, counted in clauses and variables looked at, is spent. After some conflicts
it starts over. Returns also the effort that is left. -/
def run : Nat → Nat → Nat → Search → Outcome × Nat
  | 0, _, _, _ => (.late, 0)
  | effort + 1, left, runs, s =>
    match propagate s with
    | (0, work, s) =>
      let effort := effort - work
      let s := if s.limits.isEmpty then recordUnits (s.numVars + 1) 0 s else s
      if left = 0 then run effort (64 * runLength 40 (runs + 1)) (runs + 1) s.restart
      else match s.choose with
        | (_, none, _) => (.satisfied, effort)
        | (s, some v, steps) => run (effort - steps) left runs (s.guess v)
    | (bad + 1, work, s) =>
      if s.limits.isEmpty then (.refuted ((recordUnits (s.numVars + 1) 0 s).close bad), effort)
      else
        let high := s.trail.lits.size
        let (s, looked) := s.learn bad
        run (effort - work - 4 * (high - s.trail.lits.size + looked)) (left - 1) runs s
termination_by effort => effort

def load (s : Search) (cs : List (CNF.Clause Nat)) : Search :=
  cs.foldl (fun s c => s.attach (c.map litOf).eraseDups.toArray 0) s

def fixUnits (index : Nat) : Nat → Search → Search × Option Nat
  | 0, s => (s, none)
  | fuel + 1, s =>
    let p := s.starts.getD index 0
    let n := s.starts.getD (index + 1) 0 - p
    if n = 0 then (s, some index)
    else if n = 1 then
      let l := s.arena.getD p 0
      match s.trail.values.getD l 0 with
      | 0 => fixUnits (index + 1) fuel { s with
          trail := s.trail.assume 0 l (index + 1), units := s.units.setIfInBounds (l / 2) (index + 1) }
      | 1 => fixUnits (index + 1) fuel s
      | _ => (s, some index)
    else fixUnits (index + 1) fuel s

def outcome (cnf : CNF Nat) (fixedOrder : Bool) (effort : Nat) :
    Outcome × Nat :=
  let s := (start cnf.numLiterals fixedOrder).load cnf.clauses.toList
  match fixUnits 0 s.numClauses s with
  | (s, some violated) => (.refuted (s.close violated), effort)
  | (s, none) => s.run effort 64 1

end Search

end Covenant.Guard
