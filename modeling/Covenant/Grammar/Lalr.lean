/-! Shift-reduce automata for context-free grammars. States are sets of rules with a dot; each rule
carries the terminals that may follow it, merged over all contexts that share the dotted rules.
Terminals and nonterminals are numbered, and a set of terminals is the number whose bits are its
members. The last terminal marks the end of the input and rule 0 is the start. -/

namespace Covenant.Lalr

inductive Sym where
  | terminal (index : Nat)
  | nonterminal (index : Nat)
  deriving DecidableEq, Repr

structure Rule where
  lhs : Nat
  rhs : List Sym
  deriving DecidableEq, Repr

structure Grammar where
  terminals : Nat
  nonterminals : Nat
  rules : Array Rule

/-- A rule with a dot in its right side, and the set of terminals that may follow the rule. -/
structure Item where
  rule : Nat
  dot : Nat
  follow : Nat
  deriving DecidableEq, Repr

inductive Move where
  | shift (state : Nat)
  | reduce (rule : Nat)
  | accept
  deriving DecidableEq, Repr

structure Automaton where
  moves : Array (Array (Option Move))
  gotos : Array (Array (Option Nat))

namespace Automaton

def move? (a : Automaton) (state terminal : Nat) : Option Move :=
  ((a.moves[state]?).bind (·[terminal]?)).join

def goto? (a : Automaton) (state nonterminal : Nat) : Option Nat :=
  ((a.gotos[state]?).bind (·[nonterminal]?)).join

end Automaton

/-- For each nonterminal the terminals that can begin it, and whether it can be empty. -/
structure Firsts where
  sets : Array Nat
  empties : Array Bool

namespace Firsts

def ofSeq (f : Firsts) : List Sym → Nat → Nat
  | [], follow => follow
  | .terminal t :: _, _ => 1 <<< t
  | .nonterminal n :: rest, follow =>
    f.sets[n]?.getD 0 ||| (if f.empties[n]?.getD false then f.ofSeq rest follow else 0)

def isEmptySeq (f : Firsts) (rhs : List Sym) : Bool :=
  rhs.all fun
    | .terminal _ => false
    | .nonterminal n => f.empties[n]?.getD false

def refine (g : Grammar) (f : Firsts) : Firsts :=
  g.rules.foldl (fun f r =>
    { sets := f.sets.modify r.lhs (· ||| f.ofSeq r.rhs 0)
      empties := f.empties.modify r.lhs (· || f.isEmptySeq r.rhs) }) f

end Firsts

def repeatN {α : Type} (f : α → α) : Nat → α → α
  | 0, a => a
  | n + 1, a => repeatN f n (f a)

/-- A nonterminal's set is final after as many rounds as there are nonterminals. -/
def Grammar.firsts (g : Grammar) : Firsts :=
  repeatN (Firsts.refine g) g.nonterminals
    ⟨Array.replicate g.nonterminals 0, Array.replicate g.nonterminals false⟩

namespace Item

def after (g : Grammar) (i : Item) : List Sym :=
  ((g.rules[i.rule]?).map (·.rhs.drop i.dot)).getD []

def next? (g : Grammar) (i : Item) : Option Sym :=
  (i.after g).head?

end Item

/-- For each nonterminal, the terminals that may follow it where the given items expect it; the
empty set if they do not. -/
def expand (g : Grammar) (f : Firsts) (kernel : List Item) : Array Nat :=
  let add (sets : Array Nat) (rhs : List Sym) (follow : Nat) : Array Nat :=
    match rhs with
    | .nonterminal n :: rest => sets.modify n (· ||| f.ofSeq rest follow)
    | _ => sets
  let seed := kernel.foldl (fun sets i => add sets (i.after g) i.follow)
    (Array.replicate g.nonterminals 0)
  let round (sets : Array Nat) : Array Nat :=
    g.rules.foldl (fun sets r =>
      match sets[r.lhs]?.getD 0 with
      | 0 => sets
      | follow => add sets r.rhs follow) sets
  let rec settle : Nat → Array Nat → Array Nat
    | 0, sets => sets
    | n + 1, sets =>
      let sets' := round sets
      if sets' == sets then sets else settle n sets'
  settle g.nonterminals seed

/-- The given items with all that they lead to before the next symbol. -/
def closure (g : Grammar) (f : Firsts) (kernel : List Item) : List Item :=
  let sets := expand g f kernel
  kernel ++ (List.range g.rules.size).filterMap fun r =>
    match (g.rules[r]?).bind (fun rule => sets[rule.lhs]?) with
    | some 0 | none => none
    | some follow => if kernel.any (fun i => i.rule = r && i.dot = 0) then none
        else some ⟨r, 0, follow⟩

def advance (g : Grammar) (items : List Item) (s : Sym) : List Item :=
  items.filterMap fun i => if i.next? g = some s then some { i with dot := i.dot + 1 } else none

def nextSyms (g : Grammar) (items : List Item) : List Sym :=
  (items.filterMap (·.next? g)).eraseDups

def core (items : List Item) : List (Nat × Nat) :=
  items.map fun i => (i.rule, i.dot)

def merge (old new : List Item) : List Item :=
  (old.zip new).map fun (i, j) => { i with follow := i.follow ||| j.follow }

structure Frontier where
  kernels : Array (List Item)
  pending : List Nat

def Frontier.insert (fr : Frontier) (kernel : List Item) : Frontier :=
  match fr.kernels.findIdx? (fun k => core k == core kernel) with
  | none => ⟨fr.kernels.push kernel, fr.pending ++ [fr.kernels.size]⟩
  | some i =>
    let old := fr.kernels[i]?.getD []
    let new := merge old kernel
    if new == old then fr
    else ⟨fr.kernels.set! i new, if fr.pending.contains i then fr.pending else fr.pending ++ [i]⟩

def Frontier.step (g : Grammar) (f : Firsts) (fr : Frontier) : Frontier :=
  match fr.pending with
  | [] => fr
  | i :: rest =>
    let items := closure g f (fr.kernels[i]?.getD [])
    (nextSyms g items).foldl (fun fr s => fr.insert (advance g items s)) { fr with pending := rest }

def Frontier.run (g : Grammar) (f : Firsts) : Nat → Frontier → Frontier
  | 0, fr => fr
  | fuel + 1, fr => if fr.pending.isEmpty then fr else Frontier.run g f fuel (fr.step g f)

def endMarker (g : Grammar) : Nat := g.terminals - 1

def stateTables (g : Grammar) (f : Firsts) (kernels : Array (List Item)) (kernel : List Item) :
    Array (Option Move) × Array (Option Nat) :=
  let items := closure g f kernel
  let target (s : Sym) : Option Nat :=
    kernels.findIdx? (fun k => core k == core (advance g items s))
  let syms := nextSyms g items
  let moves := syms.foldl (fun m s =>
    match s with
    | .terminal t => m.set! t ((target s).map Move.shift)
    | .nonterminal _ => m) (Array.replicate g.terminals none)
  let gotos := syms.foldl (fun m s =>
    match s with
    | .nonterminal n => m.set! n (target s)
    | .terminal _ => m) (Array.replicate g.nonterminals none)
  let moves := items.foldl (fun m i =>
    if (i.next? g).isSome then m
    else if i.rule = 0 then m.set! (endMarker g) (some .accept)
    else (List.range g.terminals).foldl (fun m t =>
      if i.follow.testBit t then m.set! t (some (.reduce i.rule)) else m) m) moves
  (moves, gotos)

/-- The automaton of a grammar. Every state is worked off again only when a follower was added, so
the fuel covers states times terminals with room to spare. -/
def Grammar.automaton (g : Grammar) : Automaton :=
  let f := g.firsts
  let start : Frontier := ⟨#[[⟨0, 0, 1 <<< endMarker g⟩]], [0]⟩
  let kernels := (start.run g f 100000).kernels
  let tables := kernels.map (stateTables g f kernels)
  ⟨tables.map (·.1), tables.map (·.2)⟩

end Covenant.Lalr
