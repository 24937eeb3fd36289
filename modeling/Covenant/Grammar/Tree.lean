import Covenant.Diagnostic.SyntaxError
import Covenant.Grammar.Lexeme
import Covenant.Grammar.Rules

/-! Parse trees and the run of the automaton over a text. A node begins at its first token, whether
the tree keeps that token or not; parentheses leave the place of what they enclose alone, but what
begins with them begins at the outermost one. -/

namespace Covenant

inductive Tree where
  | leaf (token : Token)
  | node (form : Form) (pos : Pos) (start : Pos) (children : List Tree)
  | many (start : Pos) (children : List Tree)

namespace Tree

def start : Tree → Pos
  | leaf t => t.pos
  | node _ _ s _ => s
  | many s _ => s

def withStart (p : Pos) : Tree → Tree
  | leaf t => leaf t
  | node f q _ cs => node f q p cs
  | many _ cs => many p cs

def kept : Tree → List Tree
  | leaf t => if t.terminal.isKept then [leaf t] else []
  | many _ cs => cs
  | t => [t]

def startOf : List Tree → Pos
  | [] => .unknown
  | t :: _ => t.start

def ofParts (action : Action) (parts : List Tree) : Tree :=
  let p := startOf parts
  let children := parts.flatMap kept
  match action with
  | .node form => node form p p children
  | .splice => many p children
  | .pass =>
    match children with
    | [t] => t.withStart p
    | _ => many p children

end Tree

structure StackFrame where
  state : Nat
  tree : Tree

def topState : List StackFrame → Nat
  | [] => 0
  | f :: _ => f.state

inductive Fed where
  | shifted (stack : List StackFrame)
  | accepted (tree : Tree)
  | refused (state : Nat)

namespace Lalr.Automaton

def admits (a : Automaton) (state : Nat) (t : Terminal) : Bool :=
  (a.move? state t.ctorIdx).isSome

def reduce? (a : Automaton) (rule : Nat) (stack : List StackFrame) : Option (List StackFrame) :=
  match Production.all[rule]? with
  | none => none
  | some p =>
    let n := p.rhs.length
    let below := stack.drop n
    match a.goto? (topState below) p.lhs.ctorIdx with
    | none => none
    | some s => some (⟨s, Tree.ofParts p.action ((stack.take n).reverse.map (·.tree))⟩ :: below)

def feed (a : Automaton) : Nat → List StackFrame → Token → Fed
  | 0, stack, _ => .refused (topState stack)
  | fuel + 1, stack, t =>
    match a.move? (topState stack) t.terminal.ctorIdx with
    | none => .refused (topState stack)
    | some (.shift s) => .shifted (⟨s, .leaf t⟩ :: stack)
    | some (.reduce r) =>
      match a.reduce? r stack with
      | none => .refused (topState stack)
      | some stack => a.feed fuel stack t
    | some .accept =>
      match stack with
      | [f] => .accepted f.tree
      | _ => .refused (topState stack)

/-- Between two tokens no state comes back with the same stack, so a run of reductions is bounded by
the height of the stack and the number of nonterminals. -/
def feedFuel (stack : List StackFrame) : Nat :=
  (stack.length + 1) * (Nonterminal.count + 1)

end Lalr.Automaton

namespace SyntaxError

def refused (admits : Terminal → Bool) (t : Token) : SyntaxError where
  cause := if t.terminal = .endOfInput then .unexpectedEnd else .unexpectedToken t.text
  pos := t.pos
  token := some t.text
  expected := (Terminal.all.filter admits).map (·.describe)

def lookedFor (admits : Terminal → Bool) : List Terminal :=
  Terminal.all.filter fun t =>
    admits t && t ≠ .endOfInput && !(admits .name && Terminal.words.contains t)

/-- No admitted terminal starts here. The error shows the token that does stand here, if any does,
else the character. -/
def unmatched (admits : Terminal → Bool) (i : Input) : SyntaxError :=
  let expected := (lookedFor admits).map (·.describe)
  match i.token? (fun _ => true) with
  | some (t, _) => ⟨.unexpectedToken t.text, t.pos, some t.text, expected⟩
  | none =>
    match i.rest with
    | c :: _ => ⟨.unexpectedChar c, i.pos, some c.toString, expected⟩
    | [] => ⟨.unexpectedEnd, i.pos, some "", expected⟩

end SyntaxError

def endToken (last : Option Token) : Token :=
  ⟨.endOfInput, "", (last.map (·.pos)).getD .start⟩

/-- Reads tokens and feeds them to the automaton until it accepts or refuses. Each round takes at
least one character off the text. -/
def parseTokens (a : Lalr.Automaton) : Nat → List StackFrame → Option Token → Input →
    Except SyntaxError Tree
  | fuel, stack, last, input =>
    let input := input.skip
    let admits := a.admits (topState stack)
    match input.rest, fuel with
    | [], _ =>
      match a.feed (Lalr.Automaton.feedFuel stack) stack (endToken last) with
      | .accepted t => .ok t
      | .shifted s => .error (.refused (a.admits (topState s)) (endToken last))
      | .refused s => .error (.refused (a.admits s) (endToken last))
    | _, 0 => .error (.unmatched admits input)
    | _, fuel + 1 =>
      match input.token? admits with
      | none => .error (.unmatched admits input)
      | some (t, input) =>
        match a.feed (Lalr.Automaton.feedFuel stack) stack t with
        | .shifted stack => parseTokens a fuel stack (some t) input
        | .accepted _ => .error (.refused admits t)
        | .refused s => .error (.refused (a.admits s) t)

def parseTree (source : String) : Except SyntaxError Tree :=
  let input := Input.ofString source
  parseTokens contractAutomaton input.rest.length [] none input

end Covenant
