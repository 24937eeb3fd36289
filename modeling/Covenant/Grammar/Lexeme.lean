import Covenant.Grammar.Terminal
import Covenant.Text.Character
import Covenant.Text.Position

/-! Lexemes. Which terminals a text may start with depends on the parser's state: a word is a keyword
only where the keyword can stand, and where no name can stand a keyword needs no end of its own. -/

namespace Covenant

namespace Lexeme

def isBlank (c : Char) : Bool :=
  c = ' ' || c = '\t' || c = '\x0c' || c = '\r' || c = '\n'

def isNameStart (c : Char) : Bool :=
  c.isAlpha || c = '_'

def isNameChar (c : Char) : Bool :=
  c.isAlphanum || c = '_'

/-- The rest of a line, its newline included. -/
def dropLine (p : Pos) : List Char → Pos × List Char
  | [] => (p, [])
  | c :: cs => if c = '\n' then (p, c :: cs) else dropLine (p.next c) cs

/-- What follows the first `*/`. -/
def closeComment? (p : Pos) : List Char → Option (Pos × List Char)
  | [] => none
  | '*' :: '/' :: cs => some (p.advance ['*', '/'], cs)
  | c :: cs => closeComment? (p.next c) cs

theorem dropLine_length (p : Pos) (cs : List Char) : (dropLine p cs).2.length ≤ cs.length := by
  induction cs generalizing p with
  | nil => simp [dropLine]
  | cons c cs ih =>
    simp only [dropLine]
    split
    · simp
    · exact Nat.le_succ_of_le (ih _)

theorem closeComment?_length {p q : Pos} {cs rest : List Char}
    (h : closeComment? p cs = some (q, rest)) : rest.length < cs.length := by
  fun_induction closeComment? p cs with
  | case1 => simp at h
  | case2 p cs =>
    simp only [Option.some.injEq, Prod.mk.injEq] at h
    rw [← h.2, List.length_cons, List.length_cons]
    omega
  | case3 p c cs _ ih => exact Nat.lt_succ_of_lt (ih h)

def skip (p : Pos) : List Char → Pos × List Char
  | [] => (p, [])
  | '/' :: '/' :: cs =>
    skip (dropLine (p.advance ['/', '/']) cs).1 (dropLine (p.advance ['/', '/']) cs).2
  | '/' :: '*' :: cs =>
    match _h : closeComment? (p.advance ['/', '*']) cs with
    | some (q, rest) => skip q rest
    | none => (p, '/' :: '*' :: cs)
  | c :: cs => if isBlank c then skip (p.next c) cs else (p, c :: cs)
termination_by cs => cs.length
decreasing_by
  · have := dropLine_length (p.advance ['/', '/']) cs
    simp only [List.length_cons]; omega
  · have := closeComment?_length _h
    simp only [List.length_cons]; omega
  · simp

/-- What follows the closing quote of a string whose opening quote is gone. A backslash takes the
next character with it. A string does not cross a line. -/
def closeString? : List Char → Option (List Char)
  | [] => none
  | '"' :: cs => some cs
  | '\n' :: _ => none
  | '\\' :: c :: cs => if c = '\n' then none else closeString? cs
  | '\\' :: [] => none
  | _ :: cs => closeString? cs

def word? (cs : List Char) : Option Terminal :=
  Terminal.words.find? (·.chars = cs)

/-- The first admitted terminal of a list that the text starts with. -/
def fixed? (terminals : List Terminal) (admits : Terminal → Bool) (cs : List Char) :
    Option (Terminal × Nat) :=
  (terminals.find? fun t => admits t && t.chars.isPrefixOf cs).map fun t => (t, t.chars.length)

def scan? (admits : Terminal → Bool) : List Char → Option (Terminal × Nat)
  | [] => none
  | c :: cs =>
    if isNameStart c then
      if admits .name then
        let text := (c :: cs).takeWhile isNameChar
        match word? text with
        | some w => some (if admits w then w else .name, text.length)
        | none => some (.name, text.length)
      else fixed? Terminal.words admits (c :: cs)
    else if c = '"' then
      if admits .string then
        (closeString? cs).map fun rest => (.string, cs.length + 1 - rest.length)
      else none
    else if Text.isDigit c then
      if admits .int then some (.int, ((c :: cs).takeWhile Text.isDigit).length) else none
    else fixed? Terminal.marks admits (c :: cs)

end Lexeme

structure Token where
  terminal : Terminal
  text : String
  pos : Pos
  deriving DecidableEq, Repr

structure Input where
  rest : List Char
  pos : Pos
  deriving DecidableEq, Repr

namespace Input

def ofString (s : String) : Input := ⟨s.toList, .start⟩

def skip (i : Input) : Input :=
  let (p, cs) := Lexeme.skip i.pos i.rest
  ⟨cs, p⟩

def token? (i : Input) (admits : Terminal → Bool) : Option (Token × Input) :=
  (Lexeme.scan? admits i.rest).map fun (t, n) =>
    (⟨t, String.ofList (i.rest.take n), i.pos⟩,
     ⟨i.rest.drop n, i.pos.advance (i.rest.take n)⟩)

end Input

end Covenant
