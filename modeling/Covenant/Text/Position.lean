/-! Places in a source text: line and column, both counted from one, in characters. -/

namespace Covenant

structure Pos where
  line : Nat
  column : Nat
  deriving DecidableEq, Repr, Inhabited

def Pos.unknown : Pos := ⟨0, 0⟩

def Pos.start : Pos := ⟨1, 1⟩

def Pos.text (p : Pos) : String :=
  p.line.repr ++ ":" ++ p.column.repr

/-- The place right after a character. Only a newline ends a line. -/
def Pos.next (p : Pos) (c : Char) : Pos :=
  if c = '\n' then ⟨p.line + 1, 1⟩ else ⟨p.line, p.column + 1⟩

def Pos.advance (p : Pos) (cs : List Char) : Pos :=
  cs.foldl Pos.next p

end Covenant
