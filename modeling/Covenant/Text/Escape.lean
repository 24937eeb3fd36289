/-! The escapes of string literals: a backslash and a letter stand for one character. -/

namespace Covenant.Text

def escaped? : Char → Option Char
  | 'n' => some '\n'
  | 't' => some '\t'
  | 'r' => some '\r'
  | '\\' => some '\\'
  | '"' => some '"'
  | '0' => some '\x00'
  | _ => none

/-- Why the text between two quotes stands for nothing: a letter that is no escape, or a backslash at the very end,
where the letter would have to be read past it. -/
inductive EscapeFault where
  | letter (c : Char)
  | pastEnd
  deriving DecidableEq, Repr

/-- What the text between the quotes of a literal stands for, or the first fault in it. -/
def unescape : List Char → Except EscapeFault (List Char)
  | [] => .ok []
  | ['\\'] => .error .pastEnd
  | '\\' :: c :: cs =>
    match escaped? c with
    | none => .error (.letter c)
    | some d =>
      match unescape cs with
      | .ok ds => .ok (d :: ds)
      | .error e => .error e
  | c :: cs =>
    match unescape cs with
    | .ok ds => .ok (c :: ds)
    | .error e => .error e

end Covenant.Text
