import Covenant.Text.Quoted

/-! Documents in JSON, without spaces and in ASCII alone. -/

namespace Covenant.Text

inductive Document where
  | null
  | bool (b : Bool)
  | nat (n : Nat)
  | text (s : String)
  | array (items : List Document)
  | object (fields : List (String × Document))

namespace Document

def unit (n : Nat) : List Char := '\\' :: 'u' :: hexFixed 4 n

/-- A character beyond the first plane is a pair of code units. -/
def escapeChar (c : Char) : List Char :=
  if c = '"' then ['\\', '"']
  else if c = '\\' then ['\\', '\\']
  else if c = '\n' then ['\\', 'n']
  else if c = '\r' then ['\\', 'r']
  else if c = '\t' then ['\\', 't']
  else if c = '\x08' then ['\\', 'b']
  else if c = '\x0c' then ['\\', 'f']
  else if ' ' ≤ c && c ≤ '~' then [c]
  else if c.toNat < 0x10000 then unit c.toNat
  else
    let n := c.toNat - 0x10000
    unit (0xD800 + n / 0x400) ++ unit (0xDC00 + n % 0x400)

def quoted (s : String) : String :=
  "\"" ++ String.ofList (s.toList.flatMap escapeChar) ++ "\""

mutual

def render : Document → String
  | null => "null"
  | bool true => "true"
  | bool false => "false"
  | nat n => toString n
  | text s => quoted s
  | array items => "[" ++ ",".intercalate (renderItems items) ++ "]"
  | object fields => "\x7b" ++ ",".intercalate (renderFields fields) ++ "\x7d"

def renderItems : List Document → List String
  | [] => []
  | d :: ds => d.render :: renderItems ds

def renderFields : List (String × Document) → List String
  | [] => []
  | (k, d) :: fs => (quoted k ++ ":" ++ d.render) :: renderFields fs

end

def ofOption : Option String → Document
  | some s => text s
  | none => null

end Document

end Covenant.Text
