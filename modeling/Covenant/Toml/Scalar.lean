import Covenant.Toml.Value

/-! Reading blanks, comments, strings, keys, numbers and points in time. Each reader returns the text
after what it read. -/

namespace Covenant.Toml

def isBlank (c : Char) : Bool := c = ' ' || c = '\t'

def isBlankOrNewline (c : Char) : Bool := isBlank c || c = '\n'

/-- Control characters, the tab apart, stand neither in comments nor in strings. -/
def isControl (c : Char) : Bool := (c < ' ' && c ≠ '\t') || c = '\x7f'

def skipBlank (cs : List Char) : List Char := cs.dropWhile isBlank

def skipComment? : List Char → Option (List Char)
  | '#' :: cs =>
    if (cs.takeWhile (· ≠ '\n')).any isControl then none else some (cs.dropWhile (· ≠ '\n'))
  | cs => some cs

/-- Skips blanks, line ends and comments; at most `fuel` comments. -/
def skipLines? : Nat → List Char → Option (List Char)
  | 0, cs => some (cs.dropWhile isBlankOrNewline)
  | fuel + 1, cs =>
    match cs.dropWhile isBlankOrNewline with
    | '#' :: rest => (skipComment? ('#' :: rest)).bind (skipLines? fuel)
    | rest => some rest

def hexValue? (c : Char) : Option Nat :=
  if '0' ≤ c && c ≤ '9' then some (c.toNat - 48)
  else if 'a' ≤ c && c ≤ 'f' then some (c.toNat - 87)
  else if 'A' ≤ c && c ≤ 'F' then some (c.toNat - 55)
  else none

def hexChar? (cs : List Char) : Option Char :=
  match cs.foldlM (fun n c => (hexValue? c).map (16 * n + ·)) 0 with
  | some n => if n.isValidChar then some (Char.ofNat n) else none
  | none => none

def simpleEscape? : Char → Option Char
  | 'b' => some '\x08'
  | 't' => some '\t'
  | 'n' => some '\n'
  | 'f' => some '\x0c'
  | 'r' => some '\r'
  | '"' => some '"'
  | '\\' => some '\\'
  | _ => none

def literal? (cs : List Char) : Option (String × List Char) :=
  let body := cs.takeWhile (· ≠ '\'')
  match cs.dropWhile (· ≠ '\'') with
  | _ :: rest =>
    if body.any fun c => isControl c then none else some (String.ofList body, rest)
  | [] => none

def consTo (c : Char) : Option (List Char × List Char) → Option (List Char × List Char)
  | some (s, rest) => some (c :: s, rest)
  | none => none

def basic? : List Char → Option (List Char × List Char)
  | [] => none
  | '"' :: rest => some ([], rest)
  | '\\' :: 'u' :: a :: b :: c :: d :: rest =>
    match hexChar? [a, b, c, d] with
    | some x => consTo x (basic? rest)
    | none => none
  | '\\' :: 'U' :: a :: b :: c :: d :: e :: f :: g :: h :: rest =>
    match hexChar? [a, b, c, d, e, f, g, h] with
    | some x => consTo x (basic? rest)
    | none => none
  | '\\' :: e :: rest =>
    match simpleEscape? e with
    | some x => consTo x (basic? rest)
    | none => none
  | c :: rest => if isControl c || c = '\\' then none else consTo c (basic? rest)

/-- What an escaped line end still skips: blanks up to the line end, or all blank space after it. -/
inductive Fold where
  | no
  | toLineEnd
  | blankSpace
  deriving DecidableEq

def multiline? : Fold → List Char → Option (List Char × List Char)
  | _, [] => none
  | .toLineEnd, c :: rest =>
    if isBlank c then multiline? .toLineEnd rest
    else if c = '\n' then multiline? .blankSpace rest
    else none
  | .blankSpace, ' ' :: rest => multiline? .blankSpace rest
  | .blankSpace, '\t' :: rest => multiline? .blankSpace rest
  | .blankSpace, '\n' :: rest => multiline? .blankSpace rest
  | _, '"' :: '"' :: '"' :: rest => some ([], rest)
  | _, '\\' :: '\n' :: rest => multiline? .blankSpace rest
  | _, '\\' :: ' ' :: rest => multiline? .toLineEnd rest
  | _, '\\' :: '\t' :: rest => multiline? .toLineEnd rest
  | _, '\\' :: 'u' :: a :: b :: c :: d :: rest =>
    match hexChar? [a, b, c, d] with
    | some x => consTo x (multiline? .no rest)
    | none => none
  | _, '\\' :: 'U' :: a :: b :: c :: d :: e :: f :: g :: h :: rest =>
    match hexChar? [a, b, c, d, e, f, g, h] with
    | some x => consTo x (multiline? .no rest)
    | none => none
  | _, '\\' :: e :: rest =>
    match simpleEscape? e with
    | some x => consTo x (multiline? .no rest)
    | none => none
  | _, c :: rest =>
    if (isControl c && c ≠ '\n') || c = '\\' then none else consTo c (multiline? .no rest)

def multilineLiteral? : List Char → Option (List Char × List Char)
  | [] => none
  | '\'' :: '\'' :: '\'' :: rest => some ([], rest)
  | c :: rest => if isControl c && c ≠ '\n' then none else consTo c (multilineLiteral? rest)

/-- A line end right after the opening quotes is not part of the string. -/
def dropNewline : List Char → List Char
  | '\n' :: cs => cs
  | cs => cs

/-- Up to two quotes more than the closing three belong to the string. -/
def withExtra (quote : Char) : Option (List Char × List Char) → Option (String × List Char)
  | none => none
  | some (s, rest) =>
    let extra := (rest.take 2).takeWhile (· = quote)
    some (String.ofList (s ++ extra), rest.drop extra.length)

def string? : List Char → Option (String × List Char)
  | '"' :: '"' :: '"' :: rest => withExtra '"' (multiline? .no (dropNewline rest))
  | '"' :: rest => (basic? rest).map fun (s, rest) => (String.ofList s, rest)
  | '\'' :: '\'' :: '\'' :: rest => withExtra '\'' (multilineLiteral? (dropNewline rest))
  | '\'' :: rest => literal? rest
  | _ => none

def isBareKey (c : Char) : Bool := c.isAlphanum || c = '-' || c = '_'

def keyPart? : List Char → Option (String × List Char)
  | '"' :: rest => (basic? rest).map fun (s, rest) => (String.ofList s, rest)
  | '\'' :: rest => literal? rest
  | cs =>
    match cs.takeWhile isBareKey with
    | [] => none
    | part => some (String.ofList part, cs.dropWhile isBareKey)

/-- Names joined by points; at most `fuel` of them. -/
def key? : Nat → List Char → Option (Key × List Char)
  | 0, _ => none
  | fuel + 1, cs =>
    match keyPart? cs with
    | none => none
    | some (part, rest) =>
      match skipBlank rest with
      | '.' :: rest => (key? fuel (skipBlank rest)).map fun (ks, rest) => (part :: ks, rest)
      | rest => some ([part], rest)

/-- Digits, with single underscores between them. The result has no underscores. -/
def digits (isDigit : Char → Bool) : List Char → List Char × List Char
  | '_' :: c :: rest =>
    if isDigit c then
      let (ds, rest) := digits isDigit rest
      (c :: ds, rest)
    else ([], '_' :: c :: rest)
  | c :: rest =>
    if isDigit c then
      let (ds, rest) := digits isDigit rest
      (c :: ds, rest)
    else ([], c :: rest)
  | [] => ([], [])

def digits? (isDigit : Char → Bool) : List Char → Option (List Char × List Char)
  | c :: rest => if isDigit c then some (digits isDigit (c :: rest)) else none
  | [] => none

def natOf (base : Nat) (ds : List Char) : Nat :=
  ds.foldl (fun n c => base * n + (hexValue? c).getD 0) 0

def isBinary (c : Char) : Bool := c = '0' || c = '1'

def isOctal (c : Char) : Bool := '0' ≤ c && c ≤ '7'

def isHex (c : Char) : Bool := (hexValue? c).isSome

def based? : List Char → Option (Value × List Char)
  | '0' :: 'x' :: cs => (digits? isHex cs).map fun (ds, rest) => (.int (natOf 16 ds), rest)
  | '0' :: 'o' :: cs => (digits? isOctal cs).map fun (ds, rest) => (.int (natOf 8 ds), rest)
  | '0' :: 'b' :: cs => (digits? isBinary cs).map fun (ds, rest) => (.int (natOf 2 ds), rest)
  | _ => none

def sign : List Char → Bool × List Char
  | '-' :: cs => (true, cs)
  | '+' :: cs => (false, cs)
  | cs => (false, cs)

/-- The whole part of a decimal number: no zero in front of other digits. -/
def whole? : List Char → Option (List Char × List Char)
  | '0' :: rest => some (['0'], rest)
  | cs => digits? Char.isDigit cs

def fraction : List Char → List Char × List Char
  | '.' :: cs => (digits? Char.isDigit cs).getD ([], '.' :: cs)
  | cs => ([], cs)

def exponent? : List Char → Option (Int × List Char)
  | e :: rest =>
    if e = 'e' || e = 'E' then
      let (negative, unsigned) := sign rest
      (digits? Char.isDigit unsigned).map fun (ds, rest) =>
        (if negative then -(natOf 10 ds : Int) else natOf 10 ds, rest)
    else none
  | [] => none

def decimal? (cs : List Char) : Option (Value × List Char) :=
  let (negative, unsigned) := sign cs
  match whole? unsigned with
  | none => none
  | some (ds, rest) =>
    let (fs, rest) := fraction rest
    let n := natOf 10 (ds ++ fs)
    match exponent? rest with
    | some (e, rest) => some (.float (.ofDecimal negative n (e - fs.length)), rest)
    | none =>
      if fs.isEmpty then some (.int (if negative then -(n : Int) else n), rest)
      else some (.float (.ofDecimal negative n (-fs.length)), rest)

def special? (cs : List Char) : Option (Value × List Char) :=
  let (negative, unsigned) := sign cs
  match unsigned with
  | 'i' :: 'n' :: 'f' :: rest => some (.float (.infinite negative), rest)
  | 'n' :: 'a' :: 'n' :: rest => some (.float .nan, rest)
  | _ => none

def number? (cs : List Char) : Option (Value × List Char) :=
  based? cs <|> decimal? cs <|> special? cs

def fixed? (n : Nat) (cs : List Char) : Option (Nat × List Char) :=
  let ds := cs.take n
  if ds.length = n && ds.all Char.isDigit then some (natOf 10 ds, cs.drop n) else none

def char? (c : Char) : List Char → Option (List Char)
  | d :: rest => if d = c then some rest else none
  | [] => none

/-- The microseconds after the seconds of a time. Further digits are dropped. -/
def micro (cs : List Char) : Nat × List Char :=
  match cs with
  | '.' :: rest =>
    match rest.takeWhile Char.isDigit with
    | [] => (0, cs)
    | ds => (natOf 10 ((ds ++ List.replicate 6 '0').take 6), rest.dropWhile Char.isDigit)
  | _ => (0, cs)

def clock? (cs : List Char) : Option (Clock × List Char) := do
  let (h, cs) ← fixed? 2 cs
  let cs ← char? ':' cs
  let (m, cs) ← fixed? 2 cs
  let cs ← char? ':' cs
  let (s, cs) ← fixed? 2 cs
  if h < 24 && m < 60 && s < 60 then
    let (f, cs) := micro cs
    some (⟨h, m, s, f⟩, cs)
  else none

/-- By how many minutes a place is ahead of universal time. -/
def zone? : List Char → Option (Int × List Char)
  | c :: rest =>
    if c = 'Z' || c = 'z' then some (0, rest)
    else if c = '+' || c = '-' then do
      let (h, rest) ← fixed? 2 rest
      let rest ← char? ':' rest
      let (m, rest) ← fixed? 2 rest
      if h < 24 && m < 60 then
        some (if c = '-' then -(h * 60 + m : Int) else h * 60 + m, rest)
      else none
    else none
  | [] => none

def date? (cs : List Char) : Option (Date × List Char) := do
  let (y, cs) ← fixed? 4 cs
  let cs ← char? '-' cs
  let (m, cs) ← fixed? 2 cs
  let cs ← char? '-' cs
  let (d, cs) ← fixed? 2 cs
  if 1 ≤ m && m ≤ 12 && 1 ≤ d && d ≤ 31 then some (⟨y, m, d⟩, cs) else none

def timeOfDay? : List Char → Option (Clock × List Char)
  | c :: rest => if c = 'T' || c = 't' || c = ' ' then clock? rest else none
  | [] => none

/-- What follows a date belongs to it as far as it is a time of day and a zone. -/
def moment (d : Date) (cs : List Char) : Moment × List Char :=
  match timeOfDay? cs with
  | none => (.date d, cs)
  | some (t, rest) =>
    match zone? rest with
    | none => (.civil d t, rest)
    | some (ahead, rest) => (.zoned d t ahead, rest)

/-- A scalar that starts like a date must be one of the calendar. -/
def scalar? (cs : List Char) : Option (Value × List Char) :=
  match date? cs with
  | some (d, rest) =>
    if d.isValid then
      let (m, rest) := moment d rest
      some (.moment m, rest)
    else none
  | none =>
    match clock? cs with
    | some (t, rest) => some (.moment (.clock t), rest)
    | none => number? cs

end Covenant.Toml
