import Covenant.Toml.Scalar

/-! Reading a TOML document, statement by statement. A table is declared once; what is written inline
is closed for good. -/

namespace Covenant.Toml

/-- Whether the key itself or a table around it is among some keys. -/
def covers (keys : List Key) (k : Key) : Bool :=
  keys.any fun p => p.isPrefixOf k

mutual

/-- A value; `fuel` bounds the nesting and the number of items. -/
def value? : Nat → List Char → Option (Value × List Char)
  | 0, _ => none
  | fuel + 1, cs =>
    match cs with
    | '"' :: _ => (string? cs).map fun (s, rest) => (.text s, rest)
    | '\'' :: _ => (string? cs).map fun (s, rest) => (.text s, rest)
    | 't' :: 'r' :: 'u' :: 'e' :: rest => some (.bool true, rest)
    | 'f' :: 'a' :: 'l' :: 's' :: 'e' :: rest => some (.bool false, rest)
    | '[' :: rest => (items? fuel rest).map fun (vs, rest) => (.array vs, rest)
    | '\x7b' :: rest =>
      match skipBlank rest with
      | '\x7d' :: rest => some (.table [], rest)
      | rest => (pairs? fuel [] [] rest).map fun (t, rest) => (.table t, rest)
    | cs => scalar? cs

def items? : Nat → List Char → Option (List Value × List Char)
  | 0, _ => none
  | fuel + 1, cs =>
    match skipLines? cs.length cs with
    | none => none
    | some (']' :: rest) => some ([], rest)
    | some cs =>
      match value? fuel cs with
      | none => none
      | some (v, rest) =>
        match skipLines? rest.length rest with
        | some (']' :: rest) => some ([v], rest)
        | some (',' :: rest) => (items? fuel rest).map fun (vs, rest) => (v :: vs, rest)
        | _ => none

/-- The fields of an inline table up to its closing brace; at least one, after those in `t`. -/
def pairs? : Nat → Table → List Key → List Char → Option (Table × List Char)
  | 0, _, _, _ => none
  | fuel + 1, t, closed, cs =>
    match key? cs.length cs with
    | none => none
    | some (k, rest) =>
      match rest with
      | '=' :: rest =>
        match value? fuel (skipBlank rest) with
        | none => none
        | some (v, rest) =>
          if covers closed k then none
          else match Table.update false (Table.insert? (k.getLastD "") v) k.dropLast t with
            | none => none
            | some t =>
              match skipBlank rest with
              | '\x7d' :: rest => some (t, rest)
              | ',' :: rest =>
                pairs? fuel t (if v.isContainer then k :: closed else closed) (skipBlank rest)
              | _ => none
      | _ => none

end

/-- A document as far as it has been read. `header` is the table that fields go to. `declared` tables
are not declared again, `pending` ones from the next header on; nothing is added under `closed` keys. -/
structure Progress where
  root : Table
  header : Key
  declared : List Key
  pending : List Key
  closed : List Key

namespace Progress

def start : Progress := ⟨[], [], [], [], []⟩

def passed (header : Key) (k : Key) : List Key :=
  (List.range k.length).tail.map fun n => header ++ k.take n

def addField (p : Progress) (k : Key) (v : Value) : Option Progress :=
  let through := passed p.header k
  let parent := p.header ++ k.dropLast
  if through.any p.declared.contains then none
  else if covers p.closed parent then none
  else (Table.update true (Table.insert? (k.getLastD "") v) parent p.root).map fun root =>
    { p with
      root
      pending := through ++ p.pending
      closed := if v.isContainer then (p.header ++ k) :: p.closed else p.closed }

def settle (p : Progress) : Progress :=
  { p with declared := p.pending ++ p.declared, pending := [] }

def openTable (p : Progress) (k : Key) : Option Progress :=
  if p.declared.contains k || covers p.closed k then none
  else (Table.update true some k p.root).map fun root =>
    { p with root, header := k, declared := k :: p.declared }

/-- A new item of an array of tables starts with nothing declared or closed in it. -/
def openItem (p : Progress) (k : Key) : Option Progress :=
  if covers p.closed k then none
  else (Table.update true (Table.append? (k.getLastD "")) k.dropLast p.root).map fun root =>
    { p with
      root
      header := k
      declared := k :: p.declared.filter (!k.isPrefixOf ·)
      closed := p.closed.filter (!k.isPrefixOf ·) }

def statement? (p : Progress) (cs : List Char) : Option (Progress × List Char) :=
  match cs with
  | '#' :: _ => some (p, cs)
  | '[' :: '[' :: rest =>
    match key? rest.length (skipBlank rest) with
    | some (k, ']' :: ']' :: rest) => (p.settle.openItem k).map fun p => (p, rest)
    | _ => none
  | '[' :: rest =>
    match key? rest.length (skipBlank rest) with
    | some (k, ']' :: rest) => (p.settle.openTable k).map fun p => (p, rest)
    | _ => none
  | cs =>
    match key? cs.length cs with
    | some (k, '=' :: rest) =>
      match value? (rest.length + 1) (skipBlank rest) with
      | some (v, rest) => (p.addField k v).map fun p => (p, rest)
      | none => none
    | _ => none

def read? : Nat → Progress → List Char → Option Table
  | 0, p, _ => some p.root
  | fuel + 1, p, cs =>
    match skipBlank cs with
    | [] => some p.root
    | '\n' :: rest => read? fuel p rest
    | cs =>
      match p.statement? cs with
      | none => none
      | some (p, rest) =>
        match skipComment? (skipBlank rest) with
        | some [] => some p.root
        | some ('\n' :: rest) => read? fuel p rest
        | _ => none

end Progress

/-- A carriage return before a line feed does not count. -/
def plainLines : List Char → List Char
  | '\r' :: '\n' :: rest => '\n' :: plainLines rest
  | c :: rest => c :: plainLines rest
  | [] => []

def read? (source : String) : Option Table :=
  let cs := plainLines source.toList
  Progress.read? (cs.length + 1) .start cs

end Covenant.Toml
