import Covenant.Binary64

/-! The values of a TOML document, their order and their texts. Values of different kinds have no order; truth values
count as the numbers zero and one. -/

namespace Covenant.Toml

structure Date where
  year : Nat
  month : Nat
  day : Nat
  deriving DecidableEq, Repr

structure Clock where
  hour : Nat
  minute : Nat
  second : Nat
  micro : Nat
  deriving DecidableEq, Repr

/-- `zoned` has the minutes by which its place is ahead of universal time. -/
inductive Moment where
  | date (d : Date)
  | clock (t : Clock)
  | civil (d : Date) (t : Clock)
  | zoned (d : Date) (t : Clock) (ahead : Int)
  deriving DecidableEq, Repr

def isLeap (year : Nat) : Bool := (year % 4 = 0 && year % 100 ≠ 0) || year % 400 = 0

def daysIn (year month : Nat) : Nat :=
  if month = 2 then (if isLeap year then 29 else 28)
  else if month = 4 || month = 6 || month = 9 || month = 11 then 30
  else 31

def padded (width n : Nat) : String :=
  let ds := Nat.toDigits 10 n
  String.ofList (List.replicate (width - ds.length) '0' ++ ds)

namespace Date

def isValid (d : Date) : Bool :=
  1 ≤ d.year && 1 ≤ d.month && d.month ≤ 12 && 1 ≤ d.day && d.day ≤ daysIn d.year d.month

def number (d : Date) : Nat :=
  let y := d.year - 1
  let months := (List.range (d.month - 1)).foldl (fun n m => n + daysIn d.year (m + 1)) 0
  365 * y + y / 4 - y / 100 + y / 400 + months + (d.day - 1)

def text (d : Date) : String :=
  padded 4 d.year ++ "-" ++ padded 2 d.month ++ "-" ++ padded 2 d.day

end Date

namespace Clock

def number (t : Clock) : Nat := ((t.hour * 60 + t.minute) * 60 + t.second) * 1000000 + t.micro

/-- Microseconds are written only if there are some. -/
def text (t : Clock) : String :=
  padded 2 t.hour ++ ":" ++ padded 2 t.minute ++ ":" ++ padded 2 t.second
    ++ (if t.micro = 0 then "" else "." ++ padded 6 t.micro)

end Clock

namespace Moment

def instant (d : Date) (t : Clock) (ahead : Int) : Int :=
  (d.number : Int) * 86400000000 + t.number - ahead * 60000000

/-- Whether a point in time comes strictly before another. Points of different kinds have no order. -/
def before? : Moment → Moment → Option Bool
  | date d, date e => some (d.number < e.number)
  | clock t, clock u => some (t.number < u.number)
  | civil d t, civil e u => some (instant d t 0 < instant e u 0)
  | zoned d t a, zoned e u b => some (instant d t a < instant e u b)
  | _, _ => none

def text : Moment → String
  | date d => d.text
  | clock t => t.text
  | civil d t => d.text ++ " " ++ t.text
  | zoned d t a =>
    d.text ++ " " ++ t.text ++ (if a < 0 then "-" else "+")
      ++ padded 2 (a.natAbs / 60) ++ ":" ++ padded 2 (a.natAbs % 60)

end Moment

inductive Value where
  | text (s : String)
  | int (n : Int)
  | float (x : Binary64)
  | bool (b : Bool)
  | moment (m : Moment)
  | array (items : List Value)
  | table (fields : List (String × Value))

/-- The fields of a table, in the order in which they were added. -/
abbrev Table := List (String × Value)

/-- The names that lead to a value, from the outermost table on. -/
abbrev Key := List String

def Value.isContainer : Value → Bool
  | array _ | table _ => true
  | _ => false

namespace Table

def find? (t : Table) (name : String) : Option Value := t.lookup name

def set (t : Table) (name : String) (v : Value) : Table :=
  match t with
  | [] => [(name, v)]
  | (n, w) :: rest => if n = name then (n, v) :: rest else (n, w) :: set rest name v

/-- Changes the table at a key, making tables on the way. Under an array, if `throughArrays`, its last
item is meant. Nothing else is a table. -/
def update (throughArrays : Bool) (f : Table → Option Table) : Key → Table → Option Table
  | [], t => f t
  | k :: ks, t =>
    match t.find? k with
    | none => (update throughArrays f ks []).map fun u => t.set k (.table u)
    | some (.table u) => (update throughArrays f ks u).map fun u => t.set k (.table u)
    | some (.array items) =>
      match throughArrays, items.getLast? with
      | true, some (.table u) =>
        (update throughArrays f ks u).map fun u => t.set k (.array (items.dropLast ++ [.table u]))
      | _, _ => none
    | some _ => none

def insert? (name : String) (v : Value) (t : Table) : Option Table :=
  match t.find? name with
  | some _ => none
  | none => some (t ++ [(name, v)])

def append? (name : String) (t : Table) : Option Table :=
  match t.find? name with
  | none => some (t.set name (.array [.table []]))
  | some (.array items) => some (t.set name (.array (items ++ [.table []])))
  | some _ => none

end Table

namespace Value

def place? : Value → Option (Option Place)
  | bool b => some (some (.ofInt (if b then 1 else 0)))
  | int n => some (some (.ofInt n))
  | float x => some x.place?
  | _ => none

def before? : Value → Value → Option Bool
  | text s, text t => some (s < t)
  | moment m, moment n => m.before? n
  | v, w =>
    match v.place?, w.place? with
    | some p, some q =>
      match p, q with
      | some p, some q => some (p.before q)
      | _, _ => some false
    | _, _ => none

def runLength? (down : Bool) : Value → List Value → Option Nat
  | _, [] => some 0
  | v, w :: ws => do
    if (← w.before? v) = down then return (← runLength? down w ws) + 1 else return 0

/-- The values that stand in order at the front, and the others. Values that go down are turned round. -/
def firstRun? : List Value → Option (List Value × List Value)
  | v :: w :: ws => do
    let down ← w.before? v
    let n ← runLength? down v (w :: ws)
    let run := (v :: w :: ws).take (n + 1)
    return (if down then run.reverse else run, (w :: ws).drop n)
  | vs => some (vs, [])

def place (v : Value) (vs : List Value) : Nat → Nat → Nat → Option Nat
  | 0, low, _ => some low
  | fuel + 1, low, high =>
    if high ≤ low then some low
    else
      let middle := low + (high - low) / 2
      match vs[middle]? with
      | none => some low
      | some w => do
        if ← v.before? w then place v vs fuel low middle else place v vs fuel (middle + 1) high

def insert? (vs : List Value) (v : Value) : Option (List Value) :=
  (place v vs (vs.length + 1) 0 vs.length).map fun i => vs.take i ++ v :: vs.drop i

/-- The values in order, equal ones as they stood. Each value after the first run is put in its place. -/
def sorted? (vs : List Value) : Option (List Value) := do
  let (run, others) ← firstRun? vs
  others.foldlM insert? run

def label? : Value → Option String
  | text s => some s
  | int n => some (toString n)
  | bool b => some (if b then "True" else "False")
  | float x => some x.text
  | moment m => some m.text
  | array _ => none
  | table _ => none

end Value

end Covenant.Toml
