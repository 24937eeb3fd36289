import Covenant.Guard.Formula

/-! What running a contract works on: values, the heap, the slots of a function and the calls to the
host so far. A run ends with a result, with a jump to some place around it, or with a trap. Its steps are
operators, slots, objects of the heap, built-in operations and patterns. -/

namespace Covenant.Meaning

open Guard

/-- Arrays, records, options and results are references into the heap. -/
inductive Val where
  | int (w : Word)
  | bool (b : Bool)
  | text (s : String)
  | ref (address : Nat)
  deriving DecidableEq, Repr

def Val.ofValue : Value → Val
  | .int n => int (BitVec.ofInt 64 n)
  | .bool b => bool b
  | .text s => text s

/-- An object of the heap. What was not stored yet is `none`; a variant is full if it is `Some` or
`Ok`. -/
inductive Obj where
  | array (elements : List (Option Val)) (capacity : Nat)
  | record (fields : List (String × Option Val))
  | variant (isFull : Bool) (payload : Option Val)
  deriving DecidableEq, Repr

abbrev Heap := List Obj

/-- A call to the host, by the name of the import, and what came back. -/
structure Event where
  name : String
  args : List Val
  answer : Option Val
  deriving DecidableEq, Repr

/-- What the host does with a call: it may change the heap, and it may end the run. -/
inductive Answer where
  | returns (value : Option Val) (heap : Heap)
  | aborts

/-- A host answers by all that went before. -/
abbrev Host := List Event → Heap → String → List Val → Answer

/-- The slots of a function. Numbers and truth values are apart from the rest, so that a slot holds
what its type says. -/
structure Slots where
  plain : Valuation
  other : Nat → Option Val

structure State where
  slots : Slots
  heap : Heap
  trace : List Event

inductive Trap where
  | zeroDivisor
  | quotientOverflow
  | index
  | full
  | noArm
  | noReturn
  | host
  deriving DecidableEq, Repr

/-- Leaving a loop, going on with its next round, or returning from the function. -/
inductive Jump where
  | leave
  | next
  | ret (value : Option Val)
  deriving DecidableEq, Repr

/-- `stuck` is a step that has no meaning, and `late` a run that was given too few rounds. -/
inductive Outcome (α : Type) where
  | done (a : α) (s : State)
  | jump (j : Jump) (s : State)
  | trap (t : Trap) (s : State)
  | stuck
  | late

def Eval (α : Type) := State → Outcome α

variable {x : Eval (Option Val)} {s t : State}

namespace Eval

variable {α β : Type}

def andThen (x : Eval α) (f : α → Eval β) : Eval β := fun s =>
  match x s with
  | .done a s => f a s
  | .jump j s => .jump j s
  | .trap t s => .trap t s
  | .stuck => .stuck
  | .late => .late

instance : Monad Eval where
  pure a := fun s => .done a s
  bind := andThen

theorem andThen_assoc {γ : Type} (x : Eval α) (f : α → Eval β) (g : β → Eval γ) :
    (x.andThen f).andThen g = x.andThen fun a => (f a).andThen g := by
  funext s
  simp only [andThen]
  cases x s <;> rfl

theorem andThen_pure (x : Eval α) : (x.andThen fun a s => .done a s) = x := by
  funext s
  simp only [andThen]
  cases x s <;> rfl

instance : LawfulMonad Eval :=
  LawfulMonad.mk' Eval andThen_pure (fun _ _ => rfl) andThen_assoc

@[simp] theorem pure_apply (a : α) (s : State) : (pure a : Eval α) s = .done a s := rfl

theorem bind_apply (x : Eval α) (f : α → Eval β) (s : State) : (x >>= f) s = x.andThen f s := rfl

theorem bind_of_done {x : Eval α} {a : α} (h : x s = .done a t) (f : α → Eval β) : (x >>= f) s = f a t := by
  rw [bind_apply,andThen,h]

theorem bind_of_trap {x : Eval α} {k : Trap} (h : x s = .trap k t) (f : α → Eval β) :
    (x >>= f) s = .trap k t := by
  rw [bind_apply,andThen,h]

def stuck : Eval α := fun _ => .stuck

def late : Eval α := fun _ => .late

def trap (t : Trap) : Eval α := fun s => .trap t s

def jump (j : Jump) : Eval α := fun s => .jump j s

def get : Eval State := fun s => .done s s

def set (s : State) : Eval Unit := fun _ => .done () s

def orStuck : Option α → Eval α
  | some a => pure a
  | none => stuck

end Eval

def need (x : Eval (Option Val)) : Eval Val := do Eval.orStuck (← x)

theorem need_of_done {v : Val} (h : x s = .done (some v) t) : need x s = .done v t :=
  Eval.bind_of_done h _

theorem need_of_trap {k : Trap} (h : x s = .trap k t) : need x s = .trap k t :=
  Eval.bind_of_trap h _

def Val.truth? : Val → Option Bool
  | bool b => some b
  | _ => none

def truth (x : Eval (Option Val)) : Eval Bool := do Eval.orStuck (← need x).truth?

theorem truth_of_done {b : Bool} (h : x s = .done (some (.bool b)) t) : truth x s = .done b t :=
  Eval.bind_of_done (need_of_done h) _

theorem truth_of_trap {k : Trap} (h : x s = .trap k t) : truth x s = .trap k t :=
  Eval.bind_of_trap (need_of_trap h) _

def unary : UnaryOp → Val → Eval Val
  | .neg, .int w => pure (.int (0 - w))
  | .not, .bool b => pure (.bool !b)
  | _, _ => Eval.stuck

def Val.equal? : Val → Val → Option Bool
  | int v, int w => some (v == w)
  | bool a, bool b => some (a == b)
  | text s, text t => some (s == t)
  | _, _ => none

/-- The least word divided by -1 has no word. -/
def quotient (v w : Word) : Eval Val :=
  if w = 0 then Eval.trap .zeroDivisor
  else if v = BitVec.intMin 64 ∧ w = -1 then Eval.trap .quotientOverflow
  else pure (.int (v.sdiv w))

def remainder (v w : Word) : Eval Val :=
  if w = 0 then Eval.trap .zeroDivisor else pure (.int (v.srem w))

def binary : BinaryOp → Val → Val → Eval Val
  | .add, .int v, .int w => pure (.int (v + w))
  | .sub, .int v, .int w => pure (.int (v - w))
  | .mul, .int v, .int w => pure (.int (v * w))
  | .div, .int v, .int w => quotient v w
  | .rem, .int v, .int w => remainder v w
  | .concat, .text s, .text t => pure (.text (s ++ t))
  | .lt, .int v, .int w => pure (.bool (v.slt w))
  | .gt, .int v, .int w => pure (.bool (w.slt v))
  | .le, .int v, .int w => pure (.bool (v.sle w))
  | .ge, .int v, .int w => pure (.bool (w.sle v))
  | .eq, v, w => do return .bool (← Eval.orStuck (v.equal? w))
  | .ne, v, w => do return .bool !(← Eval.orStuck (v.equal? w))
  | _, _, _ => Eval.stuck

/-- A word, a truth value or something else, by the type of a slot. -/
inductive SlotKind where
  | word
  | truth
  | other
  deriving DecidableEq, Repr

def SlotKind.ofType : Ty → SlotKind
  | .integer | .mana | .enum _ => word
  | .boolean => truth
  | _ => other

namespace Slots

def empty : Slots := ⟨⟨fun _ => 0, fun _ => false⟩, fun _ => none⟩

def read (s : Slots) (k : SlotKind) (i : Nat) : Option Val :=
  match k with
  | .word => some (.int (s.plain.word i))
  | .truth => some (.bool (s.plain.truth i))
  | .other => s.other i

def setWord (s : Slots) (i : Nat) (w : Word) : Slots :=
  { s with plain := { s.plain with word := fun j => if j = i then w else s.plain.word j } }

def setTruth (s : Slots) (i : Nat) (b : Bool) : Slots :=
  { s with plain := { s.plain with truth := fun j => if j = i then b else s.plain.truth j } }

def setOther (s : Slots) (i : Nat) (v : Val) : Slots :=
  { s with other := fun j => if j = i then some v else s.other j }

def write (s : Slots) (k : SlotKind) (i : Nat) (v : Val) : Option Slots :=
  match k, v with
  | .word, .int w => some (s.setWord i w)
  | .truth, .bool b => some (s.setTruth i b)
  | .other, v => some (s.setOther i v)
  | _, _ => none

def fill (types : List Ty) (s : Slots) : Nat → List Val → Option Slots
  | _, [] => some s
  | i, v :: vs =>
    match types[i]? with
    | none => none
    | some t =>
      match s.write (.ofType t) i v with
      | none => none
      | some s => fill types s (i + 1) vs

end Slots

def readSlot (types : List Ty) (slot : Option Nat) : Eval Val := do
  let i ← Eval.orStuck slot
  let t ← Eval.orStuck types[i]?
  let s ← Eval.get
  Eval.orStuck (s.slots.read (.ofType t) i)

def writeSlot (types : List Ty) (slot : Option Nat) (v : Val) : Eval Unit := do
  let i ← Eval.orStuck slot
  let t ← Eval.orStuck types[i]?
  let s ← Eval.get
  let slots ← Eval.orStuck (s.slots.write (.ofType t) i v)
  Eval.set { s with slots }

def name (types : List Ty) : Option Symbol → Eval Val
  | some ⟨_, _, _, .constant, _, v⟩ => do return .ofValue (← Eval.orStuck v)
  | some ⟨_, _, _, _, slot, _⟩ => readSlot types slot
  | none => Eval.stuck

def allocate (o : Obj) : Eval Nat := do
  let s ← Eval.get
  Eval.set { s with heap := s.heap ++ [o] }
  return s.heap.length

def object : Val → Eval (Nat × Obj)
  | .ref a => do return (a, ← Eval.orStuck (← Eval.get).heap[a]?)
  | _ => Eval.stuck

def put (address : Nat) (o : Obj) : Eval Unit := do
  let s ← Eval.get
  Eval.set { s with heap := s.heap.set address o }

/-- The address and the elements of an array, and how many it has room for. -/
def arrayAt (v : Val) : Eval (Nat × List (Option Val) × Nat) := do
  match ← object v with
  | (a, .array es capacity) => return (a, es, capacity)
  | _ => Eval.stuck

/-- The address of an array and the number of an element of it. An index is taken as an unsigned
number, so that a negative one is out of range too. -/
def element (array index : Val) : Eval (Nat × Nat) := do
  let (a, es, _) ← arrayAt array
  match index with
  | .int w => if w.toNat < es.length then return (a, w.toNat) else Eval.trap .index
  | _ => Eval.stuck

def getElement (place : Nat × Nat) : Eval Val := do
  let (_, es, _) ← arrayAt (.ref place.1)
  Eval.orStuck (es[place.2]?.join)

/-- An element that the array has lost meanwhile is not stored. -/
def setElement (place : Nat × Nat) (v : Val) : Eval Unit := do
  let (a, es, capacity) ← arrayAt (.ref place.1)
  put a (.array (es.set place.2 (some v)) capacity)

def getField (v : Val) (field : String) : Eval Val := do
  match ← object v with
  | (_, .record fs) => Eval.orStuck ((fs.find? (·.1 = field)).bind (·.2))
  | _ => Eval.stuck

def setField (v : Val) (field : String) (x : Val) : Eval Unit := do
  match ← object v with
  | (a, .record fs) =>
    put a (.record (fs.map fun (f, y) => if f = field then (f, some x) else (f, y)))
  | _ => Eval.stuck

def newRecord (d : RecordDecl) : Eval Nat :=
  allocate (.record (d.fields.map fun f => (f.name, none)))

def fills : Wrapper → Bool
  | .some | .ok => true
  | .err => false

def isAmong (v : Val) : List (Option Val) → Option Bool
  | [] => some false
  | none :: _ => none
  | some x :: xs =>
    match x.equal? v with
    | none => none
    | some true => some true
    | some false => isAmong v xs

def push (array v : Val) : Eval Val := do
  let (a, es, capacity) ← arrayAt array
  if capacity ≤ es.length then Eval.trap .full
  else
    put a (.array (es ++ [some v]) capacity)
    return .int (BitVec.ofNat 64 (es.length + 1))

def pop (array : Val) : Eval Val := do
  let (a, es, capacity) ← arrayAt array
  match es.getLast? with
  | none => return .ref (← allocate (.variant false none))
  | some x =>
    put a (.array es.dropLast capacity)
    return .ref (← allocate (.variant true x))

def builtin : Builtin → List Val → Eval Val
  | .arrayLen, [a] => do return .int (BitVec.ofNat 64 (← arrayAt a).2.1.length)
  | .stringLen, [.text s] => pure (.int (BitVec.ofNat 64 s.utf8ByteSize))
  | .stringConcat, [.text s, .text t] => pure (.text (s ++ t))
  | .arrayPush, [a, v] => push a v
  | .arrayPop, [a] => pop a
  | .arrayContains, [a, v] => do return .bool (← Eval.orStuck (isAmong v (← arrayAt a).2.1))
  | _, _ => Eval.stuck

def hostCall (host : Host) (h : HostFunction) (args : List Val) : Eval (Option Val) := fun s =>
  match host s.trace s.heap h.importName args with
  | .returns v heap => .done v { s with heap, trace := s.trace ++ [⟨h.importName, args, v⟩] }
  | .aborts => .trap .host { s with trace := s.trace ++ [⟨h.importName, args, none⟩] }

def variantAt (v : Val) : Eval (Bool × Option Val) := do
  match ← object v with
  | (_, .variant isFull payload) => return (isFull, payload)
  | _ => Eval.stuck

def enumTag? (enums : List EnumDecl) (owner variant : String) : Option Nat :=
  (enums.find? (·.name = owner)).bind (·.tag? variant)

def matches? (enums : List EnumDecl) (v : Val) : PatternForm → Eval Bool
  | .int n => Eval.orStuck (v.equal? (.int (BitVec.ofInt 64 n)))
  | .bool b => Eval.orStuck (v.equal? (.bool b))
  | .text s => Eval.orStuck (v.equal? (.text s))
  | .enum owner variant => do
    let tag ← Eval.orStuck (enumTag? enums owner variant)
    Eval.orStuck (v.equal? (.int (BitVec.ofNat 64 tag)))
  | .some _ | .ok _ => do return (← variantAt v).1
  | .none | .err _ => do return !(← variantAt v).1
  | .wild | .bind _ => pure true

/-- Gives the name of a pattern its value: the subject, or what is inside it. -/
def bindName (types : List Ty) (v : Val) (p : PatternForm) : Eval Unit :=
  match p.binder? with
  | none => pure ()
  | some b =>
    if p.isCatchAll then writeSlot types b.slot v
    else do writeSlot types b.slot (← Eval.orStuck (← variantAt v).2)

end Covenant.Meaning
