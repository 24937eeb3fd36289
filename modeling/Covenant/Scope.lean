import Covenant.Value

/-! Names in scope: a stack of frames over the constants, and the slots handed out so far. Frames are
listed from the innermost out, and the symbols of a frame from the newest back. -/

namespace Covenant

inductive SymbolKind where
  | param
  | letBound
  | loop
  | binding
  | constant
  deriving DecidableEq, Repr

namespace SymbolKind

def text : SymbolKind → String
  | param => "param"
  | letBound => "local"
  | loop => "loop"
  | binding => "binding"
  | constant => "const"

def ofText? : String → Option SymbolKind
  | "param" => some param
  | "local" => some letBound
  | "loop" => some loop
  | "binding" => some binding
  | "const" => some constant
  | _ => none

theorem ofText?_text (k : SymbolKind) : ofText? k.text = some k := by
  cases k <;> rfl

end SymbolKind

/-- A variable has a slot and no value, a constant has no slot. -/
structure Symbol where
  name : String
  type : Ty
  isMutable : Bool
  kind : SymbolKind
  slot : Option Nat
  value : Option Value
  deriving DecidableEq, Repr

/-- `nested` marks the frame of an `if`, `while` or `for` body or of a match arm. -/
structure Frame where
  symbols : List Symbol
  nested : Bool
  deriving DecidableEq, Repr

def Frame.find? (f : Frame) (name : String) : Option Symbol :=
  f.symbols.find? (·.name = name)

structure Scope where
  globals : List Symbol
  frames : List Frame
  slots : List Ty
  deriving DecidableEq, Repr

namespace Scope

def empty : Scope := ⟨[], [], []⟩

def beginFunction (s : Scope) : Scope :=
  { s with frames := [], slots := [] }

def push (s : Scope) (nested : Bool) : Scope :=
  { s with frames := ⟨[], nested⟩ :: s.frames }

def pop (s : Scope) : Scope :=
  { s with frames := s.frames.tail }

def findGlobal? (s : Scope) (name : String) : Option Symbol :=
  s.globals.find? (·.name = name)

def findIn? (frames : List Frame) (name : String) : Option Symbol :=
  frames.findSome? (·.find? name)

def get? (s : Scope) (name : String) : Option Symbol :=
  findIn? s.frames name <|> s.findGlobal? name

/-- The variable that a new declaration in the innermost frame would hide. -/
def getOuter? (s : Scope) (name : String) : Option Symbol :=
  findIn? s.frames.tail name

def inNestedBody (s : Scope) : Bool :=
  s.frames.head?.any (·.nested)

def allocate (s : Scope) (type : Ty) : Nat × Scope :=
  (s.slots.length, { s with slots := s.slots ++ [type] })

/-- Binds a name to a fresh slot in the innermost frame. Without a frame the slot is taken and
nothing is bound. -/
def declare (s : Scope) (name : String) (type : Ty) (kind : SymbolKind) (isMutable : Bool) :
    Symbol × Scope :=
  let (slot, s) := s.allocate type
  let symbol : Symbol := ⟨name, type, isMutable, kind, some slot, none⟩
  (symbol, { s with
    frames := match s.frames with
      | [] => []
      | f :: fs => { f with symbols := symbol :: f.symbols } :: fs })

/-- Declares a name and tells its symbol. There is none without a frame. -/
def declare? (s : Scope) (name : String) (type : Ty) (kind : SymbolKind) (isMutable : Bool) : Option Symbol × Scope :=
  let (symbol, next) := s.declare name type kind isMutable
  (if s.frames.isEmpty then none else some symbol, next)

def registerGlobal (s : Scope) (symbol : Symbol) : Scope :=
  { s with globals := symbol :: s.globals }

def globalNames (s : Scope) : List String :=
  ((s.globals.map (·.name)).mergeSort (· ≤ ·)).eraseReps

end Scope

end Covenant
