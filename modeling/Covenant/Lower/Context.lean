import Covenant.Lower.Fault
import Covenant.Lower.Instr
import Covenant.Memory.Pool
import Covenant.Syntax.Basic

/-! What lowering knows about the place it is at, and what it collects: string literals, and extra
locals of the function at hand. -/

namespace Covenant.Lower

open Wasm Memory

structure Target where
  name : String
  index : Nat
  type : FuncType
  deriving DecidableEq, Repr

structure LoopLevels where
  leave : Nat
  next : Nat
  deriving DecidableEq, Repr

/-- `depth` counts the blocks around a place; `slots` are the types of the slots of the function. -/
structure Context where
  records : List RecordDecl
  enums : List EnumDecl
  targets : List Target
  imports : List HostFunction
  arrayCapacity : Nat
  slots : List Ty
  depth : Nat
  loop : Option LoopLevels

namespace Context

def inside (c : Context) (n : Nat) : Context := { c with depth := c.depth + n }

def insideLoop (c : Context) : Context :=
  { c with depth := c.depth + 3, loop := some ⟨c.depth, c.depth + 2⟩ }

def distance (c : Context) (level : Nat) : Nat := c.depth - 1 - level

/-- The last declaration of a name counts. -/
def record? (c : Context) (name : String) : Option RecordDecl :=
  c.records.reverse.find? (·.name = name)

def enum? (c : Context) (name : String) : Option EnumDecl :=
  c.enums.reverse.find? (·.name = name)

def target? (c : Context) (name : String) : Option Target :=
  c.targets.reverse.find? (·.name = name)

def importIndex? (c : Context) (h : HostFunction) : Option Nat :=
  c.imports.findIdx? (·.importName = h.importName)

end Context

structure State where
  pool : Pool
  temps : Array ValType

abbrev M := StateT State (Except Fault)

def temp (c : Context) (t : ValType) : M Nat := do
  let s ← get
  set { s with temps := s.temps.push t }
  return c.slots.length + s.temps.size

def intern (text : String) : M Nat := do
  let s ← get
  match s.pool.insert? text with
  | none => throw .textTooLong
  | some pool =>
    set { s with pool }
    return pool.address text

theorem intern_eq (text : String) (s : State) : intern text s =
    if text.utf8ByteSize < lengthLimit then
      .ok ((s.pool.insert text).address text, { s with pool := s.pool.insert text })
    else .error .textTooLong := by
  by_cases h : text.utf8ByteSize < lengthLimit <;>
    simp [intern, Pool.insert?, bind, StateT.bind, Except.bind, pure, Except.pure, get, getThe, MonadStateOf.get,
      StateT.get, h] <;> rfl

theorem intern_ok {text : String} {s s' : State} {a : Nat} (h : intern text s = .ok (a, s')) :
    a = (s.pool.insert text).address text ∧ s' = { s with pool := s.pool.insert text } := by
  rw [intern_eq] at h
  split at h <;> cases h
  exact ⟨rfl,rfl⟩

def orGap {α : Type} (g : Gap) : Option α → M α
  | some a => pure a
  | none => throw (.gap g)

end Covenant.Lower
