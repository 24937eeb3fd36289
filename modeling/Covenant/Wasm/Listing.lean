import Covenant.Text.Quoted
import Covenant.Wasm.Module

/-! The contents of a module, read back from its bytes. Code is not decoded: a function is listed with
its local declarations and its size. -/

namespace Covenant.Wasm

/-- Why bytes are no module. `overrun` is a function body that is longer than the file. -/
inductive ModuleFault where
  | header
  | ended
  | leb (fault : LebFault)
  | sectionSize (id : UInt8)
  | sectionId (id : UInt8)
  | functionForm
  | importKind
  | valueType (byte : UInt8)
  | constOp (byte : UInt8)
  | constEnd
  | bodyCount
  | encoding
  | overrun
  deriving DecidableEq, Repr

def hexByte (b : UInt8) : String :=
  String.ofList (Text.hexFixed 2 b.toNat)

namespace ModuleFault

def message? : ModuleFault → Option String
  | header => some "not a WebAssembly module (bad magic or version)"
  | ended => some "unexpected end of module"
  | leb f => some ("malformed module: " ++ f.message)
  | sectionSize id => some s!"section {id} runs past the end of the module"
  | sectionId id => some s!"unsupported section id {id}"
  | functionForm => some "malformed function type"
  | importKind => some "only function imports are supported"
  | valueType b => some ("unknown value type 0x" ++ hexByte b)
  | constOp b => some ("unsupported constant expression opcode 0x" ++ hexByte b)
  | constEnd => some "constant expression is not terminated"
  | bodyCount => some "function and code sections disagree"
  | encoding => none
  | overrun => none

end ModuleFault

/-- A place in a file: what follows it, and how far it is from the end of what is being read. Numbers
are read to the end of the file, everything else only to that end. -/
structure Cursor where
  rest : List UInt8
  left : Int

abbrev Read := StateT Cursor (Except ModuleFault)

namespace Read

variable {α : Type}

def fail (e : ModuleFault) : Read α := fun _ => .error e

def byte : Read UInt8 := fun c =>
  if c.left ≤ 0 then .error .ended
  else match c.rest with
    | b :: rest => .ok (b, ⟨rest, c.left - 1⟩)
    | [] => .error .overrun

def leb (read : List UInt8 → Except LebFault (α × List UInt8)) : Read α := fun c =>
  match read c.rest with
  | .ok (n, rest) => .ok (n, ⟨rest, c.left - (c.rest.length - rest.length : Nat)⟩)
  | .error e => .error (.leb e)

def nat : Read Nat := leb readUleb

def int : Read Int := leb readSleb

def raw (count : Nat) : Read (List UInt8) := fun c =>
  if c.left < count then .error .ended
  else .ok (c.rest.take count, ⟨c.rest.drop count, c.left - count⟩)

def times (item : Read α) : Nat → Read (List α)
  | 0 => pure []
  | n + 1 => do
    let a ← item
    let as ← times item n
    pure (a :: as)

def vec (item : Read α) : Read (List α) := do
  let n ← nat
  times item n

def name : Read String := do
  let n ← nat
  let bs ← raw n
  match String.fromUTF8? ⟨bs.toArray⟩ with
  | some s => pure s
  | none => fail .encoding

def valType : Read ValType := do
  let b ← byte
  match ValType.ofByte? b with
  | some t => pure t
  | none => fail (.valueType b)

def const : Read Int := do
  let op ← byte
  if op = 0x41 || op = 0x42 then
    let v ← int
    let e ← byte
    if e = endByte then pure v else fail .constEnd
  else fail (.constOp op)

end Read

structure TypeEntry where
  params : List UInt8
  results : List UInt8
  deriving DecidableEq, Repr

structure FunctionEntry where
  index : Nat
  type : Nat
  locals : List (Nat × ValType)
  size : Nat
  deriving DecidableEq, Repr

structure MemoryEntry where
  min : Nat
  max : Option Nat
  deriving DecidableEq, Repr

structure Listing where
  types : List TypeEntry
  imports : List Import
  functions : List FunctionEntry
  memory : Option MemoryEntry
  globals : List Global
  exports : List Export
  segments : List Segment
  deriving DecidableEq, Repr

namespace Listing

def empty : Listing := ⟨[], [], [], none, [], [], []⟩

def readType : Read TypeEntry := do
  let form ← Read.byte
  if form = 0x60 then
    let params ← Read.vec Read.byte
    let results ← Read.vec Read.byte
    pure ⟨params, results⟩
  else Read.fail .functionForm

def readImport : Read Import := do
  let module ← Read.name
  let name ← Read.name
  let kind ← Read.byte
  if kind = functionKind then
    let type ← Read.nat
    pure ⟨module, name, type⟩
  else Read.fail .importKind

def readMemory : Read MemoryEntry := do
  let _ ← Read.nat
  let flags ← Read.byte
  let min ← Read.nat
  if flags % 2 = 1 then
    let max ← Read.nat
    pure ⟨min, some max⟩
  else pure ⟨min, none⟩

def readGlobal : Read Global := do
  let type ← Read.valType
  let m ← Read.byte
  let init ← Read.const
  pure ⟨type, m = 1, init⟩

def readExport : Read Export := do
  let name ← Read.name
  let kind ← Read.byte
  let index ← Read.nat
  pure ⟨name, kind, index⟩

def readRun : Read (Nat × ValType) := do
  let n ← Read.nat
  let t ← Read.valType
  pure (n, t)

/-- The size of a body and its local declarations. What follows the body is read next, whatever the
declarations took. -/
def readBody : Read (Nat × List (Nat × ValType)) := do
  let size ← Read.nat
  fun c =>
    match Read.vec readRun ⟨c.rest, size⟩ with
    | .ok (locals, _) => .ok ((size, locals), ⟨c.rest.drop size, c.left - size⟩)
    | .error e => .error e

def readSegment : Read Segment := do
  let _ ← Read.nat
  let offset ← Read.const
  let n ← Read.nat
  let bytes ← Read.raw n
  pure ⟨offset, bytes⟩

def readBodies : Nat → List Nat → Read (List FunctionEntry)
  | _, [] => pure []
  | index, type :: types => do
    let (size, locals) ← readBody
    let rest ← readBodies (index + 1) types
    pure (⟨index, type, locals, size⟩ :: rest)

structure Progress where
  listing : Listing
  declared : List Nat

def readSection (p : Progress) (id : UInt8) : Read Progress :=
  let l := p.listing
  match id with
  | 0 => pure p
  | 1 => do
    let ts ← Read.vec readType
    pure { p with listing := { l with types := l.types ++ ts } }
  | 2 => do
    let is ← Read.vec readImport
    pure { p with listing := { l with imports := l.imports ++ is } }
  | 3 => do
    let ts ← Read.vec Read.nat
    pure { p with declared := ts }
  | 5 => do
    let m ← readMemory
    pure { p with listing := { l with memory := some m } }
  | 6 => do
    let gs ← Read.vec readGlobal
    pure { p with listing := { l with globals := l.globals ++ gs } }
  | 7 => do
    let es ← Read.vec readExport
    pure { p with listing := { l with exports := l.exports ++ es } }
  | 10 => do
    let n ← Read.nat
    if n = p.declared.length then
      let fs ← readBodies l.imports.length p.declared
      pure { p with listing := { l with functions := l.functions ++ fs } }
    else Read.fail .bodyCount
  | 11 => do
    let ss ← Read.vec readSegment
    pure { p with listing := { l with segments := l.segments ++ ss } }
  | id => Read.fail (.sectionId id)

def readSections : Nat → Progress → List UInt8 → Except ModuleFault Listing
  | _, p, [] => .ok p.listing
  | 0, p, _ => .ok p.listing
  | fuel + 1, p, id :: rest =>
    match readUleb rest with
    | .error e => .error (.leb e)
    | .ok (size, rest) =>
      if rest.length < size then .error (.sectionSize id)
      else match readSection p id ⟨rest, size⟩ with
        | .ok (p, _) => readSections fuel p (rest.drop size)
        | .error e => .error e

def read (bytes : List UInt8) : Except ModuleFault Listing :=
  if bytes.take 4 = magic && (bytes.drop 4).take 4 = version then
    readSections bytes.length ⟨empty, []⟩ (bytes.drop 8)
  else .error .header

def export? (l : Listing) (name : String) : Option Export :=
  l.exports.find? (·.name = name)

end Listing

def kindText (kind : UInt8) : String :=
  if kind = functionKind then "func"
  else if kind = memoryKind then "memory"
  else if kind = globalKind then "global"
  else s!"kind{kind}"

/-- Value types by name; every byte must be one. -/
def TypeEntry.type? (t : TypeEntry) : Option FuncType :=
  match t.params.mapM ValType.ofByte?, t.results.mapM ValType.ofByte? with
  | some params, some results => some ⟨params, results⟩
  | _, _ => none

def hexText (width : Nat) (n : Int) : String :=
  if n < 0 then "-" ++ String.ofList (Text.hexPadded (width - 1) n.natAbs)
  else String.ofList (Text.hexPadded width n.natAbs)

namespace Listing

def numbered (lines : List String) : List String :=
  lines.zipIdx.map fun (s, i) => s!"  {i}: {s}"

def localsText (runs : List (Nat × ValType)) : String :=
  if runs.isEmpty then "none"
  else ", ".intercalate (runs.map fun (n, t) => s!"{n} x {t.text}")

def functionText (f : FunctionEntry) : String :=
  s!"  {f.index}: type {f.type}, locals [" ++ localsText f.locals ++ s!"], {f.size} bytes"

def memoryText (m : MemoryEntry) : String :=
  s!"Memory: {m.min} page(s), max " ++
    (match m.max with
      | some n => toString n
      | none => "unbounded")

def globalText (g : Global) (index : Nat) : String :=
  s!"Global {index}: " ++ (if g.isMutable then "mut " else "") ++ g.type.text ++ s!" = {g.init}"

def exportText (e : Export) : String :=
  "  " ++ e.name ++ ": " ++ kindText e.kind ++ s!" {e.index}"

def segmentText (s : Segment) : String :=
  "Data at 0x" ++ hexText 4 s.offset ++ s!": {s.content.length} bytes"

def text? (l : Listing) : Option String :=
  (l.types.mapM TypeEntry.type?).map fun types =>
    "\n".intercalate
      ([s!"Types ({types.length}):"] ++ numbered (types.map FuncType.text) ++
        [s!"Imports ({l.imports.length}):"] ++
        numbered (l.imports.map fun i => i.module ++ "::" ++ i.name ++ s!" type {i.type}") ++
        [s!"Functions ({l.functions.length}):"] ++ l.functions.map functionText ++
        l.memory.toList.map memoryText ++
        l.globals.zipIdx.map (fun (g, i) => globalText g i) ++
        [s!"Exports ({l.exports.length}):"] ++ l.exports.map exportText ++
        l.segments.map segmentText)

end Listing

end Covenant.Wasm
