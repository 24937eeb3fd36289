import Covenant.Hash.Sha256
import Covenant.Lower.Program
import Covenant.Optimize.Program
import Covenant.Syntax.Build
import Covenant.Text.Document

/-! From the text of a contract to a module: reading, checking, optimising, lowering. A document tells what is needed to
call the module; its keys are in alphabetical order. -/

namespace Covenant

def languageVersion : String := "0.3"

structure ExportInfo where
  name : String
  params : List (String × Ty)
  result : Ty
  deriving DecidableEq, Repr

structure ImportInfo where
  module : String
  name : String
  type : Wasm.FuncType
  deriving DecidableEq, Repr

structure Metadata where
  contract : Option ContractHeader
  exports : List ExportInfo
  imports : List ImportInfo
  memoryExported : Bool
  digest : List UInt8
  size : Nat
  warnings : List String

namespace Metadata

def exportInfo (d : FunctionDecl) : ExportInfo :=
  ⟨d.name, d.params.map fun p => (p.name, p.type), d.result.getD .void⟩

def importInfos (m : Wasm.Module) : List ImportInfo :=
  m.imports.filterMap fun i => m.types[i.type]?.map fun t => ⟨i.module, i.name, t⟩

def ofImage (p : Program) (i : Lower.Image) (warnings : List String) : Metadata where
  contract := p.contract
  exports := (p.functions.filter (·.name = entryPoint)).map exportInfo
  imports := importInfos i.module
  memoryExported := i.module.exports.any (·.name = "memory")
  digest := Hash.sha256 i.bytes
  size := i.bytes.length
  warnings := warnings

open Text in
def exportDocument (e : ExportInfo) : Document :=
  .object
    [("name", .text e.name),
     ("params", .array (e.params.map fun (n, t) =>
       .object [("name", .text n), ("type", .text t.text)])),
     ("returns", .text e.result.text)]

open Text in
def valTypes (ts : List Wasm.ValType) : Document :=
  .array (ts.map fun t => .text t.text)

open Text in
def importDocument (i : ImportInfo) : Document :=
  .object
    [("module", .text i.module), ("name", .text i.name),
     ("params", valTypes i.type.params), ("results", valTypes i.type.results)]

open Text in
def document (m : Metadata) : Document :=
  .object
    [("contract", .ofOption (m.contract.map (·.name))),
     ("exports", .array (m.exports.map exportDocument)),
     ("imports", .array (m.imports.map importDocument)),
     ("language_version", .text languageVersion),
     ("memory_exported", .bool m.memoryExported),
     ("scope", .ofOption (m.contract.bind (·.scope))),
     ("sha256", .text (hexBytes m.digest)),
     ("size", .nat m.size),
     ("version", .ofOption (m.contract.bind (·.version))),
     ("warnings", .array (m.warnings.map .text))]

def text (m : Metadata) : String := m.document.render

end Metadata

/-- Why a text has no module. `stray` is a `return` outside any function; nothing is told of it. -/
inductive CompileFault where
  | grammar (error : SyntaxError)
  | check (errors : List Diagnostic)
  | stray
  | lower (fault : Lower.Fault)

def failureText (reports : List String) : String :=
  "\n".intercalate (s!"compilation failed with {reports.length} error(s):" :: reports.map ("  " ++ ·))

structure Compiled where
  bytes : List UInt8
  metadata : Metadata
  warnings : List Warning

def Program.compile (z : Optimize.Solver) (o : Options) (p : Program) : Except CompileFault Compiled :=
  let c := p.check o.shadowing
  if c.strayReturn then .error .stray
  else if !c.errors.isEmpty then .error (.check c.errors)
  else
    let p := if o.optimize then (c.program.optimize z o).value else c.program
    match p.lower o with
    | .error e => .error (.lower e)
    | .ok image =>
      .ok ⟨image.bytes, .ofImage p image (c.warnings.map Warning.text), c.warnings⟩

def compile (z : Optimize.Solver) (o : Options) (source : String) : Except CompileFault Compiled :=
  match readProgram source with
  | .error e => .error (.grammar e)
  | .ok p => p.compile z o

end Covenant
