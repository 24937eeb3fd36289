import Covenant.Check.Program
import Covenant.Lower.Body
import Covenant.Lower.Routine
import Covenant.Options.Basic
import Covenant.Syntax.Gather

/-! Programs as modules: the imports first, then the functions of the contract, then the routines they need. Imports are
in the order of the text, each call before its arguments. -/

namespace Covenant.Lower

def hosts : Gather HostFunction where
  expr
    | .call _ (.host h) _ => [h]
    | _ => []

abbrev blockHosts (b : Block) : List HostFunction := b.gather hosts

/-- The first of each import name. -/
def distinctImports : List HostFunction → List HostFunction
  | [] => []
  | h :: hs => h :: (distinctImports hs).filter (·.importName ≠ h.importName)

def programImports (p : Program) : List HostFunction :=
  distinctImports (p.functions.flatMap fun f => blockHosts f.body)

open Wasm Memory

def signature (params : List Ty) (result : Option Ty) : FuncType :=
  ⟨params.map Ty.valType, result.toList.map Ty.valType⟩

def targets (base : Nat) (fs : List FunctionDecl) : List Target :=
  fs.zipIdx.map fun (f, i) => ⟨f.name, base + i, signature (f.params.map (·.type)) f.result⟩

structure Body where
  type : FuncType
  locals : List ValType
  code : List Instr

/-- Every path of a function with a result has returned; the end of its code is never reached. -/
def function (c : Context) (d : FunctionDecl) (pool : Pool) : Except Fault (Body × Pool) := do
  let c := { c with slots := d.slots, depth := 0, loop := none }
  let (code, s) ← (block c d.body).run ⟨pool, #[]⟩
  let target ← match c.target? d.name with
    | some t => pure t
    | none => throw (.gap .function)
  let code := if d.result.isSome then code ++ [.trap] else code
  return (⟨target.type, (d.slots.drop d.params.length).map Ty.valType ++ s.temps.toList, code⟩,
    s.pool)

def bodies (c : Context) : List FunctionDecl → Pool → Except Fault (List Body × Pool)
  | [], pool => pure ([], pool)
  | d :: ds, pool => do
    let (b, pool) ← function c d pool
    let (bs, pool) ← bodies c ds pool
    return (b :: bs, pool)

def neededRoutines (bodies : List Body) : List Routine :=
  let called := bodies.flatMap fun b => Instr.routinesOf b.code
  let wanted := called ++ called.flatMap Routine.needs
  Routine.all.filter (wanted.contains ·)

def routineBody (r : Routine) : Body := ⟨r.type, r.locals, r.code⟩

def addImport (host : String) (m : Module) (h : HostFunction) : Module :=
  let (m, i) := m.typeIndex (signature h.params h.result)
  { m with imports := m.imports ++ [⟨host, h.importName, i⟩] }

def addFunction (m : Module) (b : Body) : Module :=
  let (m, i) := m.typeIndex b.type
  { m with functions := m.functions ++ [⟨i, b.locals, Instr.piecesOf b.code⟩] }

def context (o : Options) (p : Program) : Context :=
  let imports := programImports p
  ⟨p.records, p.enums, targets imports.length p.functions, imports, o.arrayCapacity, [], 0, none⟩

def routineNumber (base : Nat) (rs : List Routine) (name : String) : Option Nat :=
  (rs.findIdx? (·.name = name)).map (base + ·)

def assemble (o : Options) (imports : List HostFunction) (entry : Nat) (bodies : List Body)
    (pool : Pool) : Module :=
  let m := imports.foldl (addImport o.hostModule) .empty
  let m := bodies.foldl addFunction m
  { m with
    memory := some ⟨max o.initialPages pool.pages, o.maxPages⟩
    globals := [⟨.i32, true, pool.heapBase⟩]
    exports := ⟨entryPoint, functionKind, entry⟩ ::
      (if o.exportMemory then [⟨"memory", memoryKind, 0⟩] else [])
    segments := if pool.texts.isEmpty then [] else [⟨dataBase, pool.bytes⟩] }

structure Image where
  module : Module
  bytes : List UInt8

end Lower

open Lower Wasm Memory in
def Program.lower (o : Options) (p : Program) : Except Fault Image := do
  let c := context o p
  match c.target? entryPoint with
  | none => throw (.noEntryPoint entryPoint)
  | some entry =>
    let (own, pool) ← bodies c p.functions .empty
    let routines := neededRoutines own
    let pages := max o.initialPages pool.pages
    if o.maxPages < pages then throw (.dataTooLarge pages o.maxPages)
    else
      let m := assemble o c.imports entry.index (own ++ routines.map routineBody) pool
      match m.bytes? (routineNumber (c.imports.length + own.length) routines) with
      | some bytes => return ⟨m, bytes⟩
      | none => throw (.gap .routine)

end Covenant
