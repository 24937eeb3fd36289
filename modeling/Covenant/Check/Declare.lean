import Covenant.Check.State

/-! Collecting declarations. Every function and type is known before any body is looked at, so their
order in the source does not matter. -/

namespace Covenant.Check

def isReserved (name : String) : Bool :=
  (Builtin.ofFunction? name).isSome || (HostFunction.find? name).isSome

structure Declared where
  functions : List FunctionDecl
  records : List RecordDecl
  enums : List EnumDecl

namespace Declared

def empty : Declared := ⟨[], [], []⟩

def hasFunction (d : Declared) (name : String) : Bool :=
  d.functions.any (·.name = name)

def hasType (d : Declared) (name : String) : Bool :=
  d.records.any (·.name = name) || d.enums.any (·.name = name) || (Ty.ofName? name).isSome

end Declared

def checkVariants (d : EnumDecl) (seen : List String) : List String → Checking Unit
  | [] => return
  | v :: vs => do
    reportIf (seen.contains v) (.variantRepeated v d.name) d.pos
    checkVariants d (v :: seen) vs

def collectItem (d : Declared) : Item → Checking Declared
  | .function f => do
    if d.hasFunction f.name then
      reportIf true (.functionRedefined f.name) f.pos
      return d
    else if isReserved f.name then
      reportIf true (.functionReserved f.name) f.pos
      return d
    else
      return { d with functions := d.functions ++ [f] }
  | .record r => do
    if d.hasType r.name then
      reportIf true (.typeRedefined r.name) r.pos
      return d
    else
      return { d with records := d.records ++ [r] }
  | .enum e => do
    if d.hasType e.name then
      reportIf true (.typeRedefined e.name) e.pos
      return d
    else
      reportIf e.variants.isEmpty (.emptyEnum e.name) e.pos
      checkVariants e [] e.variants
      return { d with enums := d.enums ++ [e] }
  | .constant _ => return d

def collectItems (d : Declared) : List Item → Checking Declared
  | [] => return d
  | i :: is => do collectItems (← collectItem d i) is

def checkFields (env : Env) (record : String) (seen : List String) :
    List FieldDecl → Checking (List FieldDecl)
  | [] => return []
  | f :: fs => do
    reportIf (seen.contains f.name) (.fieldRepeated f.name record) f.pos
    let t ← resolveType env f.type f.pos
    return { f with type := t } :: (← checkFields env record (f.name :: seen) fs)

def checkRecords (env : Env) : List RecordDecl → Checking (List RecordDecl)
  | [] => return []
  | r :: rs => do
    let fields ← checkFields env r.name [] r.fields
    return { r with fields } :: (← checkRecords env rs)

def checkParams (env : Env) : List Param → Checking (List Param)
  | [] => return []
  | p :: ps => do
    let t ← resolveType env p.type p.pos
    return { p with type := t } :: (← checkParams env ps)

def checkSignatures (env : Env) : List FunctionDecl → Checking (List FunctionDecl)
  | [] => return []
  | f :: fs => do
    let params ← checkParams env f.params
    let result ← match f.result with
      | some t => some <$> resolveType env t f.pos
      | none => pure none
    return { f with params, result } :: (← checkSignatures env fs)

def signatureOf (f : FunctionDecl) : Signature :=
  ⟨f.name, f.params.map (·.type), f.result⟩

def collect (policy : Policy) (items : List Item) : Checking (Env × Declared) := do
  let d ← collectItems .empty items
  let env : Env := ⟨policy, [], d.records, d.enums, none⟩
  let records ← checkRecords env d.records
  let functions ← checkSignatures env d.functions
  return (⟨policy, functions.map signatureOf, records, d.enums, none⟩,
    ⟨functions, records, d.enums⟩)

end Covenant.Check
