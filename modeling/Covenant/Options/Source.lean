import Covenant.Options.Basic
import Covenant.Text.Character

/-! Where settings come from: a table of named values, the variables of an environment, or options given directly. Of
the last no value is checked for its kind: it only has to fit the rules. -/

namespace Covenant

inductive SettingValue where
  | bool (b : Bool)
  | int (n : Int)
  | text (s : String)
  | missing
  | other
  deriving DecidableEq, Repr

namespace Settings

def assign (s : Settings) (key : String) (value : SettingValue) : Except OptionFault Settings :=
  let boolean (put : Bool → Settings) : Except OptionFault Settings :=
    match value with
    | .bool b => .ok (put b)
    | _ => .error (.wrongKind key .boolean)
  let integer (put : Int → Settings) : Except OptionFault Settings :=
    match value with
    | .int n => .ok (put n)
    | _ => .error (.wrongKind key .integer)
  let string (put : String → Settings) : Except OptionFault Settings :=
    match value with
    | .text t => .ok (put t)
    | _ => .error (.wrongKind key .string)
  match key with
  | "optimize" => boolean fun b => { s with optimize := b }
  | "prove_dead_branches" => boolean fun b => { s with proveDeadBranches := b }
  | "solver_rlimit" => integer fun n => { s with solverLimit := n }
  | "shadowing" => string fun t => { s with shadowing := t }
  | "array_capacity" => integer fun n => { s with arrayCapacity := n }
  | "initial_memory_pages" => integer fun n => { s with initialPages := n }
  | "max_memory_pages" => integer fun n => { s with maxPages := n }
  | "export_memory" => boolean fun b => { s with exportMemory := b }
  | "host_module" => string fun t => { s with hostModule := t }
  | _ => .error (.unknown key)

def ofTable (table : List (String × SettingValue)) : Except OptionFault Settings :=
  (table.mergeSort (fun a b => a.1 ≤ b.1)).foldlM (fun s kv => s.assign kv.1 kv.2) {}

def boolean? (raw : String) : Option Bool :=
  let text := Text.lower (Text.strip raw)
  if ["1", "true", "yes", "on"].contains text then some true
  else if ["0", "false", "no", "off"].contains text then some false
  else none

def integer? (raw : String) : Option Int :=
  Text.integer? (Text.strip raw).toList

def withVariable {α : Type} (env : List (String × String)) (name : String) (kind : OptionKind)
    (read : String → Option α) (put : Settings → α → Settings) (s : Settings) :
    Except OptionFault Settings :=
  match env.lookup name with
  | none => .ok s
  | some raw =>
    match read raw with
    | some a => .ok (put s a)
    | none => .error (.unreadable name kind raw)

def ofEnvironment (env : List (String × String)) : Except OptionFault Settings := do
  let s : Settings := {}
  let s ← withVariable env "CCL_OPTIMIZE" .boolean boolean?
    (fun s b => { s with optimize := b }) s
  let s ← withVariable env "CCL_SHADOWING" .string (fun raw => some (Text.lower (Text.strip raw)))
    (fun s t => { s with shadowing := t }) s
  let s ← withVariable env "CCL_ARRAY_CAPACITY" .integer integer?
    (fun s n => { s with arrayCapacity := n }) s
  let s ← withVariable env "CCL_EXPORT_MEMORY" .boolean boolean?
    (fun s b => { s with exportMemory := b }) s
  withVariable env "CCL_SOLVER_RLIMIT" .integer integer?
    (fun s n => { s with solverLimit := n }) s

end Settings

namespace Options

def ofTable (table : List (String × SettingValue)) : Except OptionFault Options := do
  (← Settings.ofTable table).check

def ofEnvironment (env : List (String × String)) : Except OptionFault Options := do
  (← Settings.ofEnvironment env).check

end Options

namespace SettingValue

def number? : SettingValue → Option Int
  | bool b => some (if b then 1 else 0)
  | int n => some n
  | _ => none

def isVoid : SettingValue → Bool
  | bool b => !b
  | int n => n = 0
  | text s => s = ""
  | missing => true
  | other => false

def shown : SettingValue → String
  | bool b => if b then "True" else "False"
  | int n => toString n
  | text s => Text.quote s
  | missing => "None"
  | other => ""

end SettingValue

structure DirectOptions where
  optimize : SettingValue := .bool true
  proveDeadBranches : SettingValue := .bool true
  solverLimit : SettingValue := .int 200000
  shadowing : SettingValue := .text "warn"
  arrayCapacity : SettingValue := .int 16
  initialPages : SettingValue := .int 1
  maxPages : SettingValue := .int 256
  exportMemory : SettingValue := .bool false
  hostModule : SettingValue := .text "icn"
  deriving DecidableEq, Repr

/-- Why values make no options: there is no option of a name, a value has no order with numbers, or a rule
is broken. -/
inductive DirectFault where
  | name (key : String)
  | kind
  | policy (given : SettingValue)
  | rule (fault : OptionFault)
  deriving DecidableEq, Repr

namespace DirectOptions

def assign (o : DirectOptions) (key : String) (v : SettingValue) : Except DirectFault DirectOptions :=
  match key with
  | "optimize" => .ok { o with optimize := v }
  | "prove_dead_branches" => .ok { o with proveDeadBranches := v }
  | "solver_rlimit" => .ok { o with solverLimit := v }
  | "shadowing" => .ok { o with shadowing := v }
  | "array_capacity" => .ok { o with arrayCapacity := v }
  | "initial_memory_pages" => .ok { o with initialPages := v }
  | "max_memory_pages" => .ok { o with maxPages := v }
  | "export_memory" => .ok { o with exportMemory := v }
  | "host_module" => .ok { o with hostModule := v }
  | _ => .error (.name key)

def number (v : SettingValue) : Except DirectFault Int :=
  match v.number? with
  | some n => .ok n
  | none => .error .kind

def require (fault : OptionFault) (b : Bool) : Except DirectFault Unit :=
  if b then .ok () else .error (.rule fault)

def checkPolicy (v : SettingValue) : Except DirectFault Unit :=
  match v with
  | .text s => if (Policy.ofText? s).isSome then .ok () else .error (.policy v)
  | v => .error (.policy v)

/-- The numbers of pages are compared from left to right. -/
def checkPages (o : DirectOptions) : Except DirectFault Unit := do
  let initial ← number o.initialPages
  require .pages (1 ≤ initial)
  let most ← number o.maxPages
  require .pages (initial ≤ most && most ≤ pageLimit)

def check (o : DirectOptions) : Except DirectFault DirectOptions := do
  checkPolicy o.shadowing
  require .arrayCapacity (1 ≤ (← number o.arrayCapacity))
  require .solverLimit (0 ≤ (← number o.solverLimit))
  checkPages o
  require .hostModule (!o.hostModule.isVoid)
  return o

def ofTable (table : List (String × SettingValue)) : Except DirectFault DirectOptions := do
  let o ← table.foldlM (fun (o : DirectOptions) (k, v) => o.assign k v) {}
  o.check

end DirectOptions

def DirectFault.message? : DirectFault → Option String
  | name _ | kind => none
  | policy v => some (policyMessage v.shown)
  | rule f => some f.message

end Covenant
