import Covenant.Diagnostic.Problem
import Covenant.Ty

/-! The capabilities of the host that a contract may import, of which two may share one import, and the built-in
operations on arrays and strings. -/

namespace Covenant

structure HostFunction where
  name : String
  params : List Ty
  result : Option Ty
  importName : String
  deriving DecidableEq, Repr

namespace HostFunction

def all : List HostFunction :=
  [⟨"get_caller", [], some .did, "host_get_caller"⟩,
   ⟨"get_balance", [.did], some .mana, "host_account_get_mana"⟩,
   ⟨"spend_mana", [.did, .mana], some .boolean, "host_account_spend_mana"⟩,
   ⟨"credit_mana", [.did, .mana], some .boolean, "host_account_credit_mana"⟩,
   ⟨"transfer", [.did, .did, .mana], some .boolean, "host_transfer_mana"⟩,
   ⟨"mint_mana", [.did, .mana], some .boolean, "host_mint_mana"⟩,
   ⟨"burn_mana", [.did, .mana], some .boolean, "host_burn_mana"⟩,
   ⟨"get_reputation", [.did], some .integer, "host_get_reputation"⟩,
   ⟨"update_reputation", [.did, .integer], some .boolean, "host_update_reputation"⟩,
   ⟨"has_role", [.did, .string], some .boolean, "host_has_role"⟩,
   ⟨"check_permission", [.did, .string], some .boolean, "host_check_permission"⟩,
   ⟨"now", [], some .integer, "host_get_current_time"⟩,
   ⟨"get_current_time", [], some .integer, "host_get_current_time"⟩,
   ⟨"require", [.boolean, .string], none, "host_require"⟩,
   ⟨"log", [.string], none, "host_log"⟩,
   ⟨"emit_event", [.string, .string], none, "host_emit_event"⟩,
   ⟨"dag_put", [.string], some .string, "host_dag_put"⟩,
   ⟨"dag_get", [.string], some (.option .string), "host_dag_get"⟩,
   ⟨"anchor_receipt", [.string], some .string, "host_anchor_receipt"⟩]

def find? (name : String) : Option HostFunction :=
  all.find? (·.name = name)

end HostFunction

inductive Builtin where
  | arrayLen
  | arrayPush
  | arrayPop
  | arrayContains
  | stringLen
  | stringConcat
  deriving DecidableEq, Repr

namespace Builtin

def name : Builtin → String
  | arrayLen => "array_len"
  | arrayPush => "array_push"
  | arrayPop => "array_pop"
  | arrayContains => "array_contains"
  | stringLen => "string_len"
  | stringConcat => "string_concat"

def ofFunction? : String → Option Builtin
  | "array_len" | "array_length" => some arrayLen
  | "array_push" => some arrayPush
  | "array_pop" => some arrayPop
  | "array_contains" => some arrayContains
  | "string_len" | "string_length" => some stringLen
  | "string_concat" => some stringConcat
  | _ => none

theorem ofFunction?_name (b : Builtin) : ofFunction? b.name = some b := by
  cases b <;> rfl

def ofArrayMethod? : String → Option Builtin
  | "len" | "length" => some arrayLen
  | "push" => some arrayPush
  | "pop" => some arrayPop
  | "contains" => some arrayContains
  | _ => none

def ofStringMethod? : String → Option Builtin
  | "len" | "length" => some stringLen
  | "concat" => some stringConcat
  | _ => none

def ofMethod? : Ty → String → Option Builtin
  | .array _, m => ofArrayMethod? m
  | .string, m => ofStringMethod? m
  | _, _ => none

def arity : Builtin → Nat
  | arrayLen | arrayPop | stringLen => 1
  | arrayPush | arrayContains | stringConcat => 2

def resultOnError : Builtin → Ty
  | arrayLen | arrayPush | stringLen => .integer
  | arrayPop => .error
  | arrayContains => .boolean
  | stringConcat => .string

def textResult (b : Builtin) (result : Ty) (args : List Ty) : Except Problem Ty :=
  match args.find? (· ≠ .string) with
  | some t => .error (.builtinText b.name t)
  | none => .ok result

def arrayResult (b : Builtin) : List Ty → Except Problem Ty
  | .array t :: args =>
    match b, args with
    | arrayPop, _ => .ok (.option t)
    | arrayPush, [item] =>
      if t.compatible item then .ok .integer else .error (.builtinElement b.name t item)
    | arrayContains, [item] =>
      if !t.compatible item then .error (.builtinElement b.name t item)
      else if t.isScalar || t = .hole then .ok .boolean
      else .error (.builtinScalar t)
    | _, _ => .ok .integer
  | t :: _ => .error (.builtinArray b.name t)
  | [] => .ok .error

def result (b : Builtin) (args : List Ty) : Except Problem Ty :=
  if args.length ≠ b.arity then .error (.arity b.name b.arity args.length)
  else if args.contains .error then .ok b.resultOnError
  else match b with
    | stringLen => b.textResult .integer args
    | stringConcat => b.textResult .string args
    | _ => b.arrayResult args

end Builtin

end Covenant
