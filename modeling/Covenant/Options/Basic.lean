import Covenant.Check.State
import Covenant.Text.Quoted

/-! The options of a compilation. Settings are what a user gives; options are settings that hold
together. -/

namespace Covenant

def Policy.text : Policy → String
  | warn => "warn"
  | error => "error"
  | allow => "allow"

def Policy.ofText? : String → Option Policy
  | "warn" => some .warn
  | "error" => some .error
  | "allow" => some .allow
  | _ => none

/-- Sizes are computed in 32-bit words, which half a four-gigabyte memory fits. -/
def pageLimit : Nat := 32768

structure Options where
  optimize : Bool := true
  proveDeadBranches : Bool := true
  solverLimit : Nat := 200000
  shadowing : Policy := .warn
  arrayCapacity : Nat := 16
  initialPages : Nat := 1
  maxPages : Nat := 256
  exportMemory : Bool := false
  hostModule : String := "icn"
  capacity_pos : 1 ≤ arrayCapacity := by decide
  initial_pos : 1 ≤ initialPages := by decide
  initial_le : initialPages ≤ maxPages := by decide
  max_le : maxPages ≤ pageLimit := by decide
  hostModule_ne : hostModule ≠ "" := by decide

def Options.default : Options := {}

def Options.strict : Options := { shadowing := .error }

inductive OptionKind where
  | boolean
  | integer
  | string
  deriving DecidableEq, Repr

def OptionKind.phrase : OptionKind → String
  | boolean => "a boolean"
  | integer => "an integer"
  | string => "a string"

inductive OptionFault where
  | policy (given : String)
  | arrayCapacity
  | solverLimit
  | pages
  | hostModule
  | unknown (key : String)
  | wrongKind (key : String) (kind : OptionKind)
  | unreadable (name : String) (kind : OptionKind) (given : String)
  deriving DecidableEq, Repr

def policyMessage (shown : String) : String :=
  "shadowing must be one of warn, error, allow, got " ++ shown

def OptionFault.message : OptionFault → String
  | policy g => policyMessage (Text.quote g)
  | arrayCapacity => "array_capacity must be at least 1"
  | solverLimit => "solver_rlimit cannot be negative"
  | pages => "memory pages must satisfy 1 <= initial <= max <= " ++ pageLimit.repr
  | hostModule => "host_module cannot be empty"
  | unknown k => "unknown compiler option '" ++ k ++ "'"
  | wrongKind k kind => "compiler option '" ++ k ++ "' must be " ++ kind.phrase
  | unreadable v kind g => v ++ " must be " ++ kind.phrase ++ ", got " ++ Text.quote g

structure Settings where
  optimize : Bool := true
  proveDeadBranches : Bool := true
  solverLimit : Int := 200000
  shadowing : String := "warn"
  arrayCapacity : Int := 16
  initialPages : Int := 1
  maxPages : Int := 256
  exportMemory : Bool := false
  hostModule : String := "icn"
  deriving DecidableEq, Repr

def Settings.check (s : Settings) : Except OptionFault Options :=
  match Policy.ofText? s.shadowing with
  | none => .error (.policy s.shadowing)
  | some shadowing =>
    if hc : s.arrayCapacity < 1 then .error .arrayCapacity
    else if s.solverLimit < 0 then .error .solverLimit
    else if hp : 1 ≤ s.initialPages ∧ s.initialPages ≤ s.maxPages ∧ s.maxPages ≤ pageLimit then
      if hh : s.hostModule = "" then .error .hostModule
      else .ok
        { optimize := s.optimize
          proveDeadBranches := s.proveDeadBranches
          solverLimit := s.solverLimit.toNat
          shadowing := shadowing
          arrayCapacity := s.arrayCapacity.toNat
          initialPages := s.initialPages.toNat
          maxPages := s.maxPages.toNat
          exportMemory := s.exportMemory
          hostModule := s.hostModule
          capacity_pos := by omega
          initial_pos := by omega
          initial_le := by omega
          max_le := by omega
          hostModule_ne := hh }
    else .error .pages

end Covenant
