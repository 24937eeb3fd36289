import Covenant.Options.Source
import Covenant.Toml.Value
import Covenant.Toml.Reader

/-! Settings from the `compiler` table of a manifest. -/

namespace Covenant

/-- Why a manifest gives no options. `shape` is a `compiler` entry whose parts have no names. -/
inductive ManifestFault where
  | unreadable
  | shape
  | option (fault : OptionFault)
  deriving DecidableEq, Repr

def SettingValue.ofToml : Toml.Value → SettingValue
  | .bool b => .bool b
  | .int n => .int n
  | .text s => .text s
  | _ => .other

namespace Options

/-- The value that comes first, if there is any, must be the name of an option, and then lacks a value. -/
def ofFirst (vs : List Toml.Value) : Except ManifestFault Options :=
  match Toml.Value.sorted? vs with
  | none => .error .shape
  | some [] => .ok .default
  | some (v :: _) =>
    match v with
    | .text s =>
      match ({} : Settings).assign s .other with
      | .error (.unknown k) => .error (.option (.unknown k))
      | _ => .error .shape
    | v =>
      match v.label? with
      | some k => .error (.option (.unknown k))
      | none => .error .shape

def ofEntry : Toml.Value → Except ManifestFault Options
  | .table fields =>
    (ofTable (fields.map fun (k, v) => (k, .ofToml v))).mapError .option
  | .text s => ofFirst (s.toList.map fun c => .text (String.ofList [c]))
  | .array items => ofFirst items
  | _ => .error .shape

def ofManifest (source : String) : Except ManifestFault Options :=
  match Toml.read? source with
  | none => .error .unreadable
  | some root =>
    match root.find? "compiler" with
    | none => .ok .default
    | some entry => ofEntry entry

end Options

end Covenant
