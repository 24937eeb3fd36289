import Covenant.Check.Program
import Mathlib.Logic.Function.Basic

/-! Programs with other names and places. A renaming has a map for each kind of name. It is faithful if none of
them gives two names the same new one, and what a name means without any declaration keeps its name. -/

namespace Covenant

/-- New names and places. Variables are parameters, locals, names bound by patterns, and constants. -/
structure Renaming where
  var : String → String
  function : String → String
  type : String → String
  field : String → String
  variant : String → String
  place : Pos → Pos

namespace Renaming

class Faithful (ρ : Renaming) : Prop where
  var_injective : Function.Injective ρ.var
  function_injective : Function.Injective ρ.function
  type_injective : Function.Injective ρ.type
  field_injective : Function.Injective ρ.field
  variant_injective : Function.Injective ρ.variant
  entry_fixed : ρ.function entryPoint = entryPoint
  reserved_fixed : ∀ f, Check.isReserved f = true → ρ.function f = f
  known_fixed : ∀ x, (Ty.ofName? x).isSome = true → ρ.type x = x

section

variable (ρ : Renaming) [h : ρ.Faithful]

theorem var_injective : Function.Injective ρ.var := h.var_injective

theorem function_injective : Function.Injective ρ.function := h.function_injective

theorem type_injective : Function.Injective ρ.type := h.type_injective

theorem field_injective : Function.Injective ρ.field := h.field_injective

theorem variant_injective : Function.Injective ρ.variant := h.variant_injective

theorem entry_fixed : ρ.function entryPoint = entryPoint := h.entry_fixed

theorem reserved_fixed : ∀ f, Check.isReserved f = true → ρ.function f = f := h.reserved_fixed

theorem known_fixed : ∀ x, (Ty.ofName? x).isSome = true → ρ.type x = x := h.known_fixed

end

def placeless : Renaming where
  var x := x
  function x := x
  type x := x
  field x := x
  variant x := x
  place _ := .unknown

instance : placeless.Faithful where
  var_injective := Function.injective_id
  function_injective := Function.injective_id
  type_injective := Function.injective_id
  field_injective := Function.injective_id
  variant_injective := Function.injective_id
  entry_fixed := rfl
  reserved_fixed _ _ := rfl
  known_fixed _ _ := rfl

end Renaming

variable (ρ : Renaming)

def Ty.rename : Ty → Ty
  | .integer => .integer
  | .mana => .mana
  | .boolean => .boolean
  | .string => .string
  | .did => .did
  | .void => .void
  | .error => .error
  | .hole => .hole
  | .array t => .array t.rename
  | .option t => .option t.rename
  | .result t => .result t.rename
  | .record n => .record (ρ.type n)
  | .enum n => .enum (ρ.type n)

def Symbol.rename (s : Symbol) : Symbol :=
  { s with name := ρ.var s.name, type := s.type.rename ρ }

def Note.rename (n : Note) : Note := ⟨ρ.place n.pos, n.type.map (Ty.rename ρ)⟩

def Binder.rename (b : Binder) : Binder := { b with name := ρ.var b.name }

def PatternForm.rename : PatternForm → PatternForm
  | .int v => .int v
  | .bool b => .bool b
  | .text s => .text s
  | .wild => .wild
  | .bind b => .bind (b.rename ρ)
  | .some b => .some (b.map (Binder.rename ρ))
  | .none => .none
  | .ok b => .ok (b.map (Binder.rename ρ))
  | .err b => .err (b.map (Binder.rename ρ))
  | .enum o v => .enum (ρ.type o) (ρ.variant v)

def Pattern.rename (p : Pattern) : Pattern := ⟨ρ.place p.pos, p.form.rename ρ⟩

def HostFunction.rename (h : HostFunction) : HostFunction := { h with name := ρ.function h.name }

def Callee.rename : Callee → Callee
  | .unresolved f => .unresolved (ρ.function f)
  | .user f => .user (ρ.function f)
  | .builtin op => .builtin op
  | .host h => .host (h.rename ρ)

mutual

def Expr.rename : Expr → Expr
  | .int n v => .int (n.rename ρ) v
  | .bool n b => .bool (n.rename ρ) b
  | .text n s => .text (n.rename ρ) s
  | .name n x sym => .name (n.rename ρ) (ρ.var x) (sym.map (Symbol.rename ρ))
  | .unary n op e => .unary (n.rename ρ) op e.rename
  | .binary n op a b => .binary (n.rename ρ) op a.rename b.rename
  | .call n f args => .call (n.rename ρ) (f.rename ρ) (Expr.renameIn args)
  | .method n e m args b => .method (n.rename ρ) e.rename m (Expr.renameIn args) b
  | .array n es => .array (n.rename ρ) (Expr.renameIn es)
  | .index n a i => .index (n.rename ρ) a.rename i.rename
  | .field n e f => .field (n.rename ρ) e.rename (ρ.field f)
  | .record n x fs => .record (n.rename ρ) (ρ.type x) (FieldInit.renameIn fs)
  | .wrap n w e => .wrap (n.rename ρ) w e.rename
  | .noneLit n => .noneLit (n.rename ρ)
  | .enum n o v tag => .enum (n.rename ρ) (ρ.type o) (ρ.variant v) tag
  | .select n e as => .select (n.rename ρ) e.rename (Arm.renameIn as)
  | .block n ss none d => .block (n.rename ρ) (Stmt.renameIn ss) none d
  | .block n ss (some e) d => .block (n.rename ρ) (Stmt.renameIn ss) (some e.rename) d

def Expr.renameIn : List Expr → List Expr
  | [] => []
  | e :: es => e.rename :: Expr.renameIn es

def FieldInit.renameIn : List FieldInit → List FieldInit
  | [] => []
  | .mk p x e :: fs => .mk (ρ.place p) (ρ.field x) e.rename :: FieldInit.renameIn fs

def Arm.renameIn : List Arm → List Arm
  | [] => []
  | .mk p x e :: as => .mk (ρ.place p) (x.rename ρ) e.rename :: Arm.renameIn as

def Stmt.rename : Stmt → Stmt
  | .bind p x d e slot => .bind (ρ.place p) (ρ.var x) (d.map (Ty.rename ρ)) e.rename slot
  | .assign p t e => .assign (ρ.place p) t.rename e.rename
  | .ret p none => .ret (ρ.place p) none
  | .ret p (some e) => .ret (ρ.place p) (some e.rename)
  | .expr p e => .expr (ρ.place p) e.rename
  | .cond p c => .cond (ρ.place p) c.rename
  | .loop p e b => .loop (ρ.place p) e.rename b.rename
  | .each p x e b slot => .each (ρ.place p) (ρ.var x) e.rename b.rename slot
  | .leave p => .leave (ρ.place p)
  | .next p => .next (ρ.place p)

def Stmt.renameIn : List Stmt → List Stmt
  | [] => []
  | s :: ss => s.rename :: Stmt.renameIn ss

def Block.rename : Block → Block
  | .mk p ss => .mk (ρ.place p) (Stmt.renameIn ss)

def Chain.rename : Chain → Chain
  | .stop => .stop
  | .otherwise b => .otherwise b.rename
  | .branch p e b c => .branch (ρ.place p) e.rename b.rename c.rename

end

def Param.rename (p : Param) : Param := ⟨ρ.place p.pos, ρ.var p.name, p.type.rename ρ⟩

def FieldDecl.rename (f : FieldDecl) : FieldDecl := ⟨ρ.place f.pos, ρ.field f.name, f.type.rename ρ⟩

def FunctionDecl.rename (f : FunctionDecl) : FunctionDecl where
  pos := ρ.place f.pos
  name := ρ.function f.name
  params := f.params.map (Param.rename ρ)
  result := f.result.map (Ty.rename ρ)
  body := f.body.rename ρ
  slots := f.slots.map (Ty.rename ρ)

def RecordDecl.rename (r : RecordDecl) : RecordDecl :=
  ⟨ρ.place r.pos, ρ.type r.name, r.fields.map (FieldDecl.rename ρ)⟩

def EnumDecl.rename (e : EnumDecl) : EnumDecl :=
  ⟨ρ.place e.pos, ρ.type e.name, e.variants.map ρ.variant⟩

def ConstDecl.rename (c : ConstDecl) : ConstDecl :=
  ⟨ρ.place c.pos, ρ.var c.name, c.type.rename ρ, c.value.rename ρ⟩

def Item.rename : Item → Item
  | .function f => .function (f.rename ρ)
  | .record r => .record (r.rename ρ)
  | .enum e => .enum (e.rename ρ)
  | .constant c => .constant (c.rename ρ)

/-- The header of a contract stays: it names nothing that the items use. -/
def Program.rename (p : Program) : Program :=
  { p with pos := ρ.place p.pos, items := p.items.map (Item.rename ρ) }

def Problem.rename : Problem → Problem
  | .functionRedefined f => .functionRedefined (ρ.function f)
  | .functionReserved f => .functionReserved (ρ.function f)
  | .typeRedefined n => .typeRedefined (ρ.type n)
  | .fieldRepeated f r => .fieldRepeated (ρ.field f) (ρ.type r)
  | .variantRepeated v e => .variantRepeated (ρ.variant v) (ρ.type e)
  | .constantRedefined x => .constantRedefined (ρ.var x)
  | .parameterRepeated x f => .parameterRepeated (ρ.var x) (ρ.function f)
  | .emptyEnum n => .emptyEnum (ρ.type n)
  | .unknownType n => .unknownType (ρ.type n)
  | .notConstant x => .notConstant (ρ.var x)
  | .constantType x s t => .constantType (ρ.var x) (s.rename ρ) (t.rename ρ)
  | .noEntryPoint => .noEntryPoint
  | .entryResult t => .entryResult (t.rename ρ)
  | .entryParameter x t => .entryParameter (ρ.var x) (t.rename ρ)
  | .missingReturn f t => .missingReturn (ρ.function f) (t.rename ρ)
  | .conditionType w t => .conditionType w (t.rename ρ)
  | .letType x s t => .letType (ρ.var x) (s.rename ρ) (t.rename ρ)
  | .uninferable x => .uninferable (ρ.var x)
  | .hides w x => .hides w (ρ.var x)
  | .undeclaredTarget x => .undeclaredTarget (ρ.var x)
  | .immutableTarget k x => .immutableTarget k (ρ.var x)
  | .assignedType s t => .assignedType (s.rename ρ) (t.rename ρ)
  | .returnsNothing f t => .returnsNothing (ρ.function f) (t.rename ρ)
  | .returnsValue f t => .returnsValue (ρ.function f) (t.rename ρ)
  | .returnedType f s t => .returnedType (ρ.function f) (s.rename ρ) (t.rename ρ)
  | .unknownElement => .unknownElement
  | .notIterable t => .notIterable (t.rename ρ)
  | .outsideLoop w => .outsideLoop w
  | .noValue => .noValue
  | .literalRange => .literalRange
  | .undefinedName x => .undefinedName (ρ.var x)
  | .unaryOperand op t => .unaryOperand op (t.rename ρ)
  | .binaryOperands op s t => .binaryOperands op (s.rename ρ) (t.rename ρ)
  | .arity f m n => .arity (ρ.function f) m n
  | .argumentType i f s t => .argumentType i (ρ.function f) (s.rename ρ) (t.rename ρ)
  | .undefinedFunction f => .undefinedFunction (ρ.function f)
  | .noMethod t m => .noMethod (t.rename ρ) m
  | .builtinText f t => .builtinText f (t.rename ρ)
  | .builtinArray f t => .builtinArray f (t.rename ρ)
  | .builtinElement f s t => .builtinElement f (s.rename ρ) (t.rename ρ)
  | .builtinScalar t => .builtinScalar (t.rename ρ)
  | .elementTypes s t => .elementTypes (s.rename ρ) (t.rename ρ)
  | .indexType t => .indexType (t.rename ρ)
  | .notIndexable t => .notIndexable (t.rename ρ)
  | .fieldOfNonRecord t f => .fieldOfNonRecord (t.rename ρ) (ρ.field f)
  | .unknownRecord n => .unknownRecord (ρ.type n)
  | .noField r f => .noField (ρ.type r) (ρ.field f)
  | .fieldGivenTwice f => .fieldGivenTwice (ρ.field f)
  | .fieldType f s t => .fieldType (ρ.field f) (s.rename ρ) (t.rename ρ)
  | .missingFields r fs => .missingFields (ρ.type r) (fs.map ρ.field)
  | .unknownEnum n => .unknownEnum (ρ.type n)
  | .noVariant e v => .noVariant (ρ.type e) (ρ.variant v)
  | .errPayload t => .errPayload (t.rename ρ)
  | .notMatchable t => .notMatchable (t.rename ρ)
  | .armTypes s t => .armTypes (s.rename ρ) (t.rename ρ)
  | .notExhaustive t => .notExhaustive (t.rename ρ)
  | .patternRange => .patternRange
  | .patternType w t => .patternType w (t.rename ρ)

theorem Problem.kind_rename (p : Problem) : (p.rename ρ).kind = p.kind := by
  cases p <;> rfl

def Diagnostic.rename (d : Diagnostic) : Diagnostic := ⟨d.problem.rename ρ, ρ.place d.pos⟩

def Caution.rename : Caution → Caution
  | .unreachableStatement => .unreachableStatement
  | .unreachableArm => .unreachableArm
  | .hides w x => .hides w (ρ.var x)

def Warning.rename (w : Warning) : Warning := ⟨w.caution.rename ρ, ρ.place w.pos⟩

end Covenant
