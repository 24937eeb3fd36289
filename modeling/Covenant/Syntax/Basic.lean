import Covenant.Library

/-! The syntax tree of a contract. Reading fills in shapes and places; checking adds types, symbols,
slots, callees and tags to the same tree. -/

namespace Covenant

/-- What every expression carries: its place, and its type once it is checked. -/
structure Note where
  pos : Pos
  type : Option Ty
  deriving DecidableEq, Repr

structure Binder where
  name : String
  slot : Option Nat
  deriving DecidableEq, Repr

inductive PatternForm where
  | int (value : Int)
  | bool (value : Bool)
  | text (value : String)
  | wild
  | bind (binder : Binder)
  | some (binder : Option Binder)
  | none
  | ok (binder : Option Binder)
  | err (binder : Option Binder)
  | enum (owner variant : String)
  deriving DecidableEq, Repr

namespace PatternForm

def word : PatternForm → String
  | int _ => "int"
  | bool _ => "bool"
  | text _ => "string"
  | wild => "wild"
  | bind _ => "bind"
  | some _ => "some"
  | none => "none"
  | ok _ => "ok"
  | err _ => "err"
  | enum _ _ => "enum"

def binder? : PatternForm → Option Binder
  | bind b => Option.some b
  | some b | ok b | err b => b
  | _ => Option.none

def setBinder (b : Binder) : PatternForm → PatternForm
  | bind _ => bind b
  | some _ => some (Option.some b)
  | ok _ => ok (Option.some b)
  | err _ => err (Option.some b)
  | p => p

def isCatchAll : PatternForm → Bool
  | wild | bind _ => true
  | _ => false

end PatternForm

structure Pattern where
  pos : Pos
  form : PatternForm
  deriving DecidableEq, Repr

inductive Callee where
  | unresolved (name : String)
  | user (name : String)
  | builtin (op : Builtin)
  | host (fn : HostFunction)
  deriving DecidableEq, Repr

def Callee.name : Callee → String
  | unresolved n | user n => n
  | builtin op => op.name
  | host fn => fn.name

inductive Wrapper where
  | some
  | ok
  | err
  deriving DecidableEq, Repr

def Wrapper.text : Wrapper → String
  | some => "Some"
  | ok => "Ok"
  | err => "Err"

mutual

inductive Expr where
  | int (note : Note) (value : Int)
  | bool (note : Note) (value : Bool)
  | text (note : Note) (value : String)
  | name (note : Note) (name : String) (symbol : Option Symbol)
  | unary (note : Note) (op : UnaryOp) (operand : Expr)
  | binary (note : Note) (op : BinaryOp) (left right : Expr)
  | call (note : Note) (callee : Callee) (args : List Expr)
  | method (note : Note) (receiver : Expr) (method : String) (args : List Expr)
      (builtin : Option Builtin)
  | array (note : Note) (elements : List Expr)
  | index (note : Note) (target index : Expr)
  | field (note : Note) (target : Expr) (field : String)
  | record (note : Note) (name : String) (fields : List FieldInit)
  | wrap (note : Note) (wrapper : Wrapper) (value : Expr)
  | noneLit (note : Note)
  | enum (note : Note) (owner variant : String) (tag : Option Nat)
  | select (note : Note) (scrutinee : Expr) (arms : List Arm)
  | block (note : Note) (statements : List Stmt) (tail : Option Expr) (diverges : Bool)

inductive FieldInit where
  | mk (pos : Pos) (name : String) (value : Expr)

inductive Arm where
  | mk (pos : Pos) (pattern : Pattern) (body : Expr)

inductive Stmt where
  | bind (pos : Pos) (name : String) (declared : Option Ty) (value : Expr) (slot : Option Nat)
  | assign (pos : Pos) (target value : Expr)
  | ret (pos : Pos) (value : Option Expr)
  | expr (pos : Pos) (expr : Expr)
  | cond (pos : Pos) (chain : Chain)
  | loop (pos : Pos) (condition : Expr) (body : Block)
  | each (pos : Pos) (name : String) (iterable : Expr) (body : Block) (slot : Option Nat)
  | leave (pos : Pos)
  | next (pos : Pos)

inductive Block where
  | mk (pos : Pos) (statements : List Stmt)

/-- The branches of an `if` statement in order, ended by an `else` block or by nothing. -/
inductive Chain where
  | stop
  | otherwise (body : Block)
  | branch (pos : Pos) (condition : Expr) (body : Block) (rest : Chain)

end

def Expr.note : Expr → Note
  | .int n _ | .bool n _ | .text n _ | .name n _ _ | .unary n _ _ | .binary n _ _ _
  | .call n _ _ | .method n _ _ _ _ | .array n _ | .index n _ _ | .field n _ _
  | .record n _ _ | .wrap n _ _ | .noneLit n | .enum n _ _ _ | .select n _ _ | .block n _ _ _ => n

def Expr.pos (e : Expr) : Pos := e.note.pos

def Expr.type (e : Expr) : Option Ty := e.note.type

def FieldInit.pos : FieldInit → Pos
  | .mk p _ _ => p

def FieldInit.name : FieldInit → String
  | .mk _ n _ => n

def FieldInit.value : FieldInit → Expr
  | .mk _ _ v => v

def Arm.pos : Arm → Pos
  | .mk p _ _ => p

def Arm.pattern : Arm → Pattern
  | .mk _ p _ => p

def Arm.body : Arm → Expr
  | .mk _ _ b => b

def Stmt.pos : Stmt → Pos
  | .bind p _ _ _ _ | .assign p _ _ | .ret p _ | .expr p _ | .cond p _ | .loop p _ _
  | .each p _ _ _ _ | .leave p | .next p => p

def Block.pos : Block → Pos
  | .mk p _ => p

def Block.statements : Block → List Stmt
  | .mk _ ss => ss

structure Param where
  pos : Pos
  name : String
  type : Ty
  deriving DecidableEq, Repr

structure FieldDecl where
  pos : Pos
  name : String
  type : Ty
  deriving DecidableEq, Repr

/-- `slots` gives the type of each storage slot, the parameters first, once it is checked. -/
structure FunctionDecl where
  pos : Pos
  name : String
  params : List Param
  result : Option Ty
  body : Block
  slots : List Ty

structure RecordDecl where
  pos : Pos
  name : String
  fields : List FieldDecl
  deriving DecidableEq, Repr

def RecordDecl.fieldIndex? (r : RecordDecl) (name : String) : Option Nat :=
  r.fields.findIdx? (·.name = name)

structure EnumDecl where
  pos : Pos
  name : String
  variants : List String
  deriving DecidableEq, Repr

def EnumDecl.tag? (e : EnumDecl) (variant : String) : Option Nat :=
  e.variants.findIdx? (· = variant)

structure ConstDecl where
  pos : Pos
  name : String
  type : Ty
  value : Expr

inductive Item where
  | function (decl : FunctionDecl)
  | record (decl : RecordDecl)
  | enum (decl : EnumDecl)
  | constant (decl : ConstDecl)

structure ContractHeader where
  name : String
  scope : Option String
  version : Option String
  deriving DecidableEq, Repr

structure Program where
  pos : Pos
  items : List Item
  contract : Option ContractHeader

namespace Program

def functions (p : Program) : List FunctionDecl :=
  p.items.filterMap fun | .function d => some d | _ => none

def records (p : Program) : List RecordDecl :=
  p.items.filterMap fun | .record d => some d | _ => none

def enums (p : Program) : List EnumDecl :=
  p.items.filterMap fun | .enum d => some d | _ => none

def constants (p : Program) : List ConstDecl :=
  p.items.filterMap fun | .constant d => some d | _ => none

end Program

end Covenant
