import Covenant.Proofs.Meaning.Ops

/-! Running a checked program. Parts run from left to right, an object is made before what goes into
it, and a place is found before the value that is stored there. Loops and calls get a limited number of
rounds; a run that needs more is `late`. -/

namespace Covenant.Meaning

/-- What a function body is run with: the declarations, the host, the types of its slots, how many
rounds a loop may take, and what calls to other functions do. -/
structure World where
  records : List RecordDecl
  enums : List EnumDecl
  capacity : Nat
  host : Host
  types : List Ty
  limit : Nat
  call : String → List Val → Eval (Option Val)

/-- One round of a loop, and what comes after it unless the round leaves the loop. -/
def round (body again : Eval Unit) : Eval Unit := fun s =>
  match body s with
  | .done _ s | .jump .next s => again s
  | .jump .leave s => .done () s
  | r => r

def whileLoop (test : Eval Bool) (body : Eval Unit) : Nat → Eval Unit
  | 0 => do if ← test then Eval.late else pure ()
  | n + 1 => do if ← test then round body (whileLoop test body n) else pure ()

/-- Runs a body for the elements of an array from number `i` on. The length is read again each
time. -/
def eachLoop (array : Val) (bind : Val → Eval Unit) (body : Eval Unit) : Nat → Nat → Eval Unit
  | n, i => do
    let (_, es, _) ← arrayAt array
    match es[i]? with
    | none => pure ()
    | some x =>
      match n with
      | 0 => Eval.late
      | n + 1 => do
        bind (← Eval.orStuck x)
        round body (eachLoop array bind body n (i + 1))

def hasValue (type : Option Ty) : Bool :=
  type.any fun t => t ≠ .void && t ≠ .hole

def callee (w : World) (args : List Val) : Callee → Eval (Option Val)
  | .unresolved _ => Eval.stuck
  | .user f => w.call f args
  | .builtin b => do return some (← builtin b args)
  | .host h => hostCall w.host h args

mutual

def expr (w : World) : Expr → Eval (Option Val)
  | .int _ v => pure (some (.ofValue (.int v)))
  | .bool _ b => pure (some (.bool b))
  | .text _ s => pure (some (.text s))
  | .name _ _ sym => do return some (← name w.types sym)
  | .unary _ op e => do return some (← unary op (← need (expr w e)))
  | .binary _ .and l r => do
    if ← truth (expr w l) then expr w r else return some (.bool false)
  | .binary _ .or l r => do
    if ← truth (expr w l) then return some (.bool true) else expr w r
  | .binary _ op l r => do
    let a ← need (expr w l)
    let b ← need (expr w r)
    return some (← binary op a b)
  | .call _ f args => do callee w (← exprs w args) f
  | .method _ e _ args b => do
    let v ← need (expr w e)
    let vs ← exprs w args
    return some (← builtin (← Eval.orStuck b) (v :: vs))
  | .array _ es => do
    let a ← allocate (.array (List.replicate es.length none) (max es.length w.capacity))
    elements w a 0 es
    return some (.ref a)
  | .index _ t i => do
    let a ← need (expr w t)
    let k ← need (expr w i)
    return some (← getElement (← element a k))
  | .field _ e f => do return some (← getField (← need (expr w e)) f)
  | .record _ x fs => do
    let a ← newRecord (← Eval.orStuck (w.records.find? (·.name = x)))
    fields w a fs
    return some (.ref a)
  | .wrap _ k e => do
    let a ← allocate (.variant (fills k) none)
    let v ← need (expr w e)
    put a (.variant (fills k) (some v))
    return some (.ref a)
  | .noneLit _ => do return some (.ref (← allocate (.variant false none)))
  | .enum _ _ _ tag => do return some (.int (BitVec.ofNat 64 (← Eval.orStuck tag)))
  | .select n e as => do
    let v ← need (expr w e)
    let r ← arms w v as
    return if hasValue n.type then r else none
  | .block _ ss none _ => do
    stmts w ss
    return none
  | .block _ ss (some e) _ => do
    stmts w ss
    expr w e

def exprs (w : World) : List Expr → Eval (List Val)
  | [] => pure []
  | e :: es => do
    let v ← need (expr w e)
    let vs ← exprs w es
    return v :: vs

def elements (w : World) (a i : Nat) : List Expr → Eval Unit
  | [] => pure ()
  | e :: es => do
    setElement (a, i) (← need (expr w e))
    elements w a (i + 1) es

def fields (w : World) (a : Nat) : List FieldInit → Eval Unit
  | [] => pure ()
  | .mk _ f e :: fs => do
    setField (.ref a) f (← need (expr w e))
    fields w a fs

def arms (w : World) (v : Val) : List Arm → Eval (Option Val)
  | [] => Eval.trap .noArm
  | .mk _ p e :: as => do
    if ← matches? w.enums v p.form then do
      bindName w.types v p.form
      expr w e
    else arms w v as

def stmt (w : World) : Stmt → Eval Unit
  | .bind _ _ _ e slot => do writeSlot w.types slot (← need (expr w e))
  | .assign _ (.name _ _ sym) e => do
    let v ← need (expr w e)
    writeSlot w.types (sym.bind (·.slot)) v
  | .assign _ (.field _ t f) e => do
    let a ← need (expr w t)
    let v ← need (expr w e)
    setField a f v
  | .assign _ (.index _ t i) e => do
    let a ← need (expr w t)
    let k ← need (expr w i)
    let place ← element a k
    setElement place (← need (expr w e))
  | .assign _ _ _ => Eval.stuck
  | .ret _ none => Eval.jump (.ret none)
  | .ret _ (some e) => do Eval.jump (.ret (some (← need (expr w e))))
  | .expr _ e => do
    let _ ← expr w e
    return ()
  | .cond _ c => chain w c
  | .loop _ e b => whileLoop (truth (expr w e)) (block w b) w.limit
  | .each _ _ e b slot => do
    let a ← need (expr w e)
    eachLoop a (writeSlot w.types slot) (block w b) w.limit 0
  | .leave _ => Eval.jump .leave
  | .next _ => Eval.jump .next

def stmts (w : World) : List Stmt → Eval Unit
  | [] => pure ()
  | s :: ss => do
    stmt w s
    stmts w ss

def block (w : World) : Block → Eval Unit
  | .mk _ ss => stmts w ss

def chain (w : World) : Chain → Eval Unit
  | .stop => pure ()
  | .otherwise b => block w b
  | .branch _ e b rest => do
    if ← truth (expr w e) then block w b else chain w rest

end

/-- A call runs a body in slots of its own. A function with a result must return. -/
def enter (f : FunctionDecl) (body : Eval Unit) (args : List Val) : Eval (Option Val) := fun s =>
  if args.length ≠ f.params.length then .stuck
  else match Slots.empty.fill f.slots 0 args with
    | none => .stuck
    | some slots =>
      match body { s with slots } with
      | .jump (.ret v) t => .done v { t with slots := s.slots }
      | .done _ t =>
        if f.result.isSome then .trap .noReturn { t with slots := s.slots }
        else .done none { t with slots := s.slots }
      | .trap k t => .trap k { t with slots := s.slots }
      | .jump _ _ | .stuck => .stuck
      | .late => .late

end Meaning

namespace Program

open Meaning

def world (p : Program) (host : Host) (capacity : Nat) (types : List Ty) (limit : Nat)
    (call : String → List Val → Eval (Option Val)) : World :=
  ⟨p.records, p.enums, capacity, host, types, limit, call⟩

/-- What a call to a function of a program does when calls may nest `n` deep and loops take `n`
rounds. -/
def calls (p : Program) (host : Host) (capacity : Nat) : Nat → String → List Val → Eval (Option Val)
  | 0, _, _ => Eval.late
  | n + 1, f, args =>
    match p.functions.find? (·.name = f) with
    | none => Eval.stuck
    | some d => enter d (block (p.world host capacity d.slots n (p.calls host capacity n)) d.body) args

end Program

namespace Meaning

inductive Observed where
  | returned (value : Option Val) (heap : Heap) (trace : List Event)
  | trapped (trap : Trap) (heap : Heap) (trace : List Event)
  | stuck
  deriving DecidableEq, Repr

def Outcome.observed? : Outcome (Option Val) → Option Observed
  | .done v s => some (.returned v s.heap s.trace)
  | .trap t s => some (.trapped t s.heap s.trace)
  | .jump _ _ | .stuck => some .stuck
  | .late => none

end Meaning

namespace Program

open Meaning

def run (p : Program) (host : Host) (capacity n : Nat) (f : String) (args : List Val) (heap : Heap) :
    Outcome (Option Val) :=
  p.calls host capacity n f args ⟨.empty, heap, []⟩

def Yields (p : Program) (host : Host) (capacity : Nat) (f : String) (args : List Val) (heap : Heap)
    (o : Observed) : Prop :=
  ∃ n, (p.run host capacity n f args heap).observed? = some o

def Diverges (p : Program) (host : Host) (capacity : Nat) (f : String) (args : List Val)
    (heap : Heap) : Prop :=
  ∀ n, (p.run host capacity n f args heap).observed? = none

end Program

end Covenant
