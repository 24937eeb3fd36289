import Covenant.Fold
import Covenant.Guard.Formula
import Covenant.Options.Basic

/-! Folding of constant expressions and removal of branches and loops that never run, with a count of the savings.
Which guards are out of the question is asked of a prover, a function that says whether it can refute a formula. -/

namespace Covenant

structure Savings where
  folds : Nat
  pruned : Nat
  deriving DecidableEq, Repr

namespace Savings

def zero : Savings := ⟨0, 0⟩

def add (s t : Savings) : Savings := ⟨s.folds + t.folds, s.pruned + t.pruned⟩

theorem zero_add (s : Savings) : zero.add s = s := by
  simp [add, zero]

theorem add_zero (s : Savings) : s.add zero = s := by
  simp [add, zero]

theorem add_assoc (r s t : Savings) : (r.add s).add t = r.add (s.add t) := by
  simp [add, Nat.add_assoc]

end Savings

structure Tally (α : Type) where
  value : α
  savings : Savings

namespace Tally

variable {α β : Type}

instance : Monad Tally where
  pure a := ⟨a, .zero⟩
  bind x f := ⟨(f x.value).value, x.savings.add (f x.value).savings⟩

instance : LawfulMonad Tally :=
  LawfulMonad.mk' Tally
    (fun x => by simp [Functor.map, Savings.add_zero])
    (fun a f => by simp [bind, pure, Savings.zero_add])
    (fun x f g => by simp [bind, Savings.add_assoc])

def folded (a : α) : Tally α := ⟨a, ⟨1, 0⟩⟩

def pruned (a : α) : Tally α := ⟨a, ⟨0, 1⟩⟩

@[simp] theorem value_pure (a : α) : (pure a : Tally α).value = a := rfl

@[simp] theorem value_bind (x : Tally α) (f : α → Tally β) :
    (x >>= f).value = (f x.value).value := rfl

@[simp] theorem value_map (f : α → β) (x : Tally α) : (f <$> x).value = f x.value := rfl

@[simp] theorem value_folded (a : α) : (folded a).value = a := rfl

@[simp] theorem value_pruned (a : α) : (pruned a).value = a := rfl

end Tally

namespace Optimize

open Guard

/-- Says of a formula whether it surely has no solution. -/
abbrev Prover := Formula → Bool

def idle : Prover := fun _ => false

/-- A prover for each limit on what it may spend. -/
abbrev Solver := Nat → Prover

/-- A guard is never true, given facts, if the two together are refuted. -/
def neverTrue (refutes : Prover) (facts : List Formula) (guard : Expr) : Bool :=
  match guard with
  | .bool _ b => !b
  | e =>
    match formula? e with
    | some f => refutes (.conj (facts ++ [f]))
    | none => false

def alwaysTrue (refutes : Prover) (facts : List Formula) (guard : Expr) : Bool :=
  match guard with
  | .bool _ b => b
  | e =>
    match formula? e with
    | some f => refutes (.conj (facts ++ [.not f]))
    | none => false

def failedGuard (facts : List Formula) (guard : Expr) : List Formula :=
  match formula? guard with
  | some f => facts ++ [.not f]
  | none => facts

def unary (note : Note) (op : UnaryOp) (operand : Expr) : Tally Expr :=
  match operand.literal?.bind (Value.foldUnary op) with
  | some v => .folded (v.literal note.type note.pos)
  | none => pure (.unary note op operand)

/-- A Boolean literal on the left of `&&` or `||` decides which operand remains. -/
def shortCircuit (note : Note) (op : BinaryOp) (left right : Expr) : Tally Expr :=
  match op, left with
  | .and, .bool _ b => .folded (if b then right else left)
  | .or, .bool _ b => .folded (if b then left else right)
  | _, _ => pure (.binary note op left right)

def binary (note : Note) (op : BinaryOp) (left right : Expr) : Tally Expr :=
  match left.literal?, right.literal? with
  | some a, some b =>
    match Value.foldBinary op a b with
    | some v => .folded (v.literal note.type note.pos)
    | none => shortCircuit note op left right
  | _, _ => shortCircuit note op left right

/-- A name that stands for a constant becomes its literal. -/
def name (note : Note) (n : String) (symbol : Option Symbol) : Tally Expr :=
  match symbol with
  | some ⟨_, type, _, .constant, _, some v⟩ => .folded (v.literal (some type) note.pos)
  | _ => pure (.name note n symbol)

/-- A chain without branches leaves the statements of its `else` block. -/
def ofChain (pos : Pos) : Chain → List Stmt
  | .stop => []
  | .otherwise body => body.statements
  | chain => [.cond pos chain]

mutual

def expr (refutes : Prover) : Expr → Tally Expr
  | .int n v => pure (.int n v)
  | .bool n b => pure (.bool n b)
  | .text n s => pure (.text n s)
  | .name n s sym => name n s sym
  | .unary n op e => do
    let e ← expr refutes e
    unary n op e
  | .binary n op l r => do
    let l ← expr refutes l
    let r ← expr refutes r
    binary n op l r
  | .call n callee args => do
    let args ← exprs refutes args
    return .call n callee args
  | .method n recv m args b => do
    let recv ← expr refutes recv
    let args ← exprs refutes args
    return .method n recv m args b
  | .array n es => do
    let es ← exprs refutes es
    return .array n es
  | .index n t i => do
    let t ← expr refutes t
    let i ← expr refutes i
    return .index n t i
  | .field n t f => do
    let t ← expr refutes t
    return .field n t f
  | .record n name fs => do
    let fs ← fields refutes fs
    return .record n name fs
  | .wrap n w e => do
    let e ← expr refutes e
    return .wrap n w e
  | .noneLit n => pure (.noneLit n)
  | .enum n o v t => pure (.enum n o v t)
  | .select n e as => do
    let as ← arms refutes as
    let e ← expr refutes e
    return .select n e as
  | .block n ss none d => do
    let ss ← stmts refutes ss
    return .block n ss none d
  | .block n ss (some e) d => do
    let e ← expr refutes e
    let ss ← stmts refutes ss
    return .block n ss (some e) d

def exprs (refutes : Prover) : List Expr → Tally (List Expr)
  | [] => pure []
  | e :: es => do
    let e ← expr refutes e
    let es ← exprs refutes es
    return e :: es

def fields (refutes : Prover) : List FieldInit → Tally (List FieldInit)
  | [] => pure []
  | .mk p n e :: fs => do
    let e ← expr refutes e
    let fs ← fields refutes fs
    return .mk p n e :: fs

def arms (refutes : Prover) : List Arm → Tally (List Arm)
  | [] => pure []
  | .mk p pat e :: as => do
    let e ← expr refutes e
    let as ← arms refutes as
    return .mk p pat e :: as

/-- What takes the place of a statement. The target of an assignment stays a place. -/
def stmt (refutes : Prover) : Stmt → Tally (List Stmt)
  | .bind p n d e s => do
    let e ← expr refutes e
    return [.bind p n d e s]
  | .assign p (.name n s sym) e => do
    let e ← expr refutes e
    return [.assign p (.name n s sym) e]
  | .assign p t e => do
    let t ← expr refutes t
    let e ← expr refutes e
    return [.assign p t e]
  | .ret p none => pure [.ret p none]
  | .ret p (some e) => do
    let e ← expr refutes e
    return [.ret p (some e)]
  | .expr p e => do
    let e ← expr refutes e
    return [.expr p e]
  | .cond p c => do
    let c ← chain refutes [] c
    return ofChain p c
  | .loop p c b => do
    let c ← expr refutes c
    if neverTrue refutes [] c then .pruned []
    else
      let b ← block refutes b
      return [.loop p c b]
  | .each p n e b s => do
    let e ← expr refutes e
    let b ← block refutes b
    return [.each p n e b s]
  | .leave p => pure [.leave p]
  | .next p => pure [.next p]

def stmts (refutes : Prover) : List Stmt → Tally (List Stmt)
  | [] => pure []
  | s :: ss => do
    let s ← stmt refutes s
    let ss ← stmts refutes ss
    return s ++ ss

def block (refutes : Prover) : Block → Tally Block
  | .mk p ss => do
    let ss ← stmts refutes ss
    return .mk p ss

/-- A branch that never runs is dropped; one that always runs ends the chain. The facts are the failed
guards of the branches before. -/
def chain (refutes : Prover) (facts : List Formula) : Chain → Tally Chain
  | .stop => pure .stop
  | .otherwise b => do
    let b ← block refutes b
    return .otherwise b
  | .branch p c b rest => do
    let c ← expr refutes c
    if neverTrue refutes facts c then do
      let rest ← chain refutes facts rest
      .pruned rest
    else do
      let b ← block refutes b
      if alwaysTrue refutes facts c then
        return .otherwise b
      else do
        let rest ← chain refutes (failedGuard facts c) rest
        return .branch p c b rest

end

def function (refutes : Prover) (d : FunctionDecl) : Tally FunctionDecl := do
  let body ← block refutes d.body
  return { d with body }

def item (refutes : Prover) : Item → Tally Item
  | .function d => .function <$> function refutes d
  | i => pure i

end Optimize

def Program.optimizeWith (refutes : Optimize.Prover) (p : Program) : Tally Program := do
  let items ← p.items.mapM (Optimize.item refutes)
  return { p with items }

/-- Proves nothing. -/
def unaided : Optimize.Solver := fun _ => Optimize.idle

def Options.prover (z : Optimize.Solver) (o : Options) : Optimize.Prover :=
  if o.proveDeadBranches then z o.solverLimit else Optimize.idle

def Program.optimize (z : Optimize.Solver) (o : Options) (p : Program) : Tally Program :=
  p.optimizeWith (o.prover z)

end Covenant
