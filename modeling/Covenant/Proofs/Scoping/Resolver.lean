import Covenant.Fold

/-! Lexical scoping. A resolver goes through a tree in the order in which it runs and hands on what can be
seen: a name means the newest declaration of it in its own block, else in the nearest block around that,
else the constant. It takes no notice of the symbols and slots that a tree may already have. -/

namespace Covenant.Scoping

/-- What can be seen, the newest first and the constants last, and all variables of the function so far in
the order of their declarations. -/
structure Names where
  visible : List Symbol
  declared : List Symbol
  deriving DecidableEq, Repr

instance : Inhabited Names := ⟨[], []⟩

namespace Names

def find? (n : Names) (x : String) : Option Symbol := n.visible.find? (·.name = x)

def next (n : Names) : Option Nat := some n.declared.length

def declare (n : Names) (x : String) (type : Ty) (kind : SymbolKind) (isMutable : Bool) : Names :=
  let y : Symbol := ⟨x, type, isMutable, kind, n.next, none⟩
  ⟨y :: n.visible, n.declared ++ [y]⟩

def leave (inner outer : Names) : Names := { inner with visible := outer.visible }

end Names

def typeOf (e : Expr) : Ty := e.type.getD .error

def elementOf : Ty → Ty
  | .array t => t
  | _ => .error

def binderType : PatternForm → Ty → Ty
  | .bind _, t | .some _, .option t | .ok _, .result t => t
  | .err _, .result _ => .string
  | _, _ => .error

def pattern (n : Names) (subject : Ty) (p : Pattern) : Pattern × Names :=
  match p.form.binder? with
  | none => (p, n)
  | some b => ({ p with form := p.form.setBinder ⟨b.name, n.next⟩ },
    n.declare b.name (binderType p.form subject) .binding false)

mutual

def expr (n : Names) : Expr → Option (Expr × Names)
  | .int m v => some (.int m v, n)
  | .bool m b => some (.bool m b, n)
  | .text m s => some (.text m s, n)
  | .name m x _ => do
    let y ← n.find? x
    return (.name m x (some y), n)
  | .unary m op e => do
    let (e, n) ← expr n e
    return (.unary m op e, n)
  | .binary m op a b => do
    let (a, n) ← expr n a
    let (b, n) ← expr n b
    return (.binary m op a b, n)
  | .call m f args => do
    let (args, n) ← exprs n args
    return (.call m f args, n)
  | .method m e x args b => do
    let (e, n) ← expr n e
    let (args, n) ← exprs n args
    return (.method m e x args b, n)
  | .array m es => do
    let (es, n) ← exprs n es
    return (.array m es, n)
  | .index m a i => do
    let (a, n) ← expr n a
    let (i, n) ← expr n i
    return (.index m a i, n)
  | .field m e f => do
    let (e, n) ← expr n e
    return (.field m e f, n)
  | .record m x fs => do
    let (fs, n) ← fields n fs
    return (.record m x fs, n)
  | .wrap m w e => do
    let (e, n) ← expr n e
    return (.wrap m w e, n)
  | .noneLit m => some (.noneLit m, n)
  | .enum m o v t => some (.enum m o v t, n)
  | .select m e as => do
    let (e, n) ← expr n e
    let (as, n) ← arms n (typeOf e) as
    return (.select m e as, n)
  | .block m ss none d => do
    let (ss, n) ← stmts n ss
    return (.block m ss none d, n)
  | .block m ss (some e) d => do
    let (ss, n) ← stmts n ss
    let (e, n) ← expr n e
    return (.block m ss (some e) d, n)

def exprs (n : Names) : List Expr → Option (List Expr × Names)
  | [] => some ([], n)
  | e :: es => do
    let (e, n) ← expr n e
    let (es, n) ← exprs n es
    return (e :: es, n)

def fields (n : Names) : List FieldInit → Option (List FieldInit × Names)
  | [] => some ([], n)
  | .mk p x e :: fs => do
    let (e, n) ← expr n e
    let (fs, n) ← fields n fs
    return (.mk p x e :: fs, n)

/-- An arm is a block of its own, in which its pattern comes first. -/
def arms (n : Names) (subject : Ty) : List Arm → Option (List Arm × Names)
  | [] => some ([], n)
  | .mk pos p e :: as => do
    let (p, inner) := pattern n subject p
    let (e, inner) ← expr inner e
    let (as, n) ← arms (inner.leave n) subject as
    return (.mk pos p e :: as, n)

def stmt (n : Names) : Stmt → Option (Stmt × Names)
  | .bind p x d e _ => do
    let (e, n) ← expr n e
    return (.bind p x d e n.next, n.declare x (d.getD (typeOf e)) .letBound true)
  | .assign p t e => do
    let (t, n) ← expr n t
    let (e, n) ← expr n e
    return (.assign p t e, n)
  | .ret p none => some (.ret p none, n)
  | .ret p (some e) => do
    let (e, n) ← expr n e
    return (.ret p (some e), n)
  | .expr p e => do
    let (e, n) ← expr n e
    return (.expr p e, n)
  | .cond p c => do
    let (c, n) ← chain n c
    return (.cond p c, n)
  | .loop p e b => do
    let (e, n) ← expr n e
    let (b, n) ← block n b
    return (.loop p e b, n)
  | .each p x e (.mk q ss) _ => do
    let (e, n) ← expr n e
    let (ss, inner) ← stmts (n.declare x (elementOf (typeOf e)) .loop false) ss
    return (.each p x e (.mk q ss) n.next, inner.leave n)
  | .leave p => some (.leave p, n)
  | .next p => some (.next p, n)

def stmts (n : Names) : List Stmt → Option (List Stmt × Names)
  | [] => some ([], n)
  | x :: xs => do
    let (x, n) ← stmt n x
    let (xs, n) ← stmts n xs
    return (x :: xs, n)

def block (n : Names) : Block → Option (Block × Names)
  | .mk p ss => do
    let (ss, inner) ← stmts n ss
    return (.mk p ss, inner.leave n)

def chain (n : Names) : Chain → Option (Chain × Names)
  | .stop => some (.stop, n)
  | .otherwise b => do
    let (b, n) ← block n b
    return (.otherwise b, n)
  | .branch p e b rest => do
    let (e, n) ← expr n e
    let (b, n) ← block n b
    let (rest, n) ← chain n rest
    return (.branch p e b rest, n)

end

/-- The constants, the newest first. The value of a constant may use those before it. -/
def constantSymbols (cs : List ConstDecl) : List Symbol :=
  cs.foldl (fun known c => ⟨c.name, c.type, false, .constant, none,
    c.value.constant? fun x => (known.find? (·.name = x)).bind (·.value)⟩ :: known) []

def params (globals : List Symbol) (ps : List Param) : Names :=
  ps.foldl (fun n p => n.declare p.name p.type .param true) ⟨globals, []⟩

end Covenant.Scoping
