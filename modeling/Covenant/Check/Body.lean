import Covenant.Check.State

/-! Checking expressions and statements. A check returns the annotated tree; for an expression also
its type, and for a statement whether control never goes on after it. -/

namespace Covenant

def Note.typed (n : Note) (t : Ty) : Note := { n with type := some t }

namespace Check

abbrev Typed := Expr × Ty

/-- An expression whose value is used: it must have one. -/
def needValue (pos : Pos) (checked : Checking Typed) : Checking Typed := do
  let (e, t) ← checked
  if t = .void then
    return (e, ← report .noValue pos)
  else
    return (e, t)

/-- The type of a result, or the report of the problem that stands in its place. -/
def typeOr (result : Option Ty) (problem : Problem) (pos : Pos) : Checking Ty :=
  match result with
  | some t => return t
  | none => report problem pos

/-- Reports each argument whose type does not fit; `index` numbers them from one. -/
def checkArguments (function : String) : Nat → List Ty → List Typed → Checking Unit
  | index, t :: ts, (e, u) :: args => do
    reportIf (!t.compatible u) (.argumentType index function t u) e.pos
    checkArguments function (index + 1) ts args
  | _, _, _ => return

def checkCall (function : String) (params : List Ty) (args : List Typed) (pos : Pos) :
    Checking Unit :=
  if args.length ≠ params.length then
    reportIf true (.arity function params.length args.length) pos
  else checkArguments function 1 params args

def builtinResult (b : Builtin) (types : List Ty) (pos : Pos) : Checking Ty :=
  match b.result types with
  | .ok t => return t
  | .error p => report p pos

def fieldType (env : Env) (target : Ty) (field : String) (pos : Pos) : Checking Ty :=
  match target with
  | .error => return .error
  | .record n =>
    match env.record? n with
    | none => report (.unknownRecord n) pos
    | some r =>
      match (r.fields.find? (·.name = field)) with
      | none => report (.noField r.name field) pos
      | some f => return f.type
  | t => report (.fieldOfNonRecord t field) pos

def enumTag (env : Env) (owner variant : String) (pos : Pos) : Checking (Option Nat × Ty) :=
  match env.enum? owner with
  | none => return (none, ← report (.unknownEnum owner) pos)
  | some d =>
    match d.tag? variant with
    | none => return (none, ← report (.noVariant d.name variant) pos)
    | some t => return (some t, .enum d.name)

def wrapType (w : Wrapper) (inner : Ty) (pos : Pos) : Checking Ty :=
  match w with
  | .some => return .option inner
  | .ok => return .result inner
  | .err => do
    reportIf (!Ty.compatible .string inner) (.errPayload inner) pos
    return .result .hole

/-- The values of a match that an arm takes away from the later ones. -/
inductive Cover where
  | some
  | none
  | ok
  | err
  | bool (b : Bool)
  | variant (name : String)
  deriving DecidableEq, Repr

def Cover.ofPattern? : PatternForm → Option Cover
  | .some _ => Option.some .some
  | .none => Option.some .none
  | .ok _ => Option.some .ok
  | .err _ => Option.some .err
  | .bool b => Option.some (.bool b)
  | .enum _ v => Option.some (.variant v)
  | _ => Option.none

def isMatchable : Ty → Bool
  | .integer | .mana | .boolean | .string | .option _ | .result _ | .enum _ => true
  | _ => false

def isExhaustive (env : Env) (subject : Ty) (covered : List Cover) : Bool :=
  match subject with
  | .boolean => covered.contains (.bool true) && covered.contains (.bool false)
  | .option _ => covered.contains .some && covered.contains .none
  | .result _ => covered.contains .ok && covered.contains .err
  | .enum n =>
    match env.enum? n with
    | some d => d.variants.all fun v => covered.contains (.variant v)
    | none => false
  | _ => false

def patternFits : PatternForm → Ty → Bool × Ty
  | .int _, t => (t.isNumeric, .error)
  | .bool _, t => (t = .boolean, .error)
  | .text _, t => (t = .string, .error)
  | .bind _, t => (true, t)
  | .some _, .option t => (true, t)
  | .none, .option t => (true, t)
  | .ok _, .result t => (true, t)
  | .err _, .result _ => (true, .string)
  | .some _, _ | .none, _ | .ok _, _ | .err _, _ => (false, .error)
  | .wild, _ | .enum _ _, _ => (true, .error)

/-- Problems inside a pattern itself; the answer tells whether it fits the subject. -/
def patternProblems (env : Env) (p : Pattern) (subject : Ty) : Checking Bool :=
  match p.form with
  | .int v => do
    reportIf (!inWordRange v) .patternRange p.pos
    return subject.isNumeric
  | .enum owner v =>
    match env.enum? owner with
    | none => do
      reportIf true (.unknownEnum owner) p.pos
      return true
    | some d => do
      reportIf (d.tag? v).isNone (.noVariant d.name v) p.pos
      return subject = .enum d.name
  | form => return (patternFits form subject).1

def pattern (env : Env) (p : Pattern) (subject : Ty) : Checking Pattern := do
  let fits ← patternProblems env p subject
  reportIf (!fits && subject ≠ .error) (.patternType p.form.word subject) p.pos
  match p.form.binder? with
  | none => return p
  | some b =>
    let symbol ← declare b.name (patternFits p.form subject).2 .binding false
    return { p with form := p.form.setBinder { b with slot := symbol.slot } }

/-- Whether control never goes on after an expression: a match all of whose arms are blocks that
never reach their end. -/
def neverEnds : Expr → Bool
  | .select _ _ arms => arms.all fun a =>
      match a.body with
      | .block _ _ _ d => d
      | _ => false
  | _ => false

def isTrueLiteral : Expr → Bool
  | .bool _ b => b
  | _ => false

def elementType (iterable : Ty) (pos : Pos) : Checking Ty :=
  match iterable with
  | .array .hole => report .unknownElement pos
  | .array t => return t
  | .error => return .error
  | t => report (.notIterable t) pos

def letType (env : Env) (pos : Pos) (name : String) (declared : Option Ty) (value : Typed) :
    Checking (Option Ty × Ty) := do
  match declared with
  | some d =>
    let d ← resolveType env d pos
    reportIf (d ≠ .error && !d.compatible value.2) (.letType name d value.2) value.1.pos
    return (some d, d)
  | none =>
    if value.2.hasHole then
      return (none, ← report (.uninferable name) pos)
    else
      return (none, value.2)

mutual

def expr (env : Env) : Expr → Checking Typed
  | .int n v => do
    let t ← if inWordRange v then pure .integer else report .literalRange n.pos
    return (.int (n.typed t) v, t)
  | .bool n b => return (.bool (n.typed .boolean) b, .boolean)
  | .text n s => return (.text (n.typed .string) s, .string)
  | .name n x _ => do
    match ← lookup x with
    | some s => return (.name (n.typed s.type) x (some s), s.type)
    | none =>
      let t ← report (.undefinedName x) n.pos
      return (.name (n.typed t) x none, t)
  | .unary n op e => do
    let (e', t) ← needValue e.pos (expr env e)
    let r ← typeOr (op.type? t) (.unaryOperand op t) n.pos
    return (.unary (n.typed r) op e', r)
  | .binary n op a b => do
    let (a', s) ← needValue a.pos (expr env a)
    let (b', t) ← needValue b.pos (expr env b)
    let r ← typeOr (op.type? s t) (.binaryOperands op s t) n.pos
    return (.binary (n.typed r) op a' b', r)
  | .call n callee args => do
    let f := callee.name
    match env.function? f with
    | some sig =>
      let args' ← values env args
      checkCall f sig.params args' n.pos
      let t := sig.result.getD .void
      return (.call (n.typed t) (.user f) (args'.map (·.1)), t)
    | none =>
    match Builtin.ofFunction? f with
    | some b =>
      let args' ← values env args
      let t ← builtinResult b (args'.map (·.2)) n.pos
      return (.call (n.typed t) (.builtin b) (args'.map (·.1)), t)
    | none =>
    match HostFunction.find? f with
    | some h =>
      let args' ← values env args
      checkCall f h.params args' n.pos
      let t := h.result.getD .void
      return (.call (n.typed t) (.host h) (args'.map (·.1)), t)
    | none =>
      let args' ← exprs env args
      let t ← report (.undefinedFunction f) n.pos
      return (.call (n.typed t) callee args', t)
  | .method n receiver m args b => do
    let (receiver', t) ← needValue receiver.pos (expr env receiver)
    let args' ← values env args
    let es := args'.map (·.1)
    if t = .error then
      return (.method (n.typed .error) receiver' m es b, .error)
    else
      match Builtin.ofMethod? t m with
      | none =>
        let r ← report (.noMethod t m) n.pos
        return (.method (n.typed r) receiver' m es b, r)
      | some op =>
        let r ← builtinResult op (t :: args'.map (·.2)) n.pos
        return (.method (n.typed r) receiver' m es (some op), r)
  | .array n es => do
    let (es', t) ← elements env .hole es
    return (.array (n.typed (.array t)) es', .array t)
  | .index n a i => do
    let (a', s) ← needValue a.pos (expr env a)
    let (i', t) ← needValue i.pos (expr env i)
    reportIf (!t.isNumeric && t ≠ .error) (.indexType t) i.pos
    let r ← match s with
      | .array r => pure r
      | .error => pure .error
      | s => report (.notIndexable s) n.pos
    return (.index (n.typed r) a' i', r)
  | .field n e f => do
    let (e', t) ← needValue e.pos (expr env e)
    let r ← fieldType env t f n.pos
    return (.field (n.typed r) e' f, r)
  | .record n name fields => do
    match env.record? name with
    | none =>
      let fields' ← initExprs env fields
      let t ← report (.unknownRecord name) n.pos
      return (.record (n.typed t) name fields', t)
    | some r =>
      let (fields', seen) ← inits env r [] fields
      let missing := (r.fields.map (·.name)).filter fun f => !seen.contains f
      reportIf (!missing.isEmpty) (.missingFields r.name missing) n.pos
      return (.record (n.typed (.record r.name)) name fields', .record r.name)
  | .wrap n w e => do
    let (e', t) ← needValue e.pos (expr env e)
    let r ← wrapType w t e.pos
    return (.wrap (n.typed r) w e', r)
  | .noneLit n => return (.noneLit (n.typed (.option .hole)), .option .hole)
  | .enum n owner v _ => do
    let (tag, t) ← enumTag env owner v n.pos
    return (.enum (n.typed t) owner v tag, t)
  | .select n e as => do
    let (e', t) ← needValue e.pos (expr env e)
    let subject ← if t ≠ .error && !isMatchable t then report (.notMatchable t) e.pos else pure t
    let (as', r, catchAll, covered) ← arms env subject .hole false [] as
    reportIf (subject ≠ .error && !catchAll && !isExhaustive env subject covered)
      (.notExhaustive subject) n.pos
    return (.select (n.typed r) e' as', r)
  | .block n ss tail _ => do
    let (ss', d) ← stmts env false false ss
    match tail with
    | some e =>
      let (e', t) ← expr env e
      return (.block (n.typed t) ss' (some e') d, t)
    | none =>
      let t : Ty := if d then .hole else .void
      return (.block (n.typed t) ss' none d, t)

def values (env : Env) : List Expr → Checking (List Typed)
  | [] => return []
  | e :: es => do
    let e' ← needValue e.pos (expr env e)
    return e' :: (← values env es)

def exprs (env : Env) : List Expr → Checking (List Expr)
  | [] => return []
  | e :: es => do
    let (e', _) ← expr env e
    return e' :: (← exprs env es)

/-- Array elements after ones of the given common type. -/
def elements (env : Env) (common : Ty) : List Expr → Checking (List Expr × Ty)
  | [] => return ([], common)
  | e :: es => do
    let (e', t) ← needValue e.pos (expr env e)
    let common ← typeOr (common.unify t) (.elementTypes common t) e.pos
    let (es', u) ← elements env common es
    return (e' :: es', u)

/-- The fields of a record literal after those already seen. -/
def inits (env : Env) (r : RecordDecl) (seen : List String) :
    List FieldInit → Checking (List FieldInit × List String)
  | [] => return ([], seen)
  | .mk pos name e :: rest => do
    let (e', t) ← needValue e.pos (expr env e)
    if seen.contains name then
      reportIf true (.fieldGivenTwice name) pos
    else
      match r.fields.find? (·.name = name) with
      | none => reportIf true (.noField r.name name) pos
      | some f => reportIf (!f.type.compatible t) (.fieldType name f.type t) e.pos
    let (rest', seen) ← inits env r (name :: seen) rest
    return (.mk pos name e' :: rest', seen)

def initExprs (env : Env) : List FieldInit → Checking (List FieldInit)
  | [] => return []
  | .mk pos name e :: rest => do
    let (e', _) ← expr env e
    return .mk pos name e' :: (← initExprs env rest)

/-- The arms of a match after ones of the given common type, with what those cover. -/
def arms (env : Env) (subject common : Ty) (catchAll : Bool) (covered : List Cover) :
    List Arm → Checking (List Arm × Ty × Bool × List Cover)
  | [] => return ([], common, catchAll, covered)
  | .mk pos p e :: rest => do
    if catchAll then
      warn .unreachableArm pos
    let (p', e', t) ← inFrame true do
      let p' ← pattern env p subject
      let (e', t) ← expr env e
      return (p', e', t)
    let common ← match common.unify t with
      | some u => pure u
      | none =>
        reportIf true (.armTypes common t) e.pos
        pure common
    let (rest', r) ← arms env subject common (catchAll || p.form.isCatchAll)
      ((Cover.ofPattern? p.form).toList ++ covered) rest
    return (.mk pos p' e' :: rest', r)

def stmt (env : Env) : Stmt → Checking (Stmt × Bool)
  | .bind pos name declared e _ => do
    let value ← needValue e.pos (expr env e)
    let (declared, t) ← letType env pos name declared value
    reportHiding env .letWord name pos
    let s ← declare name t .letBound true
    return (.bind pos name declared value.1 s.slot, false)
  | .assign pos target e => do
    match target with
    | .name n x old =>
      match ← lookup x with
      | none =>
        let (e', _) ← needValue e.pos (expr env e)
        reportIf true (.undeclaredTarget x) n.pos
        return (.assign pos (.name n x old) e', false)
      | some s =>
        reportIf (!s.isMutable) (.immutableTarget s.kind x) n.pos
        let (e', t) ← needValue e.pos (expr env e)
        reportIf (!s.type.compatible t) (.assignedType s.type t) e.pos
        return (.assign pos (.name (n.typed s.type) x (some s)) e', false)
    | target =>
      let (target', u) ← expr env target
      let (e', t) ← needValue e.pos (expr env e)
      reportIf (!u.compatible t) (.assignedType u t) e.pos
      return (.assign pos target' e', false)
  | .ret pos value => do
    match env.current with
    | none =>
      modify fun s => { s with strayReturn := true }
      return (.ret pos value, true)
    | some f =>
      match value with
      | none =>
        match f.result with
        | some t => reportIf true (.returnsNothing f.name t) pos
        | none => pure ()
        return (.ret pos none, true)
      | some e =>
        let (e', t) ← needValue e.pos (expr env e)
        match f.result with
        | none => reportIf true (.returnsValue f.name t) pos
        | some u => reportIf (!u.compatible t) (.returnedType f.name u t) e.pos
        return (.ret pos (some e'), true)
  | .expr pos e => do
    let (e', _) ← expr env e
    return (.expr pos e', neverEnds e')
  | .cond pos c => do
    let (c', ends) ← chain env c
    return (.cond pos c', ends)
  | .loop pos e b => do
    let (e', t) ← needValue e.pos (expr env e)
    reportIf (!Ty.compatible .boolean t) (.conditionType .whileWord t) e.pos
    let ((b', _), left) ← inLoop (block env b)
    return (.loop pos e' b', isTrueLiteral e' && !left)
  | .each pos name e (.mk bodyPos ss) _ => do
    let (e', t) ← needValue e.pos (expr env e)
    let element ← elementType t e.pos
    let (slot, ss') ← inFrame true do
      reportHiding env .forWord name pos
      let s ← declare name element .loop false
      let ((ss', _), _) ← inLoop (stmts env false false ss)
      return (s.slot, ss')
    return (.each pos name e' (.mk bodyPos ss') slot, false)
  | .leave pos => do
    match (← get).loops with
    | [] => reportIf true (.outsideLoop .breakWord) pos
    | _ :: outer => modify fun s => { s with loops := true :: outer }
    return (.leave pos, true)
  | .next pos => do
    reportIf (← get).loops.isEmpty (.outsideLoop .continueWord) pos
    return (.next pos, true)

/-- Statements in the current frame. Only the first one that cannot be reached is pointed out. -/
def stmts (env : Env) (ended warned : Bool) : List Stmt → Checking (List Stmt × Bool)
  | [] => return ([], ended)
  | s :: ss => do
    if ended && !warned then
      warn .unreachableStatement s.pos
    let (s', ends) ← stmt env s
    let (ss', r) ← stmts env (ended || ends) ended ss
    return (s' :: ss', r)

def block (env : Env) : Block → Checking (Block × Bool)
  | .mk pos ss => do
    let (ss', ends) ← inFrame true (stmts env false false ss)
    return (.mk pos ss', ends)

/-- The branches of an `if`; control never goes on only if there is an `else` and every block ends
it. -/
def chain (env : Env) : Chain → Checking (Chain × Bool)
  | .stop => return (.stop, false)
  | .otherwise b => do
    let (b', ends) ← block env b
    return (.otherwise b', ends)
  | .branch pos e b rest => do
    let (e', t) ← needValue e.pos (expr env e)
    reportIf (!Ty.compatible .boolean t) (.conditionType .ifWord t) e.pos
    let (b', ends) ← block env b
    let (rest', restEnds) ← chain env rest
    return (.branch pos e' b' rest', ends && restEnds)

end

theorem expr_bool (env : Env) (n : Note) (b : Bool) :
    expr env (.bool n b) = pure (.bool (n.typed .boolean) b, .boolean) := by
  rw [expr]

theorem expr_text (env : Env) (n : Note) (s : String) :
    expr env (.text n s) = pure (.text (n.typed .string) s, .string) := by
  rw [expr]

theorem expr_noneLit (env : Env) (n : Note) :
    expr env (.noneLit n) = pure (.noneLit (n.typed (.option .hole)), .option .hole) := by
  rw [expr]

end Check

end Covenant
