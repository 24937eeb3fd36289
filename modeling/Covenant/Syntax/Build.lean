import Covenant.Grammar.Tree
import Covenant.Syntax.Basic
import Covenant.Text.Escape

/-! From parse trees to syntax trees. A tree is built from the leaves up and from left to right, and
the first error met that way is the one reported. -/

namespace Covenant

/-- The result of a parse tree: what the parts of a rule contribute to the node above. -/
inductive Phrase where
  | token (token : Token)
  | type (type : Ty)
  | expr (expr : Expr)
  | args (args : List Expr)
  | init (init : FieldInit)
  | arm (arm : Arm)
  | pattern (pattern : Pattern)
  | binder (name : Option String)
  | stmt (stmt : Stmt)
  | block (block : Block)
  | branch (pos : Pos) (condition : Expr) (body : Block)
  | param (param : Param)
  | params (params : List Param)
  | fieldDecl (decl : FieldDecl)
  | contractField (key : Token) (value : String)
  | item (item : Item)
  | contract (name : Token) (fields : List (Token × String)) (items : List Item)
  | program (program : Program)

namespace Phrase

def expr? : Phrase → Option Expr
  | expr e => some e
  | _ => none

def stmt? : Phrase → Option Stmt
  | stmt s => some s
  | _ => none

def init? : Phrase → Option FieldInit
  | init f => some f
  | _ => none

def arm? : Phrase → Option Arm
  | arm a => some a
  | _ => none

def param? : Phrase → Option Param
  | param p => some p
  | _ => none

def fieldDecl? : Phrase → Option FieldDecl
  | fieldDecl d => some d
  | _ => none

def text? : Phrase → Option String
  | token t => some t.text
  | _ => none

def item? : Phrase → Option Item
  | item i => some i
  | _ => none

def contractField? : Phrase → Option (Token × String)
  | contractField k v => some (k, v)
  | _ => none

def chain : List Phrase → Chain
  | [] => .stop
  | branch p c b :: rest => .branch p c b (chain rest)
  | block b :: _ => .otherwise b
  | _ :: rest => chain rest

def flatItems : List Phrase → List Item
  | [] => []
  | item i :: rest => i :: flatItems rest
  | contract _ _ is :: rest => is ++ flatItems rest
  | _ :: rest => flatItems rest

def contracts : List Phrase → List (Token × List (Token × String))
  | [] => []
  | contract n fs _ :: rest => (n, fs) :: contracts rest
  | _ :: rest => contracts rest

end Phrase

namespace Build

abbrev Result := Except SyntaxError

/-- Parts that no rule puts together this way. -/
def misfit {α : Type} (pos : Pos) : Result α :=
  .error ⟨.unexpectedEnd, pos, none, []⟩

def literal (t : Token) : Result String :=
  match Text.unescape (t.text.toList.tail.dropLast) with
  | .ok cs => .ok (String.ofList cs)
  | .error (.letter c) => .error ⟨.unknownEscape c, t.pos, some t.text, []⟩
  | .error .pastEnd => misfit t.pos

def number (t : Token) : Nat := Text.digitsValue t.text.toList

def untyped (pos : Pos) : Note := ⟨pos, none⟩

def contractFieldNames : List String := ["scope", "version"]

def generic? : String → Option (Ty → Ty)
  | "Array" => some .array
  | "Option" => some .option
  | "Result" => some .result
  | _ => none

def genericNames : List String := ["Array", "Option", "Result"]

/-- The type of a name: a built-in one, else a record until declarations tell more. -/
def namedType (name : String) : Ty := (Ty.ofName? name).getD (.record name)

def duplicateField? (seen : List String) : List (Token × String) → Option Token
  | [] => none
  | (k, _) :: rest => if seen.contains k.text then some k else duplicateField? (k.text :: seen) rest

def fieldValue? (fields : List (Token × String)) (key : String) : Option String :=
  (fields.find? (·.1.text = key)).map (·.2)

def header (c : Token × List (Token × String)) : ContractHeader :=
  ⟨c.1.text, fieldValue? c.2 "scope", fieldValue? c.2 "version"⟩

def program (pos : Pos) (parts : List Phrase) : Result Program :=
  match Phrase.contracts parts with
  | _ :: (n, _) :: _ => .error ⟨.secondContract, n.pos, some "contract", []⟩
  | cs => .ok ⟨pos, Phrase.flatItems parts, cs.head?.map header⟩

def declaration : Form → Pos → List Phrase → Result Phrase
  | .program, pos, parts => (program pos parts).map .program
  | .contractDef, _, .token n :: parts =>
    let fields := parts.filterMap Phrase.contractField?
    match duplicateField? [] fields with
    | some k => .error ⟨.duplicateField k.text, k.pos, some k.text, []⟩
    | none => .ok (.contract n fields (parts.filterMap Phrase.item?))
  | .contractField, _, [.token k, .token v] =>
    if contractFieldNames.contains k.text then (literal v).map (.contractField k)
    else .error ⟨.unknownField k.text, k.pos, some k.text, contractFieldNames⟩
  | .fnDef, _, [.token n, .params ps, .type t, .block b] =>
    .ok (.item (.function ⟨n.pos, n.text, ps, some t, b, []⟩))
  | .fnDef, _, [.token n, .params ps, .block b] =>
    .ok (.item (.function ⟨n.pos, n.text, ps, none, b, []⟩))
  | .fnDef, _, [.token n, .type t, .block b] =>
    .ok (.item (.function ⟨n.pos, n.text, [], some t, b, []⟩))
  | .fnDef, _, [.token n, .block b] => .ok (.item (.function ⟨n.pos, n.text, [], none, b, []⟩))
  | .resultType, _, [.type t] => .ok (.type t)
  | .params, _, parts => .ok (.params (parts.filterMap Phrase.param?))
  | .param, pos, [.token n, .type t] => .ok (.param ⟨pos, n.text, t⟩)
  | .structDef, _, .token n :: parts =>
    .ok (.item (.record ⟨n.pos, n.text, parts.filterMap Phrase.fieldDecl?⟩))
  | .fieldDecl, pos, [.token n, .type t] => .ok (.fieldDecl ⟨pos, n.text, t⟩)
  | .enumDef, _, .token n :: parts =>
    .ok (.item (.enum ⟨n.pos, n.text, parts.filterMap Phrase.text?⟩))
  | .constDef, _, [.token n, .type t, .expr e] => .ok (.item (.constant ⟨n.pos, n.text, t, e⟩))
  | .simpleType, _, [.token n] => .ok (.type (namedType n.text))
  | .genericType, pos, [.token n, .type t] =>
    match generic? n.text with
    | some make => .ok (.type (make t))
    | none => .error ⟨.noTypeParameter n.text, pos, some n.text, genericNames⟩
  | _, pos, _ => misfit pos

/-- What an assignment may change: a variable, a field or an element. -/
def isPlace : Expr → Bool
  | .name _ _ _ | .field _ _ _ | .index _ _ _ => true
  | _ => false

def statement : Form → Pos → List Phrase → Result Phrase
  | .block, pos, parts => .ok (.block (.mk pos (parts.filterMap Phrase.stmt?)))
  | .letStmt, pos, [.token n, .type t, .expr e] => .ok (.stmt (.bind pos n.text (some t) e none))
  | .letStmt, pos, [.token n, .expr e] => .ok (.stmt (.bind pos n.text none e none))
  | .assignStmt, pos, [.expr target, .expr value] =>
    if isPlace target then .ok (.stmt (.assign pos target value))
    else .error ⟨.notAssignable, target.pos, none, ["name", "field", "index"]⟩
  | .returnStmt, pos, [.expr e] => .ok (.stmt (.ret pos (some e)))
  | .returnStmt, pos, [] => .ok (.stmt (.ret pos none))
  | .ifStmt, pos, .expr c :: .block b :: rest =>
    .ok (.stmt (.cond pos (.branch pos c b (Phrase.chain rest))))
  | .elseIf, pos, [.expr c, .block b] => .ok (.branch pos c b)
  | .elseClause, _, [.block b] => .ok (.block b)
  | .whileStmt, pos, [.expr c, .block b] => .ok (.stmt (.loop pos c b))
  | .forStmt, pos, [.token n, .expr e, .block b] => .ok (.stmt (.each pos n.text e b none))
  | .breakStmt, pos, _ => .ok (.stmt (.leave pos))
  | .continueStmt, pos, _ => .ok (.stmt (.next pos))
  | .exprStmt, pos, [.expr e] => .ok (.stmt (.expr pos e))
  | _, pos, _ => misfit pos

def binaryOp? : Form → Option BinaryOp
  | .orOp => some .or
  | .andOp => some .and
  | .eqOp => some .eq
  | .neOp => some .ne
  | .ltOp => some .lt
  | .gtOp => some .gt
  | .leOp => some .le
  | .geOp => some .ge
  | .addOp => some .add
  | .subOp => some .sub
  | .concatOp => some .concat
  | .mulOp => some .mul
  | .divOp => some .div
  | .remOp => some .rem
  | _ => none

/-- A minus sign on a literal belongs to the literal, so that the least integer can be written. -/
def negate (pos : Pos) : Expr → Expr
  | .int _ v => .int (untyped pos) (wrapWord (-v))
  | e => .unary (untyped pos) .neg e

def expression : Form → Pos → List Phrase → Result Phrase
  | .negOp, pos, [.expr e] => .ok (.expr (negate pos e))
  | .notOp, pos, [.expr e] => .ok (.expr (.unary (untyped pos) .not e))
  | .methodCall, pos, [.expr r, .token m, .args as] =>
    .ok (.expr (.method (untyped pos) r m.text as none))
  | .methodCall, pos, [.expr r, .token m] => .ok (.expr (.method (untyped pos) r m.text [] none))
  | .fieldAccess, pos, [.expr r, .token f] => .ok (.expr (.field (untyped pos) r f.text))
  | .index, pos, [.expr a, .expr i] => .ok (.expr (.index (untyped pos) a i))
  | .args, _, parts => .ok (.args (parts.filterMap Phrase.expr?))
  | .intLit, _, [.token t] =>
    if number t ≤ 0x8000000000000000 then .ok (.expr (.int (untyped t.pos) (number t)))
    else .error ⟨.integerRange, t.pos, some t.text, []⟩
  | .stringLit, _, [.token t] => (literal t).map fun s => .expr (.text (untyped t.pos) s)
  | .trueLit, pos, _ => .ok (.expr (.bool (untyped pos) true))
  | .falseLit, pos, _ => .ok (.expr (.bool (untyped pos) false))
  | .enumValue, _, [.token e, .token v] =>
    .ok (.expr (.enum (untyped e.pos) e.text v.text none))
  | .call, pos, [.token f, .args as] =>
    .ok (.expr (.call (untyped pos) (.unresolved f.text) as))
  | .call, pos, [.token f] => .ok (.expr (.call (untyped pos) (.unresolved f.text) []))
  | .var, _, [.token t] => .ok (.expr (.name (untyped t.pos) t.text none))
  | .arrayLit, pos, [.args as] => .ok (.expr (.array (untyped pos) as))
  | .arrayLit, pos, [] => .ok (.expr (.array (untyped pos) []))
  | .recordLit, pos, .token n :: parts =>
    .ok (.expr (.record (untyped pos) n.text (parts.filterMap Phrase.init?)))
  | .fieldInit, pos, [.token n, .expr e] => .ok (.init (.mk pos n.text e))
  | .someExpr, pos, [.expr e] => .ok (.expr (.wrap (untyped pos) .some e))
  | .okExpr, pos, [.expr e] => .ok (.expr (.wrap (untyped pos) .ok e))
  | .errExpr, pos, [.expr e] => .ok (.expr (.wrap (untyped pos) .err e))
  | .noneExpr, pos, _ => .ok (.expr (.noneLit (untyped pos)))
  | .matchExpr, pos, .expr e :: parts =>
    .ok (.expr (.select (untyped pos) e (parts.filterMap Phrase.arm?)))
  | .arm, pos, [.pattern p, .expr e] => .ok (.arm (.mk pos p e))
  | .armBlock, pos, parts =>
    .ok (.expr (.block (untyped pos) (parts.filterMap Phrase.stmt?)
      (parts.getLast?.bind Phrase.expr?) false))
  | form, pos, [.expr l, .expr r] =>
    match binaryOp? form with
    | some op => .ok (.expr (.binary (untyped pos) op l r))
    | none => misfit pos
  | _, pos, _ => misfit pos

def newBinder (name : String) : Binder := ⟨name, none⟩

def pattern : Form → Pos → List Phrase → Result Phrase
  | .intPattern, pos, [.token t] => .ok (.pattern ⟨pos, .int (number t)⟩)
  | .negIntPattern, pos, [.token t] => .ok (.pattern ⟨pos, .int (-(number t : Int))⟩)
  | .truePattern, pos, _ => .ok (.pattern ⟨pos, .bool true⟩)
  | .falsePattern, pos, _ => .ok (.pattern ⟨pos, .bool false⟩)
  | .stringPattern, pos, [.token t] => (literal t).map fun s => .pattern ⟨pos, .text s⟩
  | .wildPattern, pos, _ => .ok (.pattern ⟨pos, .wild⟩)
  | .enumPattern, pos, [.token e, .token v] => .ok (.pattern ⟨pos, .enum e.text v.text⟩)
  | .bindPattern, pos, [.token t] => .ok (.pattern ⟨pos, .bind (newBinder t.text)⟩)
  | .somePattern, pos, [.binder b] => .ok (.pattern ⟨pos, .some (b.map newBinder)⟩)
  | .nonePattern, pos, _ => .ok (.pattern ⟨pos, .none⟩)
  | .okPattern, pos, [.binder b] => .ok (.pattern ⟨pos, .ok (b.map newBinder)⟩)
  | .errPattern, pos, [.binder b] => .ok (.pattern ⟨pos, .err (b.map newBinder)⟩)
  | .binder, _, [.token t] => .ok (.binder (if t.terminal = .wild then none else some t.text))
  | _, pos, _ => misfit pos

def phrase (form : Form) (pos : Pos) (parts : List Phrase) : Result Phrase :=
  match form with
  | .program | .contractDef | .contractField | .fnDef | .resultType | .params | .param
  | .structDef | .fieldDecl | .enumDef | .constDef | .simpleType | .genericType =>
    declaration form pos parts
  | .block | .letStmt | .assignStmt | .returnStmt | .ifStmt | .elseIf | .elseClause
  | .whileStmt | .forStmt | .breakStmt | .continueStmt | .exprStmt => statement form pos parts
  | .intPattern | .negIntPattern | .truePattern | .falsePattern | .stringPattern | .wildPattern
  | .enumPattern | .bindPattern | .somePattern | .nonePattern | .okPattern | .errPattern
  | .binder => pattern form pos parts
  | _ => expression form pos parts

mutual

def ofTree : Tree → Result Phrase
  | .leaf t => .ok (.token t)
  | .node form pos _ children => do
    let parts ← ofTrees children
    phrase form pos parts
  | .many p _ => misfit p

def ofTrees : List Tree → Result (List Phrase)
  | [] => .ok []
  | t :: ts => do
    let p ← ofTree t
    let ps ← ofTrees ts
    return p :: ps

end

end Build

def readProgram (source : String) : Except SyntaxError Program := do
  let tree ← parseTree source
  match ← Build.ofTree tree with
  | .program p => return p
  | _ => Build.misfit .unknown

end Covenant
