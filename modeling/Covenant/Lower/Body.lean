import Covenant.Lower.Context
import Covenant.Lower.Fragment

/-! Function bodies as code. A place in memory is reached by an address on the stack and an offset in
the instruction; whatever could be out of bounds is tested first. -/

namespace Covenant.Lower

open Wasm Memory

def pushes (c : Context) : Expr → Bool
  | .call _ (.user n) _ => ((c.target? n).map fun t => !t.type.results.isEmpty).getD false
  | .call _ (.host h) _ => h.result.isSome
  | .select ⟨_, some t⟩ _ _ => t ≠ .void && t ≠ .hole
  | .select ⟨_, none⟩ _ _ => false
  | .block _ _ none _ => false
  | .block _ _ (some e) _ => pushes c e
  | _ => true

mutual

/-- Whether control never comes out of an expression. -/
def diverges : Expr → Bool
  | .block _ _ none d => d
  | .block _ _ (some e) d => d || diverges e
  | .select _ _ as => allDiverge as
  | _ => false

def allDiverge : List Arm → Bool
  | [] => true
  | .mk _ _ e :: as => diverges e && allDiverge as

end

def equals (t : Ty) : M Instr :=
  if t.isNumeric || t.isEnum then pure (.num .i64Eq)
  else if t = .boolean then pure (.num .i32Eq)
  else if t = .string || t = .did then pure (.routine .equal)
  else throw (.noEquality t)

def operator (op : BinaryOp) (left : Option Ty) : M (List Instr) :=
  match op with
  | .add => pure [.num .i64Add]
  | .sub => pure [.num .i64Sub]
  | .mul => pure [.num .i64Mul]
  | .div => pure [.num .i64DivS]
  | .rem => pure [.num .i64RemS]
  | .lt => pure [.num .i64LtS]
  | .gt => pure [.num .i64GtS]
  | .le => pure [.num .i64LeS]
  | .ge => pure [.num .i64GeS]
  | .concat => pure [.routine .concat]
  | .eq => do return [← equals (← orGap .type left)]
  | .ne => do return [← equals (← orGap .type left), .num .i32Eqz]
  | .and | .or => pure []

def value : Value → M (List Instr)
  | .int v => pure [.i64 v]
  | .bool b => pure [.i32 (if b then 1 else 0)]
  | .text s => do return [.i32 (← intern s)]

/-- A name is a local, or a constant written out. -/
def name (pos : Pos) (n : String) : Option Symbol → M (List Instr)
  | none => throw (.unresolvedName n pos)
  | some ⟨_, _, _, .constant, _, some v⟩ => value v
  | some ⟨_, _, _, .constant, _, none⟩ => throw (.noConstant n)
  | some ⟨_, _, _, _, slot, _⟩ => do return [.get (← orGap .slot slot)]

def fieldOffset (c : Context) (type : Option Ty) (field : String) : M Nat := do
  match ← orGap .type type with
  | .record r =>
    let d ← orGap .record (c.record? r)
    match d.fieldIndex? field with
    | some i => return slotOffset i
    | none => throw (.noField d.name field)
  | _ => throw (.gap .record)

/-- The address of an element, less the header; traps if there is no such element. -/
def elementAddress (c : Context) (array index : M (List Instr)) : M (List Instr) := do
  let a ← temp c .i32
  let i ← temp c .i64
  let array ← array
  let index ← index
  return array ++ Instr.set a :: index ++ Instr.set i :: elementCode a i

structure Operand where
  type : Option Ty
  code : M (List Instr)

/-- The element type of an array; the item decides if the array leaves it open. -/
def elementType (array : Option Ty) (item : Option Ty) : M Ty := do
  match ← orGap .type array with
  | .array t => if t.hasHole then orGap .type item else return t
  | _ => throw (.gap .type)

def push (c : Context) (array item : Operand) : M (List Instr) := do
  let t ← elementType array.type item.type
  let a ← temp c .i32
  let v ← temp c t.valType
  let n ← temp c .i32
  let array ← array.code
  let item ← item.code
  return array ++ Instr.set a :: item ++ Instr.set v :: pushCode t.valType a v n

def pop (c : Context) (array : Operand) : M (List Instr) := do
  let a ← temp c .i32
  let n ← temp c .i32
  let out ← temp c .i32
  let array ← array.code
  return array ++ Instr.set a :: popCode a n out

def contains (c : Context) (array item : Operand) : M (List Instr) := do
  let t ← elementType array.type item.type
  let a ← temp c .i32
  let v ← temp c t.valType
  let i ← temp c .i32
  let found ← temp c .i32
  let array ← array.code
  let item ← item.code
  let same ← equals t
  return array ++ Instr.set a :: item ++ Instr.set v :: containsCode t.valType same a v i found

def builtin (c : Context) (op : Builtin) (args : List Operand) : M (List Instr) :=
  match op, args with
  | .arrayLen, a :: _ | .stringLen, a :: _ => do
    return (← a.code) ++ [Instr.load .i32 lengthOffset, Instr.num .i64ExtendI32U]
  | .stringConcat, a :: b :: _ => do
    let x ← a.code
    let y ← b.code
    return x ++ y ++ [Instr.routine .concat]
  | .arrayPush, a :: b :: _ => push c a b
  | .arrayPop, a :: _ => pop c a
  | .arrayContains, a :: b :: _ => contains c a b
  | _, _ => throw (.gap .operand)

def wrapTag : Wrapper → Int
  | .some | .ok => 1
  | .err => 0

def unused (pushed : Bool) : List Instr :=
  if pushed then [.op .drop] else []

/-- Leaves a number that is not zero iff a pattern matches. -/
def patternTest (c : Context) (subject : Nat) : PatternForm → M (List Instr)
  | .int v => pure [.get subject, .i64 v, .num .i64Eq]
  | .bool true => pure [.get subject]
  | .bool false => pure [.get subject, .num .i32Eqz]
  | .text s => do return [.get subject, .i32 (← intern s), .routine .equal]
  | .enum owner v => do
    let d ← orGap .enum (c.enum? owner)
    return [.get subject, .i64 ((d.tag? v).elim (-1) Int.ofNat), .num .i64Eq]
  | .some _ | .ok _ => pure [.get subject, .load .i64 tagOffset, .i64 1, .num .i64Eq]
  | .none | .err _ => pure [.get subject, .load .i64 tagOffset, .num .i64Eqz]
  | .wild | .bind _ => pure [.i32 1]

def bindPattern (c : Context) (subject : Nat) (p : PatternForm) : M (List Instr) :=
  match p.binder? with
  | some ⟨_, some slot⟩ =>
    if p.isCatchAll then pure [.get subject, .set slot]
    else do
      let t ← orGap .slot c.slots[slot]?
      return [.get subject, .load t.valType payloadOffset, .set slot]
  | _ => pure []

mutual

def expr (c : Context) : Expr → M (List Instr)
  | .int _ v => pure [.i64 v]
  | .bool _ b => pure [.i32 (if b then 1 else 0)]
  | .text _ s => do return [.i32 (← intern s)]
  | .name n s sym => name n.pos s sym
  | .unary _ .neg e => do return Instr.i64 0 :: (← expr c e) ++ [Instr.num .i64Sub]
  | .unary _ .not e => do return (← expr c e) ++ [Instr.num .i32Eqz]
  | .binary _ .and l r => do
    let x ← expr c l
    let y ← expr (c.inside 1) r
    return x ++ [Instr.cond (some .i32) y (some [.i32 0])]
  | .binary _ .or l r => do
    let x ← expr c l
    let y ← expr (c.inside 1) r
    return x ++ [Instr.cond (some .i32) [.i32 1] (some y)]
  | .binary _ op l r => do
    let x ← expr c l
    let y ← expr c r
    let o ← operator op l.type
    return x ++ y ++ o
  | .call _ (.builtin op) args => builtin c op (operands c args)
  | .call _ (.user n) args => do
    let code ← exprs c args
    let t ← orGap .function (c.target? n)
    return code ++ [Instr.op (.call t.index)]
  | .call _ (.host h) args => do
    let code ← exprs c args
    let i ← orGap .function (c.importIndex? h)
    return code ++ [Instr.op (.call i)]
  | .call n (.unresolved s) args => do
    let _ ← exprs c args
    throw (.unresolvedCall s n.pos)
  | .method n recv _ args b =>
    match b with
    | some op => builtin c op (⟨recv.type, expr c recv⟩ :: operands c args)
    | none => throw (.unresolvedMethod n.pos)
  | .array _ es => do
    let capacity := max es.length c.arrayCapacity
    let a ← temp c .i32
    let code ← elements c a 0 es
    return arrayCode a es.length capacity ++ code ++ [Instr.get a]
  | .index n t i => do
    let address ← elementAddress c (expr c t) (expr c i)
    let type ← orGap .type n.type
    return address ++ [Instr.load type.valType arrayHeader]
  | .field n t f => do
    let code ← expr c t
    let offset ← fieldOffset c t.type f
    let type ← orGap .type n.type
    return code ++ [Instr.load type.valType offset]
  | .record _ n fs => do
    let d ← orGap .record (c.record? n)
    let a ← temp c .i32
    let code ← fields c d a fs
    return allocate (recordSize d.fields.length) ++ Instr.set a :: code ++ [Instr.get a]
  | .wrap _ w e => do
    let a ← temp c .i32
    let code ← expr c e
    let type ← orGap .type e.type
    return variantCode a (wrapTag w) ++ Instr.get a :: code ++
      [Instr.store type.valType payloadOffset, Instr.get a]
  | .noneLit _ => do
    let a ← temp c .i32
    return variantCode a 0 ++ [Instr.get a]
  | .enum _ _ _ (some tag) => pure [.i64 tag]
  | .enum n o v none => throw (.unresolvedVariant o v n.pos)
  | .select n e as => do
    let type ← orGap .type e.type
    let subject ← temp c type.valType
    let code ← expr c e
    let out := if pushes c (.select n e as) then n.type.map Ty.valType else none
    let chosen ← arms c subject out as
    let stop := if out = none && allDiverge as then [Instr.trap] else []
    return code ++ Instr.set subject :: chosen ++ stop
  | .block _ ss none _ => stmts c ss
  | .block _ ss (some e) _ => do
    let code ← stmts c ss
    let last ← expr c e
    return code ++ last

def exprs (c : Context) : List Expr → M (List Instr)
  | [] => pure []
  | e :: es => do
    let x ← expr c e
    let xs ← exprs c es
    return x ++ xs

def operands (c : Context) : List Expr → List Operand
  | [] => []
  | e :: es => ⟨e.type, expr c e⟩ :: operands c es

def elements (c : Context) (address : Nat) (i : Nat) : List Expr → M (List Instr)
  | [] => pure []
  | e :: es => do
    let x ← expr c e
    let type ← orGap .type e.type
    let xs ← elements c address (i + 1) es
    return Instr.get address :: x ++ Instr.store type.valType (arrayHeader + slotOffset i) :: xs

def fields (c : Context) (d : RecordDecl) (address : Nat) : List FieldInit → M (List Instr)
  | [] => pure []
  | .mk _ n e :: fs => do
    let x ← expr c e
    match d.fieldIndex? n with
    | none => throw (.gap (if d.fields.isEmpty then .recordFields else .field))
    | some i =>
      let f ← orGap .field d.fields[i]?
      let xs ← fields c d address fs
      return Instr.get address :: x ++ Instr.store f.type.valType (slotOffset i) :: xs

/-- Tries the arms of a match in order; after a pattern that matches everything none is left. -/
def arms (c : Context) (subject : Nat) (out : BlockType) : List Arm → M (List Instr)
  | [] => pure [.trap]
  | .mk _ p e :: as =>
    if p.form.isCatchAll then do
      let bound ← bindPattern c subject p.form
      let code ← expr c e
      return bound ++ code ++ unused (out = none && pushes c e)
    else do
      let test ← patternTest c subject p.form
      let bound ← bindPattern c subject p.form
      let code ← expr (c.inside 1) e
      let rest ← arms (c.inside 1) subject out as
      return test ++ [Instr.cond out (bound ++ code ++ unused (out = none && pushes c e)) (some rest)]

def stmt (c : Context) : Stmt → M (List Instr)
  | .bind _ _ _ e slot => do
    let code ← expr c e
    return code ++ [Instr.set (← orGap .slot slot)]
  | .assign _ (.name n s sym) e =>
    match sym.bind (·.slot) with
    | none => throw (.unresolvedTarget s n.pos)
    | some slot => do return (← expr c e) ++ [Instr.set slot]
  | .assign _ (.field n t f) e => do
    let x ← expr c t
    let y ← expr c e
    let offset ← fieldOffset c t.type f
    let type ← orGap .type n.type
    return x ++ y ++ [Instr.store type.valType offset]
  | .assign _ (.index n t i) e => do
    let address ← elementAddress c (expr c t) (expr c i)
    let y ← expr c e
    let type ← orGap .type n.type
    return address ++ y ++ [Instr.store type.valType arrayHeader]
  | .assign p _ _ => throw (.assignTarget p)
  | .ret _ none => pure [.op .ret]
  | .ret _ (some e) => do return (← expr c e) ++ [Instr.op .ret]
  | .expr _ e => do
    let code ← expr c e
    return code ++ unused (pushes c e)
  | .cond _ ch => do return (← chain c ch).getD []
  | .loop _ e b => do
    let test ← expr (c.inside 2) e
    let body ← block c.insideLoop b
    return whileCode test body
  | .each _ _ e b slot => do
    let slot ← orGap .slot slot
    let type ← orGap .slot c.slots[slot]?
    let a ← temp c .i32
    let i ← temp c .i32
    let array ← expr c e
    let body ← block c.insideLoop b
    return array ++ forCode type.valType a i slot body
  | .leave p =>
    match c.loop with
    | some l => pure [.op (.br (c.distance l.leave))]
    | none => throw (.jumpOutside .leave p)
  | .next p =>
    match c.loop with
    | some l => pure [.op (.br (c.distance l.next))]
    | none => throw (.jumpOutside .next p)

def stmts (c : Context) : List Stmt → M (List Instr)
  | [] => pure []
  | s :: ss => do
    let x ← stmt c s
    let xs ← stmts c ss
    return x ++ xs

def block (c : Context) : Block → M (List Instr)
  | .mk _ ss => stmts c ss

def chain (c : Context) : Chain → M (Option (List Instr))
  | .stop => pure none
  | .otherwise b => do return some (← block c b)
  | .branch _ e b rest => do
    let test ← expr c e
    let yes ← block (c.inside 1) b
    let no ← chain (c.inside 1) rest
    return some (test ++ [Instr.cond none yes no])

end

end Covenant.Lower
