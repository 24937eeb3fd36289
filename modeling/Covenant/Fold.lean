import Covenant.Syntax.Basic

/-! Constant expressions: their value, and the literal that stands for a value. -/

namespace Covenant

def Expr.literal? : Expr → Option Value
  | .int _ v => some (.int v)
  | .bool _ b => some (.bool b)
  | .text _ s => some (.text s)
  | _ => none

/-- The value of a constant expression. Names are looked up among the constants, and an enum value is
its tag. Both operands of `&&` and `||` must have a value. -/
def Expr.constant? (lookup : String → Option Value) : Expr → Option Value
  | .int _ v => some (.int v)
  | .bool _ b => some (.bool b)
  | .text _ s => some (.text s)
  | .name _ n _ => lookup n
  | .enum _ _ _ tag => tag.map fun t => .int t
  | .unary _ op e =>
    match e.constant? lookup with
    | some v => Value.foldUnary op v
    | none => none
  | .binary _ op l r =>
    match l.constant? lookup with
    | none => none
    | some a =>
      match r.constant? lookup with
      | none => none
      | some b => Value.foldBinary op a b
  | _ => none

section

variable {f : String → Option Value} {n : Note} {a b e : Expr} {v : Value}

theorem Expr.constant?_unary {op : UnaryOp} (h : (Expr.unary n op e).constant? f = some v) :
    ∃ x, e.constant? f = some x ∧ Value.foldUnary op x = some v := by
  simp only [constant?] at h
  split at h
  · exact ⟨_,‹_›,h⟩
  · cases h

theorem Expr.constant?_binary {op : BinaryOp} (h : (Expr.binary n op a b).constant? f = some v) :
    ∃ x y, a.constant? f = some x ∧ b.constant? f = some y ∧ Value.foldBinary op x y = some v := by
  simp only [constant?] at h
  split at h
  · cases h
  · split at h
    · cases h
    · exact ⟨_,_,‹_›,‹_›,h⟩

end

/-- The type of an integer literal that replaces an expression of the given type: an amount of mana
or an enum tag keeps its type. -/
def keptType : Option Ty → Ty
  | some t => if t.isNumeric || t.isEnum then t else .integer
  | none => .integer

def Value.literal (type : Option Ty) (pos : Pos) : Value → Expr
  | .int v => .int ⟨pos, some (keptType type)⟩ v
  | .bool b => .bool ⟨pos, some .boolean⟩ b
  | .text s => .text ⟨pos, some .string⟩ s

theorem Value.literal?_literal (type : Option Ty) (pos : Pos) (v : Value) :
    (v.literal type pos).literal? = some v := by
  cases v <;> rfl

end Covenant
