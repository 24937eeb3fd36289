import Covenant.Proofs.Optimizer.Program
import Covenant.Proofs.Renaming.Types

/-! Optimising renamed trees. What is folded and what is removed depends on no name and no place. -/

namespace Covenant

variable {ρ : Renaming}

theorem Expr.literal?_rename (e : Expr) : (e.rename ρ).literal? = e.literal? := by
  cases e with
  | block _ _ tail => cases tail <;> rfl
  | _ => rfl

theorem Value.literal_rename (t : Option Ty) (pos : Pos) (v : Value) :
    v.literal (t.map (Ty.rename ρ)) (ρ.place pos) = (v.literal t pos).rename ρ := by
  cases v with
  | int v => simp only [literal, keptType_rename, Expr.rename, Note.rename, Option.map_some]
  | bool b | text s => rfl

theorem Expr.isName_rename (e : Expr) : (e.rename ρ).isName = e.isName := by
  cases e with
  | block n ss tail d => cases tail <;> rfl
  | _ => rfl

namespace Guard

theorem Meaning.ofSlot?_rename (t : Ty) (slot : Nat) : ofSlot? (t.rename ρ) slot = ofSlot? t slot := by
  cases t <;> rfl

theorem Meaning.ofExpr?_rename (e : Expr) : ofExpr? (e.rename ρ) = ofExpr? e := by
  cases e with
  | name n _ sym =>
    obtain ⟨_,_ | t⟩ := n
    · rfl
    · obtain _ | ⟨_,_,_,_,_ | slot,_⟩ := sym <;> first | rfl | exact ofSlot?_rename t slot
  | unary _ _ e => simp only [Expr.rename, ofExpr?, ofExpr?_rename e]
  | binary _ _ a b => simp only [Expr.rename, ofExpr?, ofExpr?_rename a, ofExpr?_rename b]
  | block _ _ tail => cases tail <;> rfl
  | enum _ _ _ tag => cases tag <;> rfl
  | _ => rfl

theorem formula?_rename (e : Expr) : formula? (e.rename ρ) = formula? e := by
  rw [formula?,formula?,Meaning.ofExpr?_rename]

end Guard

namespace Optimize

theorem neverTrue_rename (r : Prover) (facts : List Guard.Formula) (e : Expr) :
    neverTrue r facts (e.rename ρ) = neverTrue r facts e := by
  have hformula := Guard.formula?_rename (ρ := ρ) e
  cases e with
  | bool n b => rfl
  | block n ss tail d => cases tail <;> rfl
  | _ =>
    simp only [Expr.rename] at hformula
    simp only [neverTrue, Expr.rename, hformula]

theorem alwaysTrue_rename (r : Prover) (facts : List Guard.Formula) (e : Expr) :
    alwaysTrue r facts (e.rename ρ) = alwaysTrue r facts e := by
  have hformula := Guard.formula?_rename (ρ := ρ) e
  cases e with
  | bool n b => rfl
  | block n ss tail d => cases tail <;> rfl
  | _ =>
    simp only [Expr.rename] at hformula
    simp only [alwaysTrue, Expr.rename, hformula]

theorem failedGuard_rename (facts : List Guard.Formula) (e : Expr) :
    failedGuard facts (e.rename ρ) = failedGuard facts e := by
  rw [failedGuard,failedGuard,Guard.formula?_rename]

theorem name_rename (n : Note) (x : String) (sym : Option Symbol) :
    (name (n.rename ρ) (ρ.var x) (sym.map (Symbol.rename ρ))).value = (name n x sym).value.rename ρ := by
  cases sym with
  | none => rfl
  | some sym =>
    obtain ⟨y,t,m,k,slot,v⟩ := sym
    cases k with
    | constant =>
      cases v with
      | none => rfl
      | some v => exact Value.literal_rename (some t) n.pos v
    | _ => rfl

@[simp] theorem unary_rename (n : Note) (op : UnaryOp) (e : Expr) :
    (unary (n.rename ρ) op (e.rename ρ)).value = (unary n op e).value.rename ρ := by
  rw [unary,unary,Expr.literal?_rename]
  cases e.literal?.bind (Value.foldUnary op) with
  | none => rfl
  | some v => exact Value.literal_rename n.type n.pos v

theorem shortCircuit_rename (n : Note) (op : BinaryOp) (a b : Expr) :
    (shortCircuit (n.rename ρ) op (a.rename ρ) (b.rename ρ)).value =
      (shortCircuit n op a b).value.rename ρ := by
  cases a with
  | bool m v => cases op <;> cases v <;> rfl
  | block m ss tail d => cases tail <;> cases op <;> rfl
  | _ => cases op <;> rfl

@[simp] theorem binary_rename (n : Note) (op : BinaryOp) (a b : Expr) :
    (binary (n.rename ρ) op (a.rename ρ) (b.rename ρ)).value = (binary n op a b).value.rename ρ := by
  rw [binary,binary,Expr.literal?_rename,Expr.literal?_rename]
  cases a.literal? with
  | none => exact shortCircuit_rename n op a b
  | some u =>
    cases b.literal? with
    | none => exact shortCircuit_rename n op a b
    | some v =>
      dsimp only
      cases Value.foldBinary op u v with
      | none => exact shortCircuit_rename n op a b
      | some w => exact Value.literal_rename n.type n.pos w

@[simp] theorem ofChain_rename (pos : Pos) (c : Chain) :
    ofChain (ρ.place pos) (c.rename ρ) = Stmt.renameIn ρ (ofChain pos c) := by
  cases c with
  | otherwise b => cases b; rfl
  | _ => rfl

@[simp] theorem renameIn_append (ss ts : List Stmt) :
    Stmt.renameIn ρ (ss ++ ts) = Stmt.renameIn ρ ss ++ Stmt.renameIn ρ ts := by
  induction ss with
  | nil => rfl
  | cons s ss ih => simp only [List.cons_append, Stmt.renameIn, ih]

section

variable (r : Prover)

mutual

theorem expr_rename : ∀ e : Expr, (expr r (e.rename ρ)).value = (expr r e).value.rename ρ
  | .int _ _ | .bool _ _ | .text _ _ | .noneLit _ | .enum _ _ _ _ => rfl
  | .name n x sym => name_rename n x sym
  | .unary _ _ e | .field _ e _ | .wrap _ _ e => by simp [Expr.rename, expr, expr_rename e]
  | .binary _ _ a b | .index _ a b => by simp [Expr.rename, expr, expr_rename a, expr_rename b]
  | .call _ _ es | .array _ es => by simp [Expr.rename, expr, exprs_rename es]
  | .method _ e _ es _ => by simp [Expr.rename, expr, expr_rename e, exprs_rename es]
  | .record _ _ fs => by simp [Expr.rename, expr, fields_rename fs]
  | .select _ e as => by simp [Expr.rename, expr, expr_rename e, arms_rename as]
  | .block _ ss none _ => by simp [Expr.rename, expr, stmts_rename ss]
  | .block _ ss (some e) _ => by simp [Expr.rename, expr, stmts_rename ss, expr_rename e]

theorem exprs_rename : ∀ es : List Expr,
    (exprs r (Expr.renameIn ρ es)).value = Expr.renameIn ρ (exprs r es).value
  | [] => rfl
  | e :: es => by simp [Expr.renameIn, exprs, expr_rename e, exprs_rename es]

theorem fields_rename : ∀ fs : List FieldInit,
    (fields r (FieldInit.renameIn ρ fs)).value = FieldInit.renameIn ρ (fields r fs).value
  | [] => rfl
  | .mk _ _ e :: fs => by simp [FieldInit.renameIn, fields, expr_rename e, fields_rename fs]

theorem arms_rename : ∀ as : List Arm,
    (arms r (Arm.renameIn ρ as)).value = Arm.renameIn ρ (arms r as).value
  | [] => rfl
  | .mk _ _ e :: as => by simp [Arm.renameIn, arms, expr_rename e, arms_rename as]

theorem stmt_rename : ∀ s : Stmt,
    (stmt r (s.rename ρ)).value = Stmt.renameIn ρ (stmt r s).value
  | .bind _ _ _ e _ | .ret _ (some e) | .expr _ e => by simp [Stmt.rename, stmt, expr_rename e, Stmt.renameIn]
  | .assign p t e => by
    cases hname : t.isName with
    | true =>
      obtain ⟨n,x,sym,rfl⟩ := Expr.eq_name_of_isName hname
      simp [Stmt.rename, Expr.rename, stmt, expr_rename e, Stmt.renameIn]
    | false =>
      rw [Stmt.rename,stmt_assign_value r p hname,
        stmt_assign_value r _ (t.isName_rename.trans hname),expr_rename t,expr_rename e]
      rfl
  | .ret _ none | .leave _ | .next _ => rfl
  | .cond p c => by simp [Stmt.rename, stmt, chain_rename [] c]
  | .loop p e b => by
    rw [Stmt.rename,stmt_loop_value,stmt_loop_value,expr_rename e,neverTrue_rename,block_rename b]
    split <;> rfl
  | .each _ _ e b _ => by simp [Stmt.rename, stmt, expr_rename e, block_rename b, Stmt.renameIn]

theorem stmts_rename : ∀ ss : List Stmt,
    (stmts r (Stmt.renameIn ρ ss)).value = Stmt.renameIn ρ (stmts r ss).value
  | [] => rfl
  | s :: ss => by simp [Stmt.renameIn, stmts, stmt_rename s, stmts_rename ss]

theorem block_rename : ∀ b : Block, (block r (b.rename ρ)).value = (block r b).value.rename ρ
  | .mk _ ss => by simp [Block.rename, block, stmts_rename ss]

theorem chain_rename (facts : List Guard.Formula) : ∀ c : Chain,
    (chain r facts (c.rename ρ)).value = (chain r facts c).value.rename ρ
  | .stop => rfl
  | .otherwise b => by simp [Chain.rename, chain, block_rename b]
  | .branch p e b c => by
    rw [Chain.rename,chain_branch_value,chain_branch_value,expr_rename e,neverTrue_rename,alwaysTrue_rename,
      failedGuard_rename,block_rename b,chain_rename facts c,chain_rename _ c]
    split
    · rfl
    · split <;> rfl

end

end

theorem function_rename (r : Prover) (f : FunctionDecl) :
    (function r (f.rename ρ)).value = (function r f).value.rename ρ := by
  simp only [function, FunctionDecl.rename, Tally.value_bind, Tally.value_pure, block_rename]

theorem item_rename (r : Prover) (i : Item) : (item r (i.rename ρ)).value = (item r i).value.rename ρ := by
  cases i with
  | function f => simp only [Item.rename, item, Tally.value_map, function_rename]
  | _ => rfl

end Optimize

namespace Program

theorem optimizeWith_rename (r : Optimize.Prover) (p : Program) :
    ((p.rename ρ).optimizeWith r).value = (p.optimizeWith r).value.rename ρ := by
  have hitems : ((p.items.map (Item.rename ρ)).mapM (Optimize.item r)).value =
      (p.items.mapM (Optimize.item r)).value.map (Item.rename ρ) := by
    rw [items_optimizeWith,items_optimizeWith,List.map_map,List.map_map]
    exact List.map_congr_left fun i _ => Optimize.item_rename r i
  simp only [optimizeWith, Program.rename, Tally.value_bind, Tally.value_pure, hitems]

theorem optimize_rename (z : Optimize.Solver) (o : Options) (p : Program) :
    ((p.rename ρ).optimize z o).value = (p.optimize z o).value.rename ρ := optimizeWith_rename (o.prover z) p

end Program

end Covenant
