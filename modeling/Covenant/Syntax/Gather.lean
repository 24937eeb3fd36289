import Covenant.Syntax.Basic

/-! Lists gathered from a tree in the order of the text. What a node has of its own comes before what its parts
have. -/

namespace Covenant

structure Gather (α : Type) where
  expr : Expr → List α := fun _ => []
  stmt : Stmt → List α := fun _ => []

variable {α : Type} (g : Gather α)

mutual

def Expr.gather (e : Expr) : List α :=
  g.expr e ++ match e with
  | .int _ _ | .bool _ _ | .text _ _ | .name _ _ _ | .noneLit _ | .enum _ _ _ _ => []
  | .unary _ _ e | .field _ e _ | .wrap _ _ e => e.gather
  | .binary _ _ a b | .index _ a b => a.gather ++ b.gather
  | .call _ _ es | .array _ es => Expr.gatherIn es
  | .method _ e _ es _ => e.gather ++ Expr.gatherIn es
  | .record _ _ fs => FieldInit.gatherIn fs
  | .select _ e as => e.gather ++ Arm.gatherIn as
  | .block _ ss none _ => Stmt.gatherIn ss
  | .block _ ss (some e) _ => Stmt.gatherIn ss ++ e.gather

def Expr.gatherIn : List Expr → List α
  | [] => []
  | e :: es => e.gather ++ Expr.gatherIn es

def FieldInit.gatherIn : List FieldInit → List α
  | [] => []
  | .mk _ _ e :: fs => e.gather ++ FieldInit.gatherIn fs

def Arm.gatherIn : List Arm → List α
  | [] => []
  | .mk _ _ e :: as => e.gather ++ Arm.gatherIn as

def Stmt.gather (s : Stmt) : List α :=
  g.stmt s ++ match s with
  | .ret _ none | .leave _ | .next _ => []
  | .bind _ _ _ e _ | .ret _ (some e) | .expr _ e => e.gather
  | .assign _ t e => t.gather ++ e.gather
  | .cond _ c => c.gather
  | .loop _ e b | .each _ _ e b _ => e.gather ++ b.gather

def Stmt.gatherIn : List Stmt → List α
  | [] => []
  | s :: ss => s.gather ++ Stmt.gatherIn ss

def Block.gather : Block → List α
  | .mk _ ss => Stmt.gatherIn ss

def Chain.gather : Chain → List α
  | .stop => []
  | .otherwise b => b.gather
  | .branch _ e b rest => e.gather ++ (b.gather ++ rest.gather)

end

end Covenant
