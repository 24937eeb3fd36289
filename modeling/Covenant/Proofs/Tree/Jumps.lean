import Covenant.Lower.Fault
import Covenant.Syntax.Gather

/-! The loops of a tree, and the jumps that leave it. A jump belongs to the loop whose body it is in; the
condition of a loop, or the array it goes through, is outside of that. Arms behind a pattern that matches
everything are never chosen and count for nothing. -/

namespace Covenant

open Lower (Jump)

mutual

def Expr.jumps : Expr → List Jump
  | .int _ _ | .bool _ _ | .text _ _ | .name _ _ _ | .noneLit _ | .enum _ _ _ _ => []
  | .unary _ _ e | .field _ e _ | .wrap _ _ e => e.jumps
  | .binary _ _ a b | .index _ a b => a.jumps ++ b.jumps
  | .call _ _ args | .array _ args => Expr.jumpsIn args
  | .method _ e _ args _ => e.jumps ++ Expr.jumpsIn args
  | .record _ _ fs => FieldInit.jumpsIn fs
  | .select _ e as => e.jumps ++ Arm.jumpsIn as
  | .block _ ss none _ => Stmt.jumpsIn ss
  | .block _ ss (some e) _ => Stmt.jumpsIn ss ++ e.jumps

def Expr.jumpsIn : List Expr → List Jump
  | [] => []
  | e :: es => e.jumps ++ Expr.jumpsIn es

def FieldInit.jumpsIn : List FieldInit → List Jump
  | [] => []
  | .mk _ _ e :: fs => e.jumps ++ FieldInit.jumpsIn fs

def Arm.jumpsIn : List Arm → List Jump
  | [] => []
  | .mk _ p e :: as => e.jumps ++ if p.form.isCatchAll then [] else Arm.jumpsIn as

def Stmt.jumps : Stmt → List Jump
  | .bind _ _ _ e _ | .ret _ (some e) | .expr _ e | .loop _ e _ | .each _ _ e _ _ => e.jumps
  | .assign _ t e => t.jumps ++ e.jumps
  | .cond _ c => c.jumps
  | .leave _ => [.leave]
  | .next _ => [.next]
  | .ret _ none => []

def Stmt.jumpsIn : List Stmt → List Jump
  | [] => []
  | s :: ss => s.jumps ++ Stmt.jumpsIn ss

def Block.jumps : Block → List Jump
  | .mk _ ss => Stmt.jumpsIn ss

def Chain.jumps : Chain → List Jump
  | .stop => []
  | .otherwise b => b.jumps
  | .branch _ e b rest => e.jumps ++ b.jumps ++ rest.jumps

end

mutual

/-- The bodies of the loops in an expression. A body comes before those of the loops inside it. -/
def Expr.loops : Expr → List Block
  | .int _ _ | .bool _ _ | .text _ _ | .name _ _ _ | .noneLit _ | .enum _ _ _ _ => []
  | .unary _ _ e | .field _ e _ | .wrap _ _ e => e.loops
  | .binary _ _ a b | .index _ a b => a.loops ++ b.loops
  | .call _ _ args | .array _ args => Expr.loopsIn args
  | .method _ e _ args _ => e.loops ++ Expr.loopsIn args
  | .record _ _ fs => FieldInit.loopsIn fs
  | .select _ e as => e.loops ++ Arm.loopsIn as
  | .block _ ss none _ => Stmt.loopsIn ss
  | .block _ ss (some e) _ => Stmt.loopsIn ss ++ e.loops

def Expr.loopsIn : List Expr → List Block
  | [] => []
  | e :: es => e.loops ++ Expr.loopsIn es

def FieldInit.loopsIn : List FieldInit → List Block
  | [] => []
  | .mk _ _ e :: fs => e.loops ++ FieldInit.loopsIn fs

def Arm.loopsIn : List Arm → List Block
  | [] => []
  | .mk _ p e :: as => e.loops ++ if p.form.isCatchAll then [] else Arm.loopsIn as

/-- The condition of a `while` is tested in each round, and the array of a `for` is made before the first
one. -/
def Stmt.loops : Stmt → List Block
  | .bind _ _ _ e _ | .ret _ (some e) | .expr _ e => e.loops
  | .assign _ t e => t.loops ++ e.loops
  | .cond _ c => c.loops
  | .loop _ e b => b :: (e.loops ++ b.loops)
  | .each _ _ e b _ => e.loops ++ b :: b.loops
  | .ret _ none | .leave _ | .next _ => []

def Stmt.loopsIn : List Stmt → List Block
  | [] => []
  | s :: ss => s.loops ++ Stmt.loopsIn ss

def Block.loops : Block → List Block
  | .mk _ ss => Stmt.loopsIn ss

def Chain.loops : Chain → List Block
  | .stop => []
  | .otherwise b => b.loops
  | .branch _ e b rest => e.loops ++ b.loops ++ rest.loops

end

/-- What checking tells about a piece of code, whatever its type: a `return` in it, and a literal in it that is no
64-bit number. -/
inductive Mark where
  | ret
  | range (pos : Pos)
  deriving DecidableEq, Repr

def marks : Gather Mark where
  expr
    | .int n v => if inWordRange v then [] else [.range n.pos]
    | _ => []
  stmt
    | .ret _ _ => [.ret]
    | _ => []

def Expr.returns (e : Expr) : Bool := (e.gather marks).contains .ret

end Covenant
