import Covenant.Proofs.Scoping.Resolver
import Covenant.Proofs.Tree.Walk

/-! What a resolver finds out on its way through a tree. -/

namespace Covenant

/-- Expressions of which no name and no pattern is a part by itself. -/
def Expr.isNeutral : Expr → Bool
  | .name _ _ _ | .select _ _ _ => false
  | _ => true

def Stmt.isNeutral : Stmt → Bool
  | .bind _ _ _ _ _ | .each _ _ _ _ _ => false
  | _ => true

namespace Scoping

structure Traces (R : Rule) (P : Ty → Pattern → Prop) (T : Names → Names → Prop → Prop) : Prop where
  here (n : Names) : T n n True
  andThen {n m o : Names} {A B : Prop} : T n m A → T m o B → T n o (A ∧ B)
  leave {n m : Names} {A : Prop} : T n m A → T n (m.leave n) A
  name {n : Names} {x : String} {y : Symbol} (k : Note) : n.find? x = some y → T n n (R.expr (.name k x (some y)))
  pattern (n : Names) (t : Ty) (p : Pattern) : T n (pattern n t p).2 (P t (Scoping.pattern n t p).1)
  bind (n : Names) (l : Bool) (p : Pos) (x : String) (d : Option Ty) (e : Expr) (slot : Option Nat) :
    T n (n.declare x (d.getD (typeOf e)) .letBound true) (R.stmt l (.bind p x d e slot))
  each (n : Names) (l : Bool) (p : Pos) (x : String) (e : Expr) (b : Block) (slot : Option Nat) :
    T n (n.declare x (elementOf (typeOf e)) .loop false) (R.stmt l (.each p x e b slot))
  select (k : Note) (e : Expr) (as : List Arm) :
    R.expr (.select k e as) ↔ ∀ a ∈ as, P (typeOf e) a.pattern
  expr {e : Expr} : e.isNeutral = true → R.expr e
  stmt {l : Bool} {s : Stmt} : s.isNeutral = true → R.stmt l s
  guard (e : Expr) : R.guard e

theorem expr_isName {n : Names} {a : Expr} {r : Expr × Names} (h : expr n a = some r) :
    r.1.isName = a.isName := by
  cases a with
  | int | bool | text | noneLit | enum =>
    cases h
    rfl
  | name | unary | field | wrap | call | array | record =>
    obtain ⟨_,-,h⟩ := Option.bind_eq_some_iff.mp h
    cases h
    rfl
  | binary | index | method | select =>
    obtain ⟨_,-,h⟩ := Option.bind_eq_some_iff.mp h
    obtain ⟨_,-,h⟩ := Option.bind_eq_some_iff.mp h
    cases h
    rfl
  | block m ss tail d =>
    cases tail with
    | none =>
      obtain ⟨_,-,h⟩ := Option.bind_eq_some_iff.mp h
      cases h
      rfl
    | some e =>
      obtain ⟨_,-,h⟩ := Option.bind_eq_some_iff.mp h
      obtain ⟨_,-,h⟩ := Option.bind_eq_some_iff.mp h
      cases h
      rfl

variable {R : Rule} {P : Ty → Pattern → Prop} {T : Names → Names → Prop → Prop}

namespace Traces

variable {n m o : Names} {A B : Prop}

theorem congr (h : T n m A) (hAB : A ↔ B) : T n m B := propext hAB ▸ h

theorem known (ht : Traces R P T) (hA : A) : T n n A := congr (ht.here n) (iff_of_true trivial hA)

theorem also (hA : A) (h : T n m B) : T n m (A ∧ B) := congr h (and_iff_right hA).symm

theorem two (ht : Traces R P T) {C : Prop} (hA : A) (h : T n m B) (h' : T m o C) : T n o (A ∧ B ∧ C) :=
  also hA (ht.andThen h h')

end Traces

section

variable {α β γ : Type} {x : Option α}

theorem step_eq_some {f : α → β} {b : β} (h : (x.bind fun a => some (f a)) = some b) : ∃ a, x = some a ∧ f a = b :=
  (Option.bind_eq_some_iff.mp h).imp fun _ ha => ⟨ha.1,Option.some.inj ha.2⟩

theorem steps_eq_some {y : α → Option β} {f : α → β → γ} {c : γ}
    (h : (x.bind fun a => (y a).bind fun b => some (f a b)) = some c) :
    ∃ a b, x = some a ∧ y a = some b ∧ f a b = c := by
  obtain ⟨a,ha,h⟩ := Option.bind_eq_some_iff.mp h
  exact ⟨a,(step_eq_some h).imp fun _ hb => ⟨ha,hb⟩⟩

end

open Traces

variable (ht : Traces R P T)
include ht

mutual

theorem expr_traced : ∀ (e : Expr) {n : Names} {r : Expr × Names} (l : Bool), expr n e = some r →
    T n r.2 (r.1.Every R l)
  | .int _ _, _, _, _, h | .bool _ _, _, _, _, h | .text _ _, _, _, _, h | .noneLit _, _, _, _, h
  | .enum _ _ _ _, _, _, _, h => by
    cases h
    exact ht.known (ht.expr rfl)
  | .name k _ _, _, _, _, h => by
    obtain ⟨y,hy,h⟩ := Option.bind_eq_some_iff.mp h
    cases h
    exact ht.name k hy
  | .unary _ _ e, _, _, l, h | .field _ e _, _, _, l, h | .wrap _ _ e, _, _, l, h => by
    obtain ⟨r,hr,rfl⟩ := step_eq_some h
    exact also (ht.expr rfl) (expr_traced e l hr)
  | .binary _ _ a b, _, _, l, h | .index _ a b, _, _, l, h => by
    obtain ⟨r,r',hr,hr',rfl⟩ := steps_eq_some h
    exact ht.two (ht.expr rfl) (expr_traced a l hr) (expr_traced b l hr')
  | .call _ _ es, _, _, l, h | .array _ es, _, _, l, h => by
    obtain ⟨r,hr,rfl⟩ := step_eq_some h
    exact also (ht.expr rfl) (exprs_traced es l hr)
  | .method _ e _ es _, _, _, l, h => by
    obtain ⟨r,r',hr,hr',rfl⟩ := steps_eq_some h
    exact ht.two (ht.expr rfl) (expr_traced e l hr) (exprs_traced es l hr')
  | .record _ _ fs, _, _, l, h => by
    obtain ⟨r,hr,rfl⟩ := step_eq_some h
    exact also (ht.expr rfl) (fields_traced fs l hr)
  | .select k e as, _, _, l, h => by
    obtain ⟨r,r',hr,hr',rfl⟩ := steps_eq_some h
    refine congr (ht.andThen (expr_traced e l hr) (arms_traced as l hr')) ?_
    rw [← ht.select k]
    exact and_left_comm
  | .block _ ss none _, _, _, l, h => by
    obtain ⟨r,hr,rfl⟩ := step_eq_some h
    exact also (ht.expr rfl) (stmts_traced ss l hr)
  | .block _ ss (some e) _, _, _, l, h => by
    obtain ⟨r,r',hr,hr',rfl⟩ := steps_eq_some h
    exact ht.two (ht.expr rfl) (stmts_traced ss l hr) (expr_traced e l hr')

theorem exprs_traced : ∀ (es : List Expr) {n : Names} {r : List Expr × Names} (l : Bool), exprs n es = some r →
    T n r.2 (Expr.EveryIn R l r.1)
  | [], _, _, _, h => by
    cases h
    exact ht.here _
  | e :: es, _, _, l, h => by
    obtain ⟨r,r',hr,hr',rfl⟩ := steps_eq_some h
    exact ht.andThen (expr_traced e l hr) (exprs_traced es l hr')

theorem fields_traced : ∀ (fs : List FieldInit) {n : Names} {r : List FieldInit × Names} (l : Bool),
    fields n fs = some r → T n r.2 (FieldInit.EveryIn R l r.1)
  | [], _, _, _, h => by
    cases h
    exact ht.here _
  | .mk _ _ e :: fs, _, _, l, h => by
    obtain ⟨r,r',hr,hr',rfl⟩ := steps_eq_some h
    exact ht.andThen (expr_traced e l hr) (fields_traced fs l hr')

theorem arms_traced : ∀ (as : List Arm) {n : Names} {t : Ty} {r : List Arm × Names} (l : Bool),
    arms n t as = some r → T n r.2 ((∀ a ∈ r.1, P t a.pattern) ∧ Arm.EveryIn R l r.1)
  | [], _, _, _, _, h => by
    cases h
    exact ht.known ⟨nofun,trivial⟩
  | .mk _ p e :: as, n, t, _, l, h => by
    obtain ⟨r,r',hr,hr',rfl⟩ := steps_eq_some h
    have hfirst := ht.leave (ht.andThen (ht.pattern n t p) (expr_traced e l hr))
    have hrest := arms_traced as l hr'
    refine congr (ht.andThen hfirst hrest) ?_
    rw [List.forall_mem_cons]
    exact and_and_and_comm

theorem stmt_traced : ∀ (x : Stmt) {n : Names} {r : Stmt × Names} (l : Bool), stmt n x = some r →
    T n r.2 (r.1.Every R l)
  | .bind _ _ _ e _, _, _, l, h => by
    obtain ⟨r,hr,rfl⟩ := step_eq_some h
    exact congr (ht.andThen (expr_traced e l hr) (ht.bind ..)) and_comm
  | .assign p a e, _, _, l, h => by
    obtain ⟨r,r',hr,hr',rfl⟩ := steps_eq_some h
    by_cases hname : a.isName = true
    · obtain ⟨m,x,sym,rfl⟩ := a.eq_name_of_isName hname
      obtain ⟨y,-,hr⟩ := Option.bind_eq_some_iff.mp hr
      cases hr
      exact also (ht.stmt rfl) (expr_traced e l hr')
    · have hkept : r.1.isName = false := (expr_isName hr).trans (Bool.not_eq_true _ ▸ hname)
      rw [Stmt.every_assign hkept]
      exact ht.two (ht.stmt rfl) (expr_traced a l hr) (expr_traced e l hr')
  | .ret _ none, _, _, _, h | .leave _, _, _, _, h | .next _, _, _, _, h => by
    cases h
    exact ht.known (ht.stmt rfl)
  | .ret _ (some e), _, _, l, h | .expr _ e, _, _, l, h => by
    obtain ⟨r,hr,rfl⟩ := step_eq_some h
    exact also (ht.stmt rfl) (expr_traced e l hr)
  | .cond _ c, _, _, l, h => by
    obtain ⟨r,hr,rfl⟩ := step_eq_some h
    exact also (ht.stmt rfl) (chain_traced c l hr)
  | .loop _ e b, _, _, l, h => by
    obtain ⟨r,r',hr,hr',rfl⟩ := steps_eq_some h
    exact ht.two (ht.stmt rfl) (expr_traced e l hr) (block_traced b true hr')
  | .each p x e (.mk q ss) _, _, _, l, h => by
    obtain ⟨r,r',hr,hr',rfl⟩ := steps_eq_some h
    have hbody := ht.leave (ht.andThen (ht.each r.2 l p x r.1 (.mk q r'.1) r.2.next) (stmts_traced ss true hr'))
    exact congr (ht.andThen (expr_traced e l hr) hbody) and_left_comm

theorem stmts_traced : ∀ (xs : List Stmt) {n : Names} {r : List Stmt × Names} (l : Bool), stmts n xs = some r →
    T n r.2 (Stmt.EveryIn R l r.1)
  | [], _, _, _, h => by
    cases h
    exact ht.here _
  | x :: xs, _, _, l, h => by
    obtain ⟨r,r',hr,hr',rfl⟩ := steps_eq_some h
    exact ht.andThen (stmt_traced x l hr) (stmts_traced xs l hr')

theorem block_traced : ∀ (b : Block) {n : Names} {r : Block × Names} (l : Bool), block n b = some r →
    T n r.2 (r.1.Every R l)
  | .mk _ ss, _, _, l, h => by
    obtain ⟨r,hr,rfl⟩ := step_eq_some h
    exact ht.leave (stmts_traced ss l hr)

theorem chain_traced : ∀ (c : Chain) {n : Names} {r : Chain × Names} (l : Bool), chain n c = some r →
    T n r.2 (r.1.Every R l)
  | .stop, _, _, _, h => by
    cases h
    exact ht.here _
  | .otherwise b, _, _, l, h => by
    obtain ⟨r,hr,rfl⟩ := step_eq_some h
    exact block_traced b l hr
  | .branch _ e b c, _, _, l, h => by
    obtain ⟨r,hr,h⟩ := Option.bind_eq_some_iff.mp h
    obtain ⟨r',hr',h⟩ := Option.bind_eq_some_iff.mp h
    obtain ⟨r'',hr'',h⟩ := Option.bind_eq_some_iff.mp h
    cases h
    exact ht.two (ht.guard _) (expr_traced e l hr) (ht.andThen (block_traced b l hr') (chain_traced c l hr''))

end

end Scoping

end Covenant
