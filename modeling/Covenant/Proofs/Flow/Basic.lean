import Covenant.Syntax.Basic

/-! Where control may go. A condition may go either way unless it is a literal, a match may take any of its
arms, and a loop may have any number of rounds. -/

namespace Covenant

/-- How a piece of code may be left: at its end, out of the loop around it, to the next round of that loop,
or out of the function, with or without a value. -/
inductive Exit where
  | done
  | leave
  | next
  | ret (hasValue : Bool)
  deriving DecidableEq, Repr

abbrev Flow := Exit → Prop

namespace Flow

def only (k : Exit) : Flow := fun j => j = k

def andThen (f g : Flow) : Flow := fun k => (f k ∧ k ≠ .done) ∨ (f .done ∧ g k)

def choice (p q : Prop) (f g : Flow) : Flow := fun k => (p ∧ f k) ∨ (q ∧ g k)

/-- Any number of rounds. Before each the test runs; it may say that there is another one, or that there is
none. -/
inductive Rounds (test : Flow) (more enough : Prop) (body : Flow) : Flow
  | out {k : Exit} : test k → k ≠ .done → Rounds test more enough body k
  | stop : test .done → enough → Rounds test more enough body .done
  | again {j k : Exit} : test .done → more → body j → j = .done ∨ j = .next →
    Rounds test more enough body k → Rounds test more enough body k
  | leave : test .done → more → body .leave → Rounds test more enough body .done
  | ret {b : Bool} : test .done → more → body (.ret b) → Rounds test more enough body (.ret b)

variable {f f' g g' : Flow} {p p' q q' : Prop} {k : Exit}

theorem andThen_mono (hf : ∀ k, f k → f' k) (hg : ∀ k, g k → g' k) (h : f.andThen g k) :
    f'.andThen g' k :=
  h.imp (fun h => ⟨hf k h.1,h.2⟩) fun h => ⟨hf _ h.1,hg k h.2⟩

theorem choice_mono (hp : p → p') (hq : q → q') (hf : ∀ k, f k → f' k) (hg : ∀ k, g k → g' k)
    (h : choice p q f g k) : choice p' q' f' g' k :=
  h.imp (fun h => ⟨hp h.1,hf k h.2⟩) fun h => ⟨hq h.1,hg k h.2⟩

theorem Rounds.mono (hp : p → p') (hq : q → q') (hf : ∀ k, f k → f' k) (hg : ∀ k, g k → g' k)
    (h : Rounds f p q g k) : Rounds f' p' q' g' k := by
  induction h with
  | out hk hne => exact .out (hf _ hk) hne
  | stop ht he => exact .stop (hf _ ht) (hq he)
  | again ht hm hj hback _ ih => exact .again (hf _ ht) (hp hm) (hg _ hj) hback ih
  | leave ht hm hl => exact .leave (hf _ ht) (hp hm) (hg _ hl)
  | ret ht hm hr => exact .ret (hf _ ht) (hp hm) (hg _ hr)

theorem Rounds.cases (h : Rounds f p q g k) : k = .done ∨ f k ∨ ∃ b, k = .ret b ∧ g k := by
  induction h with
  | out hk _ => exact .inr (.inl hk)
  | stop => exact .inl rfl
  | again _ _ _ _ _ ih => exact ih
  | leave => exact .inl rfl
  | ret _ _ hr => exact .inr (.inr ⟨_,rfl,hr⟩)

/-- Without a reason to stop, only `break` leads to the end of a loop. -/
theorem Rounds.leave_of_done (h : Rounds f p q g k) (hk : k = .done) (hq : ¬ q) : g .leave := by
  induction h with
  | out _ hne => exact absurd hk hne
  | stop _ he => exact absurd he hq
  | again _ _ _ _ _ ih => exact ih hk
  | leave _ _ hl => exact hl
  | ret => cases hk

theorem andThen_done (f : Flow) : f.andThen (only .done) = f := by
  funext k
  refine propext ⟨fun h => h.elim And.left fun h => h.2 ▸ h.1,fun h => ?_⟩
  by_cases hk : k = .done
  · exact .inr ⟨hk ▸ h,hk⟩
  · exact .inl ⟨h,hk⟩

theorem done_andThen (f : Flow) : (only .done).andThen f = f := by
  funext k
  exact propext ⟨fun h => h.elim (fun h => absurd h.1 h.2) And.right,fun h => .inr ⟨rfl,h⟩⟩

theorem andThen_assoc (f g h : Flow) : (f.andThen g).andThen h = f.andThen (g.andThen h) := by
  funext k
  simp only [andThen, ne_eq, not_true_eq_false, and_false, false_or]
  grind

end Flow

/-- A literal is what it says; any other condition may be true or false. -/
def Expr.mayBe : Expr → Bool → Prop
  | .bool _ v, b => v = b
  | _, _ => True

open Covenant.Flow

mutual

def Expr.flow : Expr → Flow
  | .int _ _ | .bool _ _ | .text _ _ | .name _ _ _ | .noneLit _ | .enum _ _ _ _ => only .done
  | .unary _ _ e | .field _ e _ | .wrap _ _ e => e.flow
  | .binary _ .and a b => a.flow.andThen (choice (a.mayBe true) (a.mayBe false) b.flow (only .done))
  | .binary _ .or a b => a.flow.andThen (choice (a.mayBe true) (a.mayBe false) (only .done) b.flow)
  | .binary _ _ a b | .index _ a b => a.flow.andThen b.flow
  | .call _ _ args | .array _ args => Expr.flowIn args
  | .method _ e _ args _ => e.flow.andThen (Expr.flowIn args)
  | .record _ _ fs => FieldInit.flowIn fs
  | .select _ e as => e.flow.andThen (Arm.flowOf as)
  | .block _ ss none _ => Stmt.flowIn ss
  | .block _ ss (some e) _ => (Stmt.flowIn ss).andThen e.flow

def Expr.flowIn : List Expr → Flow
  | [] => only .done
  | e :: es => e.flow.andThen (Expr.flowIn es)

def FieldInit.flowIn : List FieldInit → Flow
  | [] => only .done
  | .mk _ _ e :: fs => e.flow.andThen (FieldInit.flowIn fs)

def Arm.flowOf : List Arm → Flow
  | [] => fun _ => False
  | .mk _ _ e :: as => fun k => e.flow k ∨ Arm.flowOf as k

def Stmt.flow : Stmt → Flow
  | .bind _ _ _ e _ | .expr _ e => e.flow
  | .assign _ t e => t.flow.andThen e.flow
  | .ret _ none => only (.ret false)
  | .ret _ (some e) => e.flow.andThen (only (.ret true))
  | .cond _ c => c.flow
  | .loop _ e b => Rounds e.flow (e.mayBe true) (e.mayBe false) b.flow
  | .each _ _ e b _ => e.flow.andThen (Rounds (only .done) True True b.flow)
  | .leave _ => only .leave
  | .next _ => only .next

def Stmt.flowIn : List Stmt → Flow
  | [] => only .done
  | s :: ss => s.flow.andThen (Stmt.flowIn ss)

def Block.flow : Block → Flow
  | .mk _ ss => Stmt.flowIn ss

def Chain.flow : Chain → Flow
  | .stop => only .done
  | .otherwise b => b.flow
  | .branch _ e b rest => e.flow.andThen (choice (e.mayBe true) (e.mayBe false) b.flow rest.flow)

end

theorem Stmt.flowIn_append (xs ys : List Stmt) :
    Stmt.flowIn (xs ++ ys) = (Stmt.flowIn xs).andThen (Stmt.flowIn ys) := by
  induction xs with
  | nil => exact (done_andThen _).symm
  | cons x xs ih => rw [List.cons_append,Stmt.flowIn,Stmt.flowIn,ih,andThen_assoc]

theorem Stmt.flowIn_singleton (x : Stmt) : Stmt.flowIn [x] = x.flow := andThen_done _

theorem Expr.flow_strict {n : Note} {op : BinaryOp} {a b : Expr} (hand : op ≠ .and) (hor : op ≠ .or) :
    (Expr.binary n op a b).flow = a.flow.andThen b.flow := by
  cases op <;> first | rfl | exact absurd rfl hand | exact absurd rfl hor

end Covenant
