import Covenant.Proofs.Optimizer.Normal
import Covenant.Proofs.Typing.Declarations

/-! Optimising keeps annotations. Every expression keeps its type, and what is left of a function are nodes that
it had, as far as their own annotations and the types of their parts go, and literals. -/

namespace Covenant

open Optimize Typing

def Rule.shapes (R : Rule) : Rule where
  expr e := R.expr (e.shape id)
  stmt l s := R.stmt l (s.shape id)
  guard e := R.guard (e.stub id)

def Rule.orLiteral (R : Rule) : Rule where
  expr e := e.literal?.isSome = true ∨ R.expr e
  stmt := R.stmt
  guard := R.guard

def Optimize.keepsType (r : Prover) : Rule where
  expr e := (expr r e).value.type = e.type
  stmt _ _ := True
  guard _ := True

theorem Optimize.keepsType_entails {S : Site} (hs : S.strict) (r : Prover) : (rule S).Entails (keepsType r) where
  expr {e l} he := (expr_kept r e l he).2 hs
  stmt _ := trivial
  guard _ _ := trivial

theorem Expr.stub_stub (e : Expr) : (e.stub id).stub id = e.stub id := rfl

theorem FieldInit.stub_stub (f : FieldInit) : (f.stub id).stub id = f.stub id := rfl

theorem Arm.stub_stub (a : Arm) : (a.stub id).stub id = a.stub id := rfl

theorem Expr.shape_shape (e : Expr) : (e.shape id).shape id = e.shape id := by
  cases e with
  | block n ss tail d => cases tail <;> rfl
  | _ => simp [Expr.shape, Expr.stub_stub, FieldInit.stub_stub, Arm.stub_stub]

theorem Stmt.shape_shape (s : Stmt) : (s.shape id).shape id = s.shape id := by
  cases s with
  | assign p t e => exact congrArg (Stmt.assign p · _) t.shape_shape
  | ret p e => cases e <;> rfl
  | _ => rfl

theorem Rule.shapes_ofShapes (R : Rule) : R.shapes.orLiteral.OfShapes id where
  expr e := by
    have hliteral : (e.shape id).literal? = e.literal? := by cases e <;> rfl
    show (_ ∨ R.expr ((e.shape id).shape id)) ↔ _
    rw [e.shape_shape,hliteral]
    rfl
  stmt l s := by
    show R.stmt l ((s.shape id).shape id) ↔ _
    rw [s.shape_shape]
    rfl
  guard _ := Iff.rfl

theorem Rule.join_orLiteral (R : Rule) : R.Join R R.orLiteral :=
  ⟨fun _ h _ => .inr h,fun _ _ h _ => h,fun _ h _ => h⟩

/-- Optimising an accepted program keeps the type of every expression, in functions and in the initializers of
constants. A function keeps all but its body. Whatever is true of the shapes of the nodes of a body before is true
of those afterwards, literals apart: the nodes that are left have the types, symbols, tags and slots that they had,
parts of the same types, and patterns that bind the same slots. That is all by which lowering chooses between
instructions. -/
theorem Program.optimize_keeps_annotations (r : Prover) (policy : Policy) (p : Program) (hwritten : p.Written)
    (haccepted : (p.check policy).accepted = true) :
    (∀ c ∈ (p.check policy).program.constants, c.value.Every (keepsType r) false) ∧
    List.Forall₂ (fun f g => g = { f with body := g.body } ∧ f.body.Every (keepsType r) false ∧
        ∀ R : Rule, f.body.Every R.shapes false → g.body.Every R.shapes.orLiteral false)
      (p.check policy).program.functions ((p.check policy).program.optimizeWith r).value.functions := by
  have htyped := (Program.check_typed haccepted).1
  obtain ⟨-,hconstants,-⟩ := Program.check_ensured (formed_isProper.mpr hwritten) (fun _ h => h) haccepted
  refine ⟨fun c hc => ?_,?_⟩
  · exact (keepsType_entails trivial r).implies.walk.onExpr _ (hconstants c hc).2.1 (hconstants c hc).2.1
  · rw [functions_optimizeWith,List.forall₂_map_right_iff]
    refine List.forall₂_same.mpr fun f hf => ?_
    have hbody := (htyped.functions f hf).body
    refine ⟨rfl,hbody.entail (keepsType_entails hwritten r),fun R hR => ?_⟩
    exact block_keeps hwritten R.shapes_ofShapes (fun x _ _ => .inl (by cases x <;> rfl)) r hbody
      (hR.join R.shapes.join_orLiteral hR)

theorem optimize_keeps_annotations_nested : (nested.check .warn).accepted = true ∧
    ∃ f g, (nested.check .warn).program.functions = [f] ∧
      ((nested.check .warn).program.optimizeWith idle).value.functions = [g] ∧ f.slots = [.integer] ∧
      g.slots = [.integer] ∧ f.body.Every (keepsType idle) false := by
  have haccepted : (nested.check .warn).accepted = true := by decide
  have hslots : (nested.check .warn).program.functions.map (·.slots) = [[.integer]] := by decide
  obtain ⟨f,hf,hinteger⟩ := List.map_eq_singleton_iff.mp hslots
  have hkept := (Program.optimize_keeps_annotations idle .warn nested nested_written haccepted).2
  rw [hf] at hkept
  obtain ⟨g,gs,⟨hg,htypes,-⟩,hnil,hgs⟩ := List.forall₂_cons_left_iff.mp hkept
  cases hnil
  exact ⟨haccepted,f,g,hf,hgs,hinteger,by rw [hg,hinteger],htypes⟩

end Covenant
