import Covenant.Check.Program
import Covenant.Proofs.Typing.Accepts

/-! Constants and functions that pass their checks, as rules, and lists of them. -/

namespace Covenant.Check

variable {env : Env} {s u : State}

/-- A constant whose initializer is checked where no variable is in scope. -/
inductive ConstantAccepted (env : Env) (s : State) (c : ConstDecl) : ConstDecl → State → Prop
  | mk {d t : Ty} {a : Expr} {u : State} (hnew : s.scope.findGlobal? c.name = none)
    (hd : env.resolve c.type = .ok d)
    (hrun : (expr env c.value).run { s with scope := s.scope.beginFunction.push false } = ((a,t),u))
    (he : ExprAccepted env { s with scope := s.scope.beginFunction.push false } c.value (a,t) u)
    (ht : t ≠ .void) (hfit : d.compatible t = true)
    (hv : (a.constant? (constantValue? u)).isSome = true ∨ t = .error) :
    ConstantAccepted env s c { c with type := d, value := a } { u with
      scope := u.scope.pop.registerGlobal ⟨c.name,d,false,.constant,none,a.constant? (constantValue? u)⟩ }

def withParams (c : Scope) (ps : List Param) : Scope :=
  ps.foldl (fun c p => (c.declare p.name p.type .param true).2) c

inductive FunctionAccepted (env : Env) (s : State) (f : FunctionDecl) : FunctionDecl → State → Prop
  | mk {ss : List Stmt} {ends : Bool} {u : State}
    (hss : StmtsAccepted { env with current := some ⟨f.name,f.result⟩ }
      { s with scope := withParams (s.scope.beginFunction.push false) f.params } false false f.body.statements
      (ss,ends) u)
    (hends : f.result.isSome = true → ends = true) :
    FunctionAccepted env s f { f with body := .mk f.body.pos ss, slots := u.scope.slots }
      { u with scope := u.scope.pop }

theorem constant_accepts (c : ConstDecl) : Ends s (constant env c) (ConstantAccepted env s c) := by
  refine .bind (Q := fun a u => a = s ∧ u = s) (fun hc => ⟨hc,rfl,rfl⟩) fun a u hu => ?_
  split
  · exact reportIf_true_ends _ _ _
  rename_i hnew
  refine .bind (resolveType_ends env _ _) fun d v hv => ?_
  refine .bind (Q := fun _ w => w = { v with scope := v.scope.beginFunction }) (fun hc => ⟨hc,rfl⟩) fun _ w hw => ?_
  have hvalue : Ends { w with scope := w.scope.push false } (expr env c.value) fun r u =>
      (expr env c.value).run { w with scope := w.scope.push false } = (r,u) ∧
        ExprAccepted env { w with scope := w.scope.push false } c.value r u :=
    fun hc => ⟨(expr_accepts env c.value _ hc).1,rfl,(expr_accepts env c.value _ hc).2⟩
  refine .bind (inFrame_ends (needValue_ends _ hvalue)) fun ⟨e,t⟩ x hx => .bind (reportIf_ends _ _ _) fun _ y hy => ?_
  refine .bind (Q := fun a u => a = y ∧ u = y) (fun hc => ⟨hc,rfl,rfl⟩) fun b y' hy' => ?_
  refine .bind (reportIf_ends _ _ _) fun _ z hz => ?_
  refine .bind (Q := fun _ u => u = { z with
      scope := z.scope.registerGlobal ⟨c.name,d,false,.constant,none,e.constant? (constantValue? b)⟩ })
    (fun hc => ⟨hc,rfl⟩) fun _ z' hz' => .pure fun hc => ?_
  obtain ⟨hc,rfl⟩ := hz' hc
  obtain ⟨hc,rfl,hnone⟩ := hz hc
  obtain ⟨hc,rfl,rfl⟩ := hy' hc
  obtain ⟨hc,rfl,hfit⟩ := hy hc
  obtain ⟨hcw,r,⟨⟨hrun,haccepted⟩,hvoid⟩,rfl⟩ := hx hc
  obtain ⟨hcv,rfl⟩ := hw hcw
  obtain ⟨hcu,rfl,hd⟩ := hv hcv
  obtain ⟨-,rfl,rfl⟩ := hu hcu
  have hsome : (e.constant? (constantValue? r)).isSome = true ∨ t = .error := by
    have hnone : ((e.constant? (constantValue? r)).isNone && decide (t ≠ .error)) = false := hnone
    cases hv : e.constant? (constantValue? r) with
    | none => exact .inr (by simpa [hv] using hnone)
    | some v => exact .inl rfl
  exact .mk (by simpa using hnew) hd hrun haccepted hvoid (by simpa using hfit) hsome

theorem declareParams_accepts (x : String) (ps : List Param) :
    Ends s (declareParams x ps) fun _ u => u = { s with scope := withParams s.scope ps } := by
  induction ps generalizing s with
  | nil => exact .pure fun _ => rfl
  | cons p ps ih =>
    refine .bind (Q := fun a u => a = s ∧ u = s) (fun hc => ⟨hc,rfl,rfl⟩) fun a t ht => ?_
    refine .bind (reportIf_ends _ _ _) fun _ u hu => .bind (declare_ends _ _ _ _) fun _ v hv => ?_
    refine Ends.weaken ih fun _ w hc hw => ?_
    obtain ⟨hc,-,rfl⟩ := hv hc
    obtain ⟨hc,rfl,-⟩ := hu hc
    obtain ⟨-,-,rfl⟩ := ht hc
    exact hw

theorem function_accepts (f : FunctionDecl) : Ends s (function env f) (FunctionAccepted env s f) := by
  refine .bind (Q := fun _ u => u = { s with scope := s.scope.beginFunction }) (fun hc => ⟨hc,rfl⟩) fun _ t ht => ?_
  refine .bind (Q := fun _ u => u = { t with scope := t.scope.push false }) (fun hc => ⟨hc,rfl⟩) fun _ u hu => ?_
  refine .bind (declareParams_accepts f.name f.params) fun _ v hv => ?_
  refine .bind (stmts_accept _ f.body.statements v false false) fun ⟨ss,ends⟩ w hw => ?_
  have hend (x : State) (hx : x.Clean → w.Clean ∧ x = w ∧ (f.result.isSome = true → ends = true)) :
      Ends x (functionEnd f ss) (FunctionAccepted env s f) := by
    intro hc
    obtain ⟨hcw,rfl,hends⟩ := hx hc
    obtain ⟨hcv,hbody⟩ := hw hcw
    obtain ⟨hcu,rfl⟩ := hv hcv
    obtain ⟨hct,rfl⟩ := hu hcu
    obtain ⟨-,rfl⟩ := ht hct
    exact ⟨hc,.mk hbody hends⟩
  dsimp only
  split
  · refine .bind (reportIf_ends _ _ _) fun _ x hx => hend x fun hc => ?_
    obtain ⟨hc,rfl,hbad⟩ := hx hc
    exact ⟨hc,rfl,fun _ => by simpa using hbad⟩
  · rename_i hnone
    exact hend w fun hc => ⟨hc,rfl,fun h => by simp [hnone] at h⟩

section Lists

variable {α β : Type} {R : State → α → β → State → Prop}

inductive Each (R : State → α → β → State → Prop) : State → List α → List β → State → Prop
  | nil {s : State} : Each R s [] [] s
  | cons {s t u : State} {a : α} {as : List α} {b : β} {bs : List β} (h : R s a b t) (hs : Each R t as bs u) :
    Each R s (a :: as) (b :: bs) u

theorem mapM_accepts {f : α → Checking β} (hf : ∀ a s, Ends s (f a) (R s a)) (as : List α) :
    Ends s (as.mapM f) (Each R s as) := by
  induction as generalizing s with
  | nil => exact .pure fun _ => .nil
  | cons a as ih =>
    rw [List.mapM_cons]
    refine .bind (hf a s) fun b t ht => .bind ih fun bs u hu => .pure fun hc => ?_
    obtain ⟨hc,hrest⟩ := hu hc
    exact .cons (ht hc).2 hrest

theorem Ends.mapM {f : α → Checking β} {I : State → Prop} {Q : β → Prop}
    (hf : ∀ a s, (s.Clean → I s) → Ends s (f a) fun b u => I u ∧ Q b) {as : List α} (hs : s.Clean → I s) :
    Ends s (as.mapM f) fun bs _ => ∀ b ∈ bs, Q b := by
  induction as generalizing s with
  | nil => exact .pure fun _ => nofun
  | cons a as ih =>
    rw [List.mapM_cons]
    refine .bind (hf a s hs) fun b t ht => .bind (ih fun hc => (ht hc).2.1) fun bs u hu => .pure fun hc => ?_
    obtain ⟨hc,hrest⟩ := hu hc
    exact List.forall_mem_cons.mpr ⟨(ht hc).2.2,hrest⟩

theorem Each.keeps {I : State → Prop} {Q : α → β → Prop} {as : List α} {bs : List β} (h : Each R s as bs u)
    (hstep : ∀ a ∈ as, ∀ {b s u}, R s a b u → I s → I u ∧ Q a b) (hs : I s) : I u ∧ List.Forall₂ Q as bs := by
  induction h with
  | nil => exact ⟨hs,.nil⟩
  | cons h _ ih =>
    obtain ⟨hnext,hfirst⟩ := hstep _ (.head _) h hs
    obtain ⟨hend,hrest⟩ := ih (fun a ha => hstep a (.tail _ ha)) hnext
    exact ⟨hend,.cons hfirst hrest⟩

theorem map_eq_of_forall₂ {γ : Type} {f : α → γ} {g : β → γ} {as : List α} {bs : List β}
    (h : List.Forall₂ (fun a b => g b = f a) as bs) : bs.map g = as.map f := by
  induction h with
  | nil => rfl
  | cons h _ ih => rw [List.map_cons,List.map_cons,h,ih]

theorem exists_of_forall₂ {Q : α → β → Prop} {as : List α} {bs : List β} (h : List.Forall₂ Q as bs) :
    ∀ b ∈ bs, ∃ a ∈ as, Q a b := by
  induction h with
  | nil => exact nofun
  | cons h _ ih =>
    refine List.forall_mem_cons.mpr ⟨⟨_,.head _,h⟩,fun b hb => ?_⟩
    obtain ⟨a,ha,hab⟩ := ih b hb
    exact ⟨a,.tail _ ha,hab⟩

end Lists

end Covenant.Check
