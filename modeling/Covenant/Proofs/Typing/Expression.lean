import Covenant.Proofs.Typing.Accepts

/-! Accepted expressions: the annotated tree obeys the typing rules. There is one lemma for each kind of
node. -/

namespace Covenant.Check

open Typing

variable {strict : Prop} {env : Env} {s u v w : State} {n : Note} {t r : Ty} {e : Expr} {rs : List Typed}

theorem ExprPost.node {P : Site → Bool → Prop} (hparts : Post strict env s P u)
    (htype : e.type = some t) (hsolid : strict → t = .void ∨ t.isSolid = true) (hplain : ∀ S, Plain S e)
    (hsound : strict → ∀ slots, Sound ⟨env,slots,strict⟩ e)
    (hevery : ∀ S l, (rule S).expr e → P S l → e.Every (rule S) l) : ExprPost strict env s (e,t) u :=
  ⟨hparts.mono fun slots _ h =>
    hevery _ _ ⟨hplain _,fun hs => ⟨⟨t,htype,hsolid hs⟩,hsound hs slots⟩⟩ h,htype,hsolid⟩

theorem ExprPost.leaf (hg : Good strict env s.scope) (htype : e.type = some t)
    (ht : strict → t.isSolid = true) (hplain : ∀ slots, s.scope.slots <+: slots → Plain ⟨env,slots,strict⟩ e)
    (hsound : ∀ slots, Sound ⟨env,slots,strict⟩ e)
    (hevery : ∀ S l, (rule S).expr e → e.Every (rule S) l) : ExprPost strict env s (e,t) s :=
  ⟨.here hg fun slots hs => hevery _ _ ⟨hplain slots hs,fun h => ⟨⟨t,htype,.inr (ht h)⟩,hsound slots⟩⟩,htype,
    fun h => .inr (ht h)⟩

theorem name_post {x : String} {y : Symbol} (hg : Good strict env s.scope) (hx : s.scope.get? x = some y) :
    ExprPost strict env s (.name (n.typed y.type) x (some y),y.type) s := by
  obtain ⟨hknown,hsolid⟩ := hg.get? hx
  refine .leaf hg rfl hsolid (fun slots hs => ⟨y,rfl,rfl,?_⟩) (fun _ => trivial) fun _ _ h => h
  exact hknown.imp_left fun hv => hv.mono hs

theorem ExprPost.unary {op : UnaryOp} (he : ExprPost strict env s (e,t) u) (ht : t ≠ .void)
    (hr : op.type? t = some r) : ExprPost strict env s (.unary (n.typed r) op e,r) u :=
  .node he.1 rfl (fun hs => .inr (op.type?_isSolid hr (he.solid ht hs))) (fun _ => trivial)
    (fun _ _ => ⟨t,r,he.2.1,hr,rfl⟩) fun _ _ => .intro

theorem ExprPost.binary {a b : Expr} {t' : Ty} {op : BinaryOp} (ha : ExprPost strict env s (a,t) u)
    (ht : t ≠ .void) (hb : ExprPost strict env u (b,t') v) (ht' : t' ≠ .void) (hr : op.type? t t' = some r) :
    ExprPost strict env s (.binary (n.typed r) op a b,r) v :=
  .node (ha.1.and hb.1) rfl (fun hs => .inr (op.type?_isSolid hr (ha.solid ht hs) (hb.solid ht' hs)))
    (fun _ => trivial) (fun _ _ => ⟨t,t',r,ha.2.1,hb.2.1,hr,rfl⟩) fun _ _ => .intro

theorem user_post {f : String} {sig : Signature} (henv : strict → env.Proper)
    (hes : ValuesPost strict env s rs u) (hf : env.function? f = some sig)
    (hfit : List.Forall₂ (fun t v => t.compatible v = true) sig.params (rs.map (·.2))) : ExprPost strict env s
      (.call (n.typed (sig.result.getD .void)) (.user f) (rs.map (·.1)),sig.result.getD .void) u := by
  refine .node hes.1 rfl (fun hs => ?_) (fun _ => trivial) (fun _ _ => ⟨_,hes.2.1,sig,hf,hfit,rfl⟩)
    fun _ _ => .intro
  cases hr : sig.result with
  | none => exact .inl rfl
  | some t => exact .inr (Ty.isSolid_of_isProper ((henv hs).results sig (List.mem_of_find?_eq_some hf) t hr))

theorem builtin_post {b : Builtin} (hes : ValuesPost strict env s rs u)
    (hr : b.result (rs.map (·.2)) = .ok r) :
    ExprPost strict env s (.call (n.typed r) (.builtin b) (rs.map (·.1)),r) u :=
  .node hes.1 rfl (fun hs => .inr (Builtin.result_isSolid hr (hes.2.2 hs))) (fun _ => trivial)
    (fun _ _ => ⟨_,hes.2.1,r,hr,rfl⟩) fun _ _ => .intro

theorem host_post {h : HostFunction} (hes : ValuesPost strict env s rs u) (hh : h ∈ HostFunction.all)
    (hfit : List.Forall₂ (fun t v => t.compatible v = true) h.params (rs.map (·.2))) : ExprPost strict env s
      (.call (n.typed (h.result.getD .void)) (.host h) (rs.map (·.1)),h.result.getD .void) u :=
  .node hes.1 rfl (fun _ => HostFunction.result_isSolid h hh) (fun _ => trivial)
    (fun _ _ => ⟨_,hes.2.1,hh,hfit,rfl⟩) fun _ _ => .intro

theorem ExprPost.method {m : String} {op : Builtin}
    (he : ExprPost strict env s (e,t) u) (ht : t ≠ .void) (hes : ValuesPost strict env u rs v)
    (hr : op.result (t :: rs.map (·.2)) = .ok r) :
    ExprPost strict env s (.method (n.typed r) e m (rs.map (·.1)) (some op),r) v := by
  refine .node (he.1.and hes.1) rfl (fun hs => .inr (Builtin.result_isSolid hr ?_)) (fun _ => trivial)
    (fun _ _ => ⟨op,_,r,rfl,args_cons hes.2.1 he.2.1 ht,hr,rfl⟩) fun _ _ => .intro
  exact List.forall_mem_cons.mpr ⟨he.solid ht hs,hes.2.2 hs⟩

theorem ExprPost.methodLost {m : String} {old : Option Builtin}
    (he : ExprPost strict env s (e,.error) u) (hes : ValuesPost strict env u rs v) :
    ExprPost strict env s (.method (n.typed .error) e m (rs.map (·.1)) old,.error) v := by
  have hlax (hs : strict) : False := Ty.ne_error_of_isSolid (he.solid nofun hs) rfl
  exact .node (he.1.and hes.1) rfl (fun hs => (hlax hs).elim) (fun _ => trivial) (fun hs => (hlax hs).elim)
    fun _ _ => .intro

theorem ExprPost.index {a i : Expr} {t' : Ty} (ha : ExprPost strict env s (a,t) u) (ht : t ≠ .void)
    (hi : ExprPost strict env u (i,t') v) (ht' : t' ≠ .void) (hnum : t'.isNumeric = true ∨ t' = .error)
    (hr : t = .array r ∨ t = .error ∧ r = .error) : ExprPost strict env s (.index (n.typed r) a i,r) v := by
  have harray (hs : strict) : t = .array r :=
    hr.resolve_right fun h => Ty.ne_error_of_isSolid (ha.solid ht hs) h.1
  refine .node (ha.1.and hi.1) rfl (fun hs => .inr ?_) (fun _ => trivial)
    (fun hs _ => ⟨r,t',harray hs ▸ ha.2.1,hi.2.1,?_,rfl⟩) fun _ _ => .intro
  · have hsolid : t.isSolid = true := ha.solid ht hs
    rw [harray hs] at hsolid
    exact hsolid
  · exact hnum.resolve_right (Ty.ne_error_of_isSolid (hi.solid ht' hs))

theorem ExprPost.field {f : String} {pos : Pos} (henv : strict → env.Proper)
    (he : ExprPost strict env s (e,t) u) (ht : t ≠ .void) (hr : fieldType env t f pos = pure r) :
    ExprPost strict env s (.field (n.typed r) e f,r) u := by
  have hfield (hs : strict) : ∃ x d fd, t = .record x ∧ env.record? x = some d ∧
      d.fields.find? (·.name = f) = some fd ∧ r = fd.type :=
    ((fieldType_ends f pos).of_pure hr).2 (Ty.ne_error_of_isSolid (he.solid ht hs))
  refine .node he.1 rfl (fun hs => .inr ?_) (fun _ => trivial) (fun hs _ => ?_) fun _ _ => .intro
  · obtain ⟨x,d,fd,-,hd,hfd,rfl⟩ := hfield hs
    exact Ty.isSolid_of_isProper ((henv hs).fields d (List.mem_of_find?_eq_some hd) fd
      (List.mem_of_find?_eq_some hfd))
  · obtain ⟨x,d,fd,rfl,hd,hfd,rfl⟩ := hfield hs
    exact ⟨x,d,fd,he.2.1,hd,hfd,rfl⟩

theorem ExprPost.wrap {k : Wrapper} {pos : Pos} (he : ExprPost strict env s (e,t) u) (ht : t ≠ .void)
    (hr : Check.wrapType k t pos = pure r) : ExprPost strict env s (.wrap (n.typed r) k e,r) u := by
  obtain ⟨-,rfl⟩ := (wrapType_ends k t pos).of_pure hr
  refine .node he.1 rfl (fun hs => .inr ?_) (fun _ => trivial) (fun _ _ => ⟨t,he.2.1,ht,rfl⟩)
    fun _ _ => .intro
  cases k with
  | some | ok => exact he.solid ht hs
  | err => rfl

theorem PatternAccepted.sound {p q : Pattern} (h : PatternAccepted env t s p q u) (hg : Good strict env s.scope)
    (ht : strict → t.isSolid = true) :
    Post strict env s (fun S _ => strict → PatternSound S t q.form) u := by
  have hfits {fits : Bool} (hp : patternProblems env p t = pure fits) (h : fits = true ∨ t = .error)
      (hs : strict) : PatternFits env t p.form :=
    ((patternProblems_ends p t).of_pure hp).2 (h.resolve_right (Ty.ne_error_of_isSolid (ht hs)))
  cases h with
  | plain hp h hb => exact .here hg fun _ _ hs => ⟨hfits hp h hs,by simp [hb]⟩
  | @binds _ b hp h hb =>
    refine ⟨hg.declare _ _ (by decide) fun hs => patternFits_isSolid (hfits hp h hs) hb (ht hs),
      ⟨rfl,List.prefix_append _ _,rfl⟩,fun slots hslots hs => ⟨setBinder_fits (hfits hp h hs) _,?_⟩⟩
    intro b' hb'
    obtain rfl := Option.some.inj ((binder?_setBinder hb _).symm.trans hb')
    refine ⟨s.scope.slots.length,rfl,?_⟩
    rw [patternFits_setBinder]
    exact getElem?_of_initial hslots (by simp [Scope.declare, Scope.allocate])

def ArmsPost (strict : Prop) (env : Env) (s : State) (t common : Ty) (as : List Arm) (r : Ty) (u : State) : Prop :=
  Post strict env s (fun S l => Arm.EveryIn (rule S) l as ∧
      (strict → ∀ a ∈ as, PatternSound S t a.pattern.form)) u ∧
    (strict → common.Agrees r ∧ (r = .void ∨ r.isSolid = true) ∧
      ∀ a ∈ as, ∃ v, a.body.type = some v ∧ v.Agrees r)

theorem ExprPost.select {as : List Arm} (he : ExprPost strict env s (e,t) u) (ht : t ≠ .void)
    (hm : t = .error ∨ isMatchable t = true) (has : ArmsPost strict env u t .hole as r v) :
    ExprPost strict env s (.select (n.typed r) e as,r) v := by
  obtain ⟨hposts,hall⟩ := has
  refine ⟨(he.1.and hposts).mono fun slots _ h => ⟨⟨trivial,fun hs => ?_⟩,h.1,h.2.1⟩,rfl,
    fun hs => (hall hs).2.1⟩
  have hm := hm.resolve_left (Ty.ne_error_of_isSolid (he.solid ht hs))
  exact ⟨⟨r,rfl,(hall hs).2.1⟩,t,r,he.2.1,hm,rfl,fun a ha => ⟨h.2.2 hs a ha,(hall hs).2.2 a ha⟩⟩

theorem ArmsPost.cons {p : Pattern} {as : List Arm} {common common' t' : Ty} {pos : Pos}
    (hp : Post strict env { s with scope := s.scope.push true } (fun S _ => strict → PatternSound S t p.form) u)
    (he : ExprPost strict env u (e,t') v) (hcommon : strict → common = .void ∨ common.isSolid = true)
    (hunify : common.unify t' = some common')
    (has : ArmsPost strict env { v with scope := v.scope.pop } t common' as r w) :
    ArmsPost strict env s t common (.mk pos p e :: as) r w := by
  obtain ⟨hposts,hall⟩ := has
  refine ⟨((hp.and he.1).inFrame.and hposts).mono fun slots _ h => ?_,fun hs => ?_⟩
  · exact ⟨⟨h.1.2,h.2.1⟩,fun hs => List.forall_mem_cons.mpr ⟨h.1.1 hs,h.2.2 hs⟩⟩
  · obtain ⟨hagree,hr,hall⟩ := hall hs
    have herr : ∀ t : Ty, t = .void ∨ t.isSolid = true → t ≠ .error := by
      rintro t (rfl | h)
      · simp
      · exact Ty.ne_error_of_isSolid h
    obtain ⟨hold,hnew⟩ := Ty.unify_agrees hunify (herr _ (hcommon hs)) (herr _ (he.2.2 hs))
    exact ⟨hold.trans hagree,hr,List.forall_mem_cons.mpr ⟨⟨t',he.2.1,hnew.trans hagree⟩,hall⟩⟩

end Covenant.Check
