import Covenant.Proofs.Typing.Expression

/-! Accepted statements, and the induction that puts the lemmas about nodes together. -/

namespace Covenant.Check

open Typing

section Statements

variable {strict : Prop} {env : Env} {s u v w : State} {t : Ty} {e : Expr} {pos : Pos}

theorem bind_post {x : String} {d d' : Option Ty} {t' : Ty} (he : ExprPost strict env s (e,t) u) (ht : t ≠ .void)
    (hproper : strict → ∀ t, d = some t → t.isProper = true) (hd : letType env pos x d (e,t) = pure (d',t'))
    (hh : Remarks (reportHiding env .letWord x pos) u v) :
    Post strict env s (fun S l => (Stmt.bind pos x d' e (some v.scope.slots.length)).Every (rule S) l)
      { v with scope := (v.scope.declare x t' .letBound true).2 } := by
  have hgood : Good strict env v.scope := hh.scope ▸ he.1.good
  have hsound (hs : strict) : t'.isSolid = true ∧ t'.compatible t = true :=
    (letType_fits hd).solid (hproper hs) (he.solid ht hs)
  have hhere : Post strict env v (fun S _ => strict → StmtSound S (!v.loops.isEmpty)
      (.bind pos x d' e (some v.scope.slots.length))) { v with scope := (v.scope.declare x t' .letBound true).2 } := by
    refine ⟨hgood.declare x true (by decide) fun hs => (hsound hs).1,⟨rfl,List.prefix_append _ _,rfl⟩,?_⟩
    intro slots hslots hs
    refine ⟨_,t',rfl,getElem?_of_initial hslots ?_,(hsound hs).1,t,he.2.1,ht,(hsound hs).2⟩
    simp [Scope.declare, Scope.allocate]
  exact (he.1.and (hhere.of_same hh.scope hh.loops)).mono fun slots _ h => ⟨h.2,h.1⟩

theorem assign_name_post {n : Note} {x : String} {y : Symbol} (hg : Good strict env s.scope)
    (hx : s.scope.get? x = some y) (hm : y.isMutable = true) (he : ExprPost strict env s (e,t) u) (ht : t ≠ .void)
    (hfit : y.type.compatible t = true) :
    Post strict env s (fun S l => (Stmt.assign pos (.name (n.typed y.type) x (some y)) e).Every (rule S) l) u := by
  obtain ⟨hknown,hsolid⟩ := hg.get? hx
  have hvar : y.IsVariable s.scope.slots := by
    refine hknown.resolve_right fun hconst => ?_
    simp [hconst.2.1] at hm
  refine he.1.mono fun slots hslots h => ⟨fun hs => ?_,h⟩
  exact ⟨y,rfl,hvar.mono (he.1.leads.slots.trans hslots),hsolid hs,rfl,t,he.2.1,ht,hfit⟩

theorem assign_post {f : Expr} {t' : Ty} (hf : ExprPost strict env s (f,t') u) (he : ExprPost strict env u (e,t) v)
    (ht : t ≠ .void) (hname : f.isName = false) (hplace : strict → Build.isPlace f = true)
    (hfit : t'.compatible t = true) : Post strict env s (fun S l => (Stmt.assign pos f e).Every (rule S) l) v :=
  (hf.1.and he.1).mono fun _ _ h => (Stmt.every_assign hname).mpr
    ⟨fun hs => stmtSound_assign hname (hplace hs) hf.2.1 ⟨t,he.2.1,ht,hfit⟩,h⟩

theorem each_post {x : String} {r : Ty} {ss : List Stmt} {bodyPos itemPos : Pos}
    (he : ExprPost strict env s (e,t) u) (ht : t ≠ .void) (hr : elementType t itemPos = pure r)
    (hh : Remarks (reportHiding env .forWord x pos) { u with scope := u.scope.push true } v)
    (hss : Good strict env (v.scope.declare x r .loop false).2 →
      Post strict env { v with scope := (v.scope.declare x r .loop false).2, loops := false :: v.loops }
        (fun S l => Stmt.EveryIn (rule S) l ss) w) :
    Post strict env s
      (fun S l => (Stmt.each pos x e (.mk bodyPos ss) (some v.scope.slots.length)).Every (rule S) l)
      { w with scope := w.scope.pop, loops := w.loops.tail } := by
  have hsolid (hs : strict) : t = .array r ∧ r ≠ .hole ∧ r.isSolid = true := by
    have hsolid : t.isSolid = true := he.solid ht hs
    obtain ⟨rfl,hne⟩ := ((elementType_ends itemPos).of_pure hr).2 (Ty.ne_error_of_isSolid hsolid)
    exact ⟨rfl,hne,hsolid⟩
  have hgood : Good strict env v.scope := hh.scope ▸ he.1.good.push true
  have hdecl : Post strict env v (fun S _ => S.slots[v.scope.slots.length]? = some r)
      { v with scope := (v.scope.declare x r .loop false).2 } := by
    refine ⟨hgood.declare x false (by decide) fun hs => (hsolid hs).2.2,⟨rfl,List.prefix_append _ _,rfl⟩,
      fun slots hslots => getElem?_of_initial hslots ?_⟩
    simp [Scope.declare, Scope.allocate]
  have hbody := (hdecl.and (Post.inLoop (hss hdecl.good))).of_same hh.scope hh.loops
  refine (he.1.and hbody.inFrame).mono fun slots _ h => ⟨fun hs => ?_,h.1,h.2.2⟩
  exact ⟨_,r,rfl,h.2.1,(hsolid hs).1 ▸ he.2.1,(hsolid hs).2.1⟩

end Statements

theorem isPlace_eq (e : Expr) : Build.isPlace e = [3,9,10].contains e.ctorIdx := by
  cases e <;> rfl

variable {strict : Prop} {env : Env}

mutual

theorem ExprAccepted.sound (henv : strict → env.Proper) (h : ExprAccepted env s e r u) (hg : Good strict env s.scope)
    (hw : strict → e.Every written l) : ExprPost strict env s r u := by
  cases h with
  | int hv =>
    exact .leaf hg rfl (fun _ => rfl) (fun _ _ _ => hv) (fun _ => ⟨_,rfl,rfl⟩) fun _ _ h => h
  | bool | text | noneLit => exact .leaf hg rfl (fun _ => rfl) (fun _ _ => trivial) (fun _ => rfl) fun _ _ h => h
  | name hx => exact name_post hg hx
  | unary he ht hr => exact (he.sound henv hg fun hs => (hw hs).2).unary ht hr
  | binary he ht hf ht' hr =>
    have ha := he.sound henv hg fun hs => (hw hs).2.1
    exact ha.binary ht (hf.sound henv ha.1.good fun hs => (hw hs).2.2) ht' hr
  | user hf hes hfit => exact user_post henv (hes.sound henv hg fun hs => (hw hs).2) hf hfit
  | builtin _ _ hes hr => exact builtin_post (hes.sound henv hg fun hs => (hw hs).2) hr
  | host _ _ hh hes hfit =>
    exact host_post (hes.sound henv hg fun hs => (hw hs).2) (List.mem_of_find?_eq_some hh) hfit
  | method he ht hes _ _ hr =>
    have ha := he.sound henv hg fun hs => (hw hs).2.1
    exact ha.method ht (hes.sound henv ha.1.good fun hs => (hw hs).2.2) hr
  | methodLost he hes =>
    have ha := he.sound henv hg fun hs => (hw hs).2.1
    exact ha.methodLost (hes.sound henv ha.1.good fun hs => (hw hs).2.2)
  | array hes hr =>
    obtain ⟨hpost,hargs,hsolid⟩ := hes.sound henv hg fun hs => (hw hs).2
    have hcommon := fun hs => Ty.foldlM_unify_isSolid hr rfl (hsolid hs)
    exact .node hpost rfl (fun hs => .inr (hcommon hs)) (fun _ => trivial) (fun _ _ => ⟨⟨_,rfl⟩,_,hargs⟩)
      fun _ _ => .intro
  | index he ht hi ht' hnum hr =>
    have ha := he.sound henv hg fun hs => (hw hs).2.1
    exact ha.index ht (hi.sound henv ha.1.good fun hs => (hw hs).2.2) ht' hnum hr
  | field he ht hr => exact (he.sound henv hg fun hs => (hw hs).2).field henv ht hr
  | record hd hfs =>
    obtain ⟨hpost,hall⟩ := hfs.sound henv hg fun hs => (hw hs).2
    exact .node hpost rfl (fun _ => .inr rfl) (fun _ => trivial) (fun _ _ => ⟨_,hd,rfl,hall⟩) fun _ _ => .intro
  | wrap he ht hr => exact (he.sound henv hg fun hs => (hw hs).2).wrap ht hr
  | enum hd hi =>
    exact .leaf hg rfl (fun _ => rfl) (fun _ _ => ⟨_,_,hd,hi,rfl⟩) (fun _ => ⟨_,hd,rfl⟩) fun _ _ h => h
  | select he ht hm has =>
    have ha := he.sound henv hg fun hs => (hw hs).2.1
    exact ha.select ht hm (has.sound henv ha.1.good (ha.solid ht) (fun _ => .inr rfl) fun hs => (hw hs).2.2)
  | @unit _ _ _ ends _ _ _ hss =>
    refine .node (hss.sound henv hg fun hs => (hw hs).2) rfl (fun _ => ?_) (fun _ => trivial) (fun _ _ => rfl)
      fun _ _ => .intro
    cases ends
    · exact .inl rfl
    · exact .inr rfl
  | value hss he =>
    have hpost := hss.sound henv hg fun hs => (hw hs).2.1
    have ha := he.sound henv hpost.good fun hs => (hw hs).2.2
    exact .node (hpost.and ha.1) rfl ha.2.2 (fun _ => trivial) (fun _ _ => ha.2.1.symm) fun _ _ => .intro

theorem ValuesAccepted.sound (henv : strict → env.Proper) (h : ValuesAccepted env s es rs u) (hg : Good strict env s.scope)
    (hw : strict → Expr.EveryIn written l es) : ValuesPost strict env s rs u := by
  cases h with
  | nil => exact ⟨.here hg fun _ _ => trivial,⟨rfl,by simp⟩,by simp⟩
  | cons he ht hes =>
    have ha := he.sound henv hg fun hs => (hw hs).1
    obtain ⟨hposts,hargs,hall⟩ := hes.sound henv ha.1.good fun hs => (hw hs).2
    exact ⟨ha.1.and hposts,args_cons hargs ha.2.1 ht,fun hs => List.forall_mem_cons.mpr ⟨ha.solid ht hs,hall hs⟩⟩

theorem InitsAccepted.sound (henv : strict → env.Proper) (h : InitsAccepted env s d seen fs r u) (hg : Good strict env s.scope)
    (hw : strict → FieldInit.EveryIn written l fs) :
    Post strict env s (fun S l => FieldInit.EveryIn (rule S) l r.1) u ∧
      ∀ f ∈ r.1, ∃ fd, d.fields.find? (·.name = f.name) = some fd ∧ Gives f.value fd.type := by
  cases h with
  | nil => exact ⟨.here hg fun _ _ => trivial,by simp⟩
  | cons he ht _ hf hfit hfs =>
    have ha := he.sound henv hg fun hs => (hw hs).1
    obtain ⟨hposts,hall⟩ := hfs.sound henv ha.1.good fun hs => (hw hs).2
    exact ⟨ha.1.and hposts,List.forall_mem_cons.mpr ⟨⟨_,hf,_,ha.2.1,ht,hfit⟩,hall⟩⟩

theorem ArmsAccepted.sound (henv : strict → env.Proper) (h : ArmsAccepted env s t common catchAll covered as r u) (hg : Good strict env s.scope)
    (ht : strict → t.isSolid = true) (hcommon : strict → common = .void ∨ common.isSolid = true)
    (hw : strict → Arm.EveryIn written l as) : ArmsPost strict env s t common r.1 r.2.1 u := by
  cases h with
  | nil => exact ⟨.here hg fun _ _ => ⟨trivial,by simp⟩,fun hs => ⟨.refl _,hcommon hs,by simp⟩⟩
  | cons hwarn hp he hunify has =>
    have hpattern := hp.sound (hwarn.scope ▸ hg.push true) ht
    have ha := he.sound henv hpattern.good fun hs => (hw hs).1
    have hrest := has.sound henv (hpattern.and ha.1).inFrame.good ht
      (fun hs => Ty.unify_void hunify (hcommon hs) (ha.2.2 hs)) fun hs => (hw hs).2
    obtain ⟨hposts,hall⟩ := ArmsPost.cons hpattern ha hcommon hunify hrest
    exact ⟨hposts.of_same hwarn.scope hwarn.loops,hall⟩

theorem StmtAccepted.sound (henv : strict → env.Proper) (h : StmtAccepted env s x r u) (hg : Good strict env s.scope)
    (hw : strict → x.Every written l) :
    Post strict env s (fun S l => r.1.Every (rule S) l) u := by
  cases h with
  | bind he ht hd hh =>
    refine bind_post (he.sound henv hg fun hs => (hw hs).2) ht (fun hs t ht => ?_) hd hh
    subst ht
    exact (hw hs).1
  | assignName hx hm he ht hfit => exact assign_name_post hg hx hm (he.sound henv hg fun hs => (hw hs).2) ht hfit
  | assign hname hf he ht hfit =>
    have hw' := fun hs => (Stmt.every_assign hname).mp (hw hs)
    have ha := hf.sound henv hg fun hs => (hw' hs).2.1
    refine assign_post ha (he.sound henv ha.1.good fun hs => (hw' hs).2.2) ht (hf.isName_eq.trans hname) (fun hs => ?_) hfit
    rw [isPlace_eq,hf.ctorIdx_eq,← isPlace_eq]
    exact (hw' hs).1
  | retUnit hf hr =>
    refine .here hg fun _ _ _ => ?_
    simp [StmtSound, Site.result, hf, hr]
  | retValue hf he ht hr hfit =>
    have ha := he.sound henv hg fun hs => (hw hs).2
    refine ha.1.mono fun slots _ h => ⟨fun _ => ⟨_,?_,_,ha.2.1,ht,hfit⟩,h⟩
    simp [Site.result, hf, hr]
  | expr he => exact (he.sound henv hg fun hs => (hw hs).2).1.mono fun _ _ h => ⟨fun _ => trivial,h⟩
  | cond hc => exact (hc.sound henv hg fun hs => (hw hs).2).mono fun _ _ h => ⟨fun _ => trivial,h⟩
  | loop he ht hfit hb =>
    have ha := he.sound henv hg fun hs => (hw hs).2.1
    have hbody := (hb.sound henv ha.1.good fun hs => (hw hs).2.2).inLoop
    exact (ha.1.and hbody).mono fun _ _ h => ⟨fun _ => ⟨_,ha.2.1,ht,hfit⟩,h⟩
  | each he ht hr hh hss =>
    exact each_post (he.sound henv hg fun hs => (hw hs).2.1) ht hr hh fun hg => hss.sound henv hg fun hs => (hw hs).2.2
  | leave hl =>
    refine ⟨hg,⟨rfl,List.prefix_rfl,(congrArg List.length hl).symm⟩,fun _ _ _ => ?_⟩
    simp [StmtSound, hl]
  | next hl => exact .here hg fun _ _ _ => by simp [StmtSound, hl]

theorem StmtsAccepted.sound (henv : strict → env.Proper) (h : StmtsAccepted env s ended warned xs r u) (hg : Good strict env s.scope)
    (hw : strict → Stmt.EveryIn written l xs) :
    Post strict env s (fun S l => Stmt.EveryIn (rule S) l r.1) u := by
  cases h with
  | nil => exact .here hg fun _ _ => trivial
  | cons hwarn hx hxs =>
    have hfirst := hx.sound henv (hwarn.scope ▸ hg) fun hs => (hw hs).1
    exact (hfirst.and (hxs.sound henv hfirst.good fun hs => (hw hs).2)).of_same hwarn.scope hwarn.loops

theorem BlockAccepted.sound (henv : strict → env.Proper) (h : BlockAccepted env s b r u) (hg : Good strict env s.scope)
    (hw : strict → b.Every written l) :
    Post strict env s (fun S l => r.1.Every (rule S) l) u := by
  cases h with
  | mk hss => exact (hss.sound henv (hg.push true) hw).inFrame

theorem ChainAccepted.sound (henv : strict → env.Proper) (h : ChainAccepted env s c r u) (hg : Good strict env s.scope)
    (hw : strict → c.Every written l) :
    Post strict env s (fun S l => r.1.Every (rule S) l) u := by
  cases h with
  | stop => exact .here hg fun _ _ => trivial
  | otherwise hb => exact hb.sound henv hg hw
  | branch he ht hfit hb hrest =>
    have ha := he.sound henv hg fun hs => (hw hs).2.1
    have hbody := hb.sound henv ha.1.good fun hs => (hw hs).2.2.1
    have hrest := hrest.sound henv hbody.good fun hs => (hw hs).2.2.2
    exact (ha.1.and (hbody.and hrest)).mono fun _ _ h => ⟨fun _ => ⟨_,ha.2.1,ht,hfit⟩,h⟩

end

end Covenant.Check
