import Covenant.Proofs.Scoping.Resolver
import Covenant.Proofs.Typing.Accepts

/-! The checker resolves names as the resolver does. Its frames, one after the other, are what can be seen,
and the slots it has given out are the declarations so far. -/

namespace Covenant.Check

open Scoping (Names)

/-- The frames of a scope and the names of a resolver at the same place. -/
structure Agrees (c : Scope) (n : Names) : Prop where
  visible : n.visible = c.frames.flatMap (·.symbols) ++ c.globals
  types : n.declared.map (·.type) = c.slots
  slots : n.declared.map (·.slot) = (List.range n.declared.length).map some
  opened : c.frames ≠ []

/-- From one place of a block to a later one. The blocks around it stay as they are. -/
structure Moves (a : Scope) (n : Names) (b : Scope) (m : Names) : Prop where
  agrees : Agrees b m
  frames : b.frames.tail = a.frames.tail
  globals : b.globals = a.globals
  declared : n.declared <+: m.declared

section Frames

variable {a b c : Scope} {n m o : Names}

theorem Agrees.get? (h : Agrees c n) (x : String) : c.get? x = n.find? x := by
  rw [Names.find?,h.visible,List.find?_append,List.find?_flatMap]
  simp only [Scope.get?, Option.orElse_eq_orElse, Option.orElse_eq_or]
  rfl

theorem Agrees.length (h : Agrees c n) : n.declared.length = c.slots.length := by
  rw [← h.types,List.length_map]

theorem Agrees.push (h : Agrees c n) (nested : Bool) : Agrees (c.push nested) n :=
  ⟨h.visible,h.types,h.slots,List.cons_ne_nil _ _⟩

theorem Moves.here (h : Agrees c n) : Moves c n c n := ⟨h,rfl,rfl,List.prefix_rfl⟩

theorem Moves.trans (h : Moves a n b m) (h' : Moves b m c o) : Moves a n c o :=
  ⟨h'.agrees,h'.frames.trans h.frames,h'.globals.trans h.globals,h.declared.trans h'.declared⟩

theorem Moves.declare (h : Agrees c n) (x : String) (t : Ty) (k : SymbolKind) (isMutable : Bool) :
    Moves c n (c.declare x t k isMutable).2 (n.declare x t k isMutable) := by
  have hnext : n.next = some c.slots.length := congrArg some h.length
  cases hfs : c.frames with
  | nil => exact absurd hfs h.opened
  | cons f fs =>
    refine ⟨⟨?_,?_,?_,?_⟩,?_,rfl,List.prefix_append _ _⟩
    · simp [Scope.declare, Scope.allocate, Names.declare, hfs, h.visible, hnext]
    · simp [Scope.declare, Scope.allocate, Names.declare, h.types]
    · simp [Names.declare, Names.next, h.slots, List.range_succ]
    · simp [Scope.declare, Scope.allocate, hfs]
    · simp [Scope.declare, Scope.allocate, hfs]

theorem Moves.leave {nested : Bool} (h : Agrees a n) (hm : Moves (a.push nested) n b m) :
    Moves a n b.pop (m.leave n) := by
  have hframes : b.frames.tail = a.frames := hm.frames
  refine ⟨⟨?_,hm.agrees.types,hm.agrees.slots,?_⟩,?_,hm.globals,hm.declared⟩
  · show n.visible = b.frames.tail.flatMap (·.symbols) ++ b.globals
    rw [hframes,hm.globals,h.visible]
    rfl
  · show b.frames.tail ≠ []
    rw [hframes]
    exact h.opened
  · show b.frames.tail.tail = a.frames.tail
    rw [hframes]

end Frames

theorem first_then {α β : Type} {r : Option α} {k : α → Option β} {a : α} {z : Option β} (h : r = some a)
    (hk : k a = z) : (r >>= k) = z := by
  rw [h]
  exact hk

theorem binderType_eq {p : PatternForm} {b : Binder} (h : p.binder? = some b) (t : Ty) :
    Scoping.binderType p t = (patternFits p t).2 := by
  cases p with
  | bind => rfl
  | some | ok | err => cases t <;> rfl
  | _ => cases h

theorem setBinder_setBinder (p : PatternForm) (b c : Binder) :
    (p.setBinder b).setBinder c = p.setBinder c := by
  cases p <;> rfl

section Steps

variable {env : Env} {s u : State} {n : Names}

theorem Agrees.next (h : Agrees s.scope n) : n.next = some s.scope.slots.length := congrArg some h.length

variable {t : Ty} {m : Names} {v : State} {pos : Pos} {a : Expr}

theorem PatternAccepted.resolves {p q : Pattern} (h : PatternAccepted env t s p q u)
    (hn : Agrees s.scope n) : ∃ m, Scoping.pattern n t q = (q, m) ∧ Moves s.scope n u.scope m := by
  cases h with
  | plain _ _ hb => exact ⟨n,by simp [Scoping.pattern, hb],.here hn⟩
  | @binds _ b _ _ hb =>
    have hset := binder?_setBinder hb ⟨b.name,some s.scope.slots.length⟩
    refine ⟨_,?_,.declare hn b.name (patternFits p.form t).2 .binding false⟩
    simp [Scoping.pattern, hn.next, hset, setBinder_setBinder, binderType_eq hset, patternFits_setBinder]

theorem elementType_eq (pos : Pos) :
    Ends s (elementType t pos) fun v _ => v = Scoping.elementOf t := by
  unfold elementType
  split
  · exact report_ends _ _
  · exact .pure fun _ => rfl
  · exact .pure fun _ => rfl
  · exact report_ends _ _

theorem typeOf_eq {e : Expr} (h : e.type = some t) : Scoping.typeOf e = t := by
  rw [Scoping.typeOf,h]
  rfl

theorem bind_resolves {x : String} {d d' : Option Ty} {t' : Ty}
    (hrun : Scoping.expr n a = some (a, m)) (hmoves : Moves s.scope n u.scope m) (ha : a.type = some t)
    (hd : letType env pos x d (a,t) = pure (d',t')) (hh : Remarks (reportHiding env .letWord x pos) u v) :
    ∃ o, Scoping.stmt n (.bind pos x d' a (some v.scope.slots.length)) =
        some (.bind pos x d' a (some v.scope.slots.length), o) ∧
      Moves s.scope n (v.scope.declare x t' .letBound true).2 o := by
  have hagrees : Agrees v.scope m := hh.scope ▸ hmoves.agrees
  have hgiven : d'.getD (Scoping.typeOf a) = t' := by
    rw [typeOf_eq ha]
    cases letType_fits hd <;> rfl
  have hbound : (Stmt.bind pos x d' a m.next, m.declare x (d'.getD (Scoping.typeOf a)) .letBound true) =
      (.bind pos x d' a (some v.scope.slots.length), m.declare x t' .letBound true) := by
    rw [hagrees.next,hgiven]
  refine ⟨m.declare x t' .letBound true,first_then hrun (congrArg some hbound),?_⟩
  exact hmoves.trans (hh.scope ▸ .declare hagrees x t' .letBound true)

theorem each_resolves {w : State} {bodyPos itemPos : Pos} {x : String} {r : Ty}
    {ss : List Stmt} (hrun : Scoping.expr n a = some (a, m)) (hmoves : Moves s.scope n u.scope m)
    (ha : a.type = some t) (hr : elementType t itemPos = pure r)
    (hh : Remarks (reportHiding env .forWord x pos) { u with scope := u.scope.push true } v)
    (hss : Agrees (v.scope.declare x r .loop false).2 (m.declare x r .loop false) →
      ∃ o, Scoping.stmts (m.declare x r .loop false) ss = some (ss, o) ∧
        Moves (v.scope.declare x r .loop false).2 (m.declare x r .loop false) w.scope o) :
    ∃ o, Scoping.stmt n (.each pos x a (.mk bodyPos ss) (some v.scope.slots.length)) =
        some (.each pos x a (.mk bodyPos ss) (some v.scope.slots.length), o) ∧
      Moves s.scope n w.scope.pop o := by
  have hagrees : Agrees v.scope m := hh.scope ▸ hmoves.agrees.push true
  have hdeclared := Moves.declare hagrees x r .loop false
  obtain ⟨o,hrun',hmoves'⟩ := hss hdeclared.agrees
  have hinner := hdeclared.trans hmoves'
  rw [hh.scope] at hinner
  have hitem : r = Scoping.elementOf (Scoping.typeOf a) := by
    rw [typeOf_eq ha]
    exact (elementType_eq _).of_pure hr
  have hlooped : (Stmt.each pos x a (.mk bodyPos ss) m.next, o.leave m) =
      (.each pos x a (.mk bodyPos ss) (some v.scope.slots.length), o.leave m) := by
    rw [hagrees.next]
  exact ⟨o.leave m,first_then hrun (first_then (hitem ▸ hrun') (congrArg some hlooped)),
    hmoves.trans (.leave hmoves.agrees hinner)⟩

theorem arm_resolves {inner o : Names} {w : State} {q : Pattern} {bs : List Arm}
    (hn : Agrees s.scope n) (hpattern : Scoping.pattern n t q = (q, inner))
    (hmoves : Moves (s.scope.push true) n u.scope inner) (hrun : Scoping.expr inner a = some (a, m))
    (hmoves' : Moves u.scope inner v.scope m) (hrun' : Scoping.arms (m.leave n) t bs = some (bs, o))
    (hmoves'' : Moves v.scope.pop (m.leave n) w.scope o) :
    Scoping.arms n t (.mk pos q a :: bs) = some (.mk pos q a :: bs, o) ∧ Moves s.scope n w.scope o := by
  have hleave := Moves.leave hn (hmoves.trans hmoves')
  refine ⟨first_then (a := (a, m)) ?_ (first_then hrun' ?_),hleave.trans hmoves''⟩
  · exact (congrArg (fun r => Scoping.expr r.2 a) hpattern).trans hrun
  · exact congrArg (fun q => some (Arm.mk pos q a :: bs, o)) (congrArg Prod.fst hpattern)

end Steps

variable {env : Env}

mutual

theorem ExprAccepted.resolves (h : ExprAccepted env s e r u) (hn : Agrees s.scope n) :
    ∃ m, Scoping.expr n r.1 = some (r.1, m) ∧ Moves s.scope n u.scope m := by
  cases h with
  | int | bool | text | noneLit | enum => exact ⟨n,rfl,.here hn⟩
  | name hx => exact ⟨n,first_then (hn.get? _ ▸ hx) rfl,.here hn⟩
  | unary he | field he | wrap he =>
    obtain ⟨m,hrun,hmoves⟩ := he.resolves hn
    exact ⟨m,first_then hrun rfl,hmoves⟩
  | binary he _ hf | index he _ hf =>
    obtain ⟨m,hrun,hmoves⟩ := he.resolves hn
    obtain ⟨o,hrun',hmoves'⟩ := hf.resolves hmoves.agrees
    exact ⟨o,first_then hrun (first_then hrun' rfl),hmoves.trans hmoves'⟩
  | user _ hes | builtin _ _ hes | host _ _ _ hes | array hes | record _ hes =>
    obtain ⟨m,hrun,hmoves⟩ := hes.resolves hn
    exact ⟨m,first_then hrun rfl,hmoves⟩
  | method he _ hes | methodLost he hes =>
    obtain ⟨m,hrun,hmoves⟩ := he.resolves hn
    obtain ⟨o,hrun',hmoves'⟩ := hes.resolves hmoves.agrees
    exact ⟨o,first_then hrun (first_then hrun' rfl),hmoves.trans hmoves'⟩
  | select he _ _ has =>
    obtain ⟨m,hrun,hmoves⟩ := he.resolves hn
    obtain ⟨o,hrun',hmoves'⟩ := has.resolves hmoves.agrees
    have htype : Scoping.typeOf _ = _ := typeOf_eq he.type_eq
    dsimp only at htype
    rw [← htype] at hrun'
    exact ⟨o,first_then hrun (first_then hrun' rfl),hmoves.trans hmoves'⟩
  | unit hss =>
    obtain ⟨m,hrun,hmoves⟩ := hss.resolves hn
    exact ⟨m,first_then hrun rfl,hmoves⟩
  | value hss he =>
    obtain ⟨m,hrun,hmoves⟩ := hss.resolves hn
    obtain ⟨o,hrun',hmoves'⟩ := he.resolves hmoves.agrees
    exact ⟨o,first_then hrun (first_then hrun' rfl),hmoves.trans hmoves'⟩

theorem ValuesAccepted.resolves (h : ValuesAccepted env s es rs u) (hn : Agrees s.scope n) :
    ∃ m, Scoping.exprs n (rs.map (·.1)) = some (rs.map (·.1), m) ∧ Moves s.scope n u.scope m := by
  cases h with
  | nil => exact ⟨n,rfl,.here hn⟩
  | cons he _ hes =>
    obtain ⟨m,hrun,hmoves⟩ := he.resolves hn
    obtain ⟨o,hrun',hmoves'⟩ := hes.resolves hmoves.agrees
    exact ⟨o,first_then hrun (first_then hrun' rfl),hmoves.trans hmoves'⟩

theorem InitsAccepted.resolves (h : InitsAccepted env s d seen fs r u) (hn : Agrees s.scope n) :
    ∃ m, Scoping.fields n r.1 = some (r.1, m) ∧ Moves s.scope n u.scope m := by
  cases h with
  | nil => exact ⟨n,rfl,.here hn⟩
  | cons he _ _ _ _ hfs =>
    obtain ⟨m,hrun,hmoves⟩ := he.resolves hn
    obtain ⟨o,hrun',hmoves'⟩ := hfs.resolves hmoves.agrees
    exact ⟨o,first_then hrun (first_then hrun' rfl),hmoves.trans hmoves'⟩

theorem ArmsAccepted.resolves (h : ArmsAccepted env s t common catchAll covered as r u) (hn : Agrees s.scope n) :
    ∃ m, Scoping.arms n t r.1 = some (r.1, m) ∧ Moves s.scope n u.scope m :=
  match as, h with
  | [], .nil => ⟨n,rfl,.here hn⟩
  | .mk _ _ _ :: _, .cons hw hp he _ has => by
    rw [← hw.scope] at hn ⊢
    obtain ⟨inner,hpattern,hmoves⟩ := hp.resolves (hn.push true)
    obtain ⟨m,hrun,hmoves'⟩ := he.resolves hmoves.agrees
    obtain ⟨o,hrun',hmoves''⟩ := has.resolves (Moves.leave hn (hmoves.trans hmoves')).agrees
    exact ⟨o,arm_resolves hn hpattern hmoves hrun hmoves' hrun' hmoves''⟩

theorem StmtAccepted.resolves (h : StmtAccepted env s x r u) (hn : Agrees s.scope n) :
    ∃ m, Scoping.stmt n r.1 = some (r.1, m) ∧ Moves s.scope n u.scope m := by
  cases h with
  | bind he _ hd hh =>
    obtain ⟨m,hrun,hmoves⟩ := he.resolves hn
    exact bind_resolves hrun hmoves he.type_eq hd hh
  | assignName hx _ he =>
    obtain ⟨m,hrun,hmoves⟩ := he.resolves hn
    exact ⟨m,first_then (first_then (hn.get? _ ▸ hx) rfl) (first_then hrun rfl),hmoves⟩
  | assign _ hf he =>
    obtain ⟨m,hrun,hmoves⟩ := hf.resolves hn
    obtain ⟨o,hrun',hmoves'⟩ := he.resolves hmoves.agrees
    exact ⟨o,first_then hrun (first_then hrun' rfl),hmoves.trans hmoves'⟩
  | retUnit | leave | next => exact ⟨n,rfl,.here hn⟩
  | retValue _ he | expr he | cond he =>
    obtain ⟨m,hrun,hmoves⟩ := he.resolves hn
    exact ⟨m,first_then hrun rfl,hmoves⟩
  | loop he _ _ hb =>
    obtain ⟨m,hrun,hmoves⟩ := he.resolves hn
    obtain ⟨o,hrun',hmoves'⟩ := hb.resolves (n := m) hmoves.agrees
    exact ⟨o,first_then hrun (first_then hrun' rfl),hmoves.trans hmoves'⟩
  | each he _ hr hh hss =>
    obtain ⟨m,hrun,hmoves⟩ := he.resolves hn
    exact each_resolves hrun hmoves he.type_eq hr hh fun hdeclared => hss.resolves hdeclared

theorem StmtsAccepted.resolves (h : StmtsAccepted env s ended warned xs r u) (hn : Agrees s.scope n) :
    ∃ m, Scoping.stmts n r.1 = some (r.1, m) ∧ Moves s.scope n u.scope m := by
  cases h with
  | nil => exact ⟨n,rfl,.here hn⟩
  | cons hw hx hxs =>
    rw [← hw.scope] at hn ⊢
    obtain ⟨m,hrun,hmoves⟩ := hx.resolves hn
    obtain ⟨o,hrun',hmoves'⟩ := hxs.resolves hmoves.agrees
    exact ⟨o,first_then hrun (first_then hrun' rfl),hmoves.trans hmoves'⟩

theorem BlockAccepted.resolves (h : BlockAccepted env s b r u) (hn : Agrees s.scope n) :
    ∃ m, Scoping.block n r.1 = some (r.1, m) ∧ Moves s.scope n u.scope m := by
  cases h with
  | mk hss =>
    obtain ⟨m,hrun,hmoves⟩ := hss.resolves (hn.push true)
    exact ⟨m.leave n,first_then hrun rfl,.leave hn hmoves⟩

theorem ChainAccepted.resolves (h : ChainAccepted env s c r u) (hn : Agrees s.scope n) :
    ∃ m, Scoping.chain n r.1 = some (r.1, m) ∧ Moves s.scope n u.scope m := by
  cases h with
  | stop => exact ⟨n,rfl,.here hn⟩
  | otherwise hb =>
    obtain ⟨m,hrun,hmoves⟩ := hb.resolves hn
    exact ⟨m,first_then hrun rfl,hmoves⟩
  | branch he _ _ hb hrest =>
    obtain ⟨m,hrun,hmoves⟩ := he.resolves hn
    obtain ⟨o,hrun',hmoves'⟩ := hb.resolves hmoves.agrees
    obtain ⟨z,hrun'',hmoves''⟩ := hrest.resolves hmoves'.agrees
    exact ⟨z,first_then hrun (first_then hrun' (first_then hrun'' rfl)),hmoves.trans (hmoves'.trans hmoves'')⟩

end

end Covenant.Check
