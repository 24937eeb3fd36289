import Covenant.Lower.Body
import Covenant.Proofs.Optimizer.Program
import Covenant.Proofs.Scoping.Program
import Covenant.Proofs.Scoping.Tracing

/-! The value of a constant is one and the same when a program is checked, optimised, lowered and run. -/

namespace Covenant

open Typing Optimize
open Scoping (Names constantSymbols)

def Expr.isTagless : Expr → Bool
  | .enum _ _ _ _ => false
  | .unary _ _ e => e.isTagless
  | .binary _ _ a b => a.isTagless && b.isTagless
  | _ => true

def valueIn (known : List Symbol) (x : String) : Option Value := (known.find? (·.name = x)).bind (·.value)

/-- Running an expression gives a value and does nothing else; optimising it gives the literal, unless there are
tags in it. -/
def Expr.Means (r : Prover) (e : Expr) (v : Value) : Prop :=
  (∀ w, Meaning.expr w e = pure (some (.ofValue v))) ∧
  (e.isTagless = true → (expr r e).value = v.literal e.type e.pos)

namespace Expr.Means

variable {S : Site} {r : Prover} {l : Bool}

theorem literal {e : Expr} {v : Value} (he : (rule S).expr e) (hs : S.strict) (h : e.literal? = some v) :
    e.Means r v := by
  refine ⟨fun w => expr_of_literal? h,fun _ => ?_⟩
  obtain ⟨-,hsound⟩ := he.2 hs
  cases e with
  | int n k =>
    cases h
    obtain ⟨t,ht,hkind⟩ := hsound
    obtain ⟨pos,type⟩ := n
    cases ht
    simp [expr, Value.literal, Expr.type, Expr.note, Expr.pos, keptType, hkind]
  | bool n b =>
    cases h
    obtain ⟨pos,type⟩ := n
    cases hsound
    rfl
  | text n s =>
    cases h
    obtain ⟨pos,type⟩ := n
    cases hsound
    rfl
  | _ => cases h

theorem name {n : Note} {x : String} {y : Symbol} {v : Value} (hn : n.type = some y.type)
    (hy : y.kind = .constant) (hv : y.value = some v) : (Expr.name n x (some y)).Means r v := by
  obtain ⟨_,type,_,kind,_,value⟩ := y
  obtain rfl : kind = .constant := hy
  obtain rfl : value = some v := hv
  refine ⟨fun w => rfl,fun _ => ?_⟩
  show v.literal (some type) n.pos = v.literal n.type n.pos
  rw [hn]

theorem unary {n : Note} {op : UnaryOp} {e : Expr} {a v : Value} (h : e.Means r a)
    (hv : Value.foldUnary op a = some v) : (Expr.unary n op e).Means r v := by
  refine ⟨fun w => expr_foldUnary (h.1 w) hv,fun htagless => ?_⟩
  show (Optimize.unary n op (expr r e).value).value = _
  rw [h.2 htagless,Optimize.unary,Value.literal?_literal,Option.bind_some,hv]
  rfl

theorem binary {n : Note} {op : BinaryOp} {a b : Expr} {x y v : Value} (ha : a.Means r x) (hb : b.Means r y)
    (hx : x.InRange) (hy : y.InRange) (hv : Value.foldBinary op x y = some v) :
    (Expr.binary n op a b).Means r v := by
  refine ⟨fun w => expr_foldBinary (ha.1 w) (hb.1 w) hx hy hv,fun htagless => ?_⟩
  obtain ⟨ha',hb'⟩ := Bool.and_eq_true_iff.mp htagless
  show (Optimize.binary n op (expr r a).value (expr r b).value).value = _
  rw [ha.2 ha',hb.2 hb',Optimize.binary,Value.literal?_literal,Value.literal?_literal]
  simp only [hv]
  rfl

end Expr.Means

theorem valueIn_inRange {S : Site} {known : List Symbol} (hknown : ∀ y ∈ known, y.IsConstant S.env S.strict)
    (hsized : S.env.Sized) {x : String} {v : Value} (h : valueIn known x = some v) : v.InRange := by
  obtain ⟨y,hy,hv⟩ := Option.bind_eq_some_iff.mp h
  exact (hknown y (List.mem_of_find?_eq_some hy)).2.2.2.1 hsized v hv

/-- An initializer whose names are those of constants means its value. A resolver goes through it with the same
names all the way, since a constant expression declares none. -/
theorem Expr.means_of_constant {S : Site} {l : Bool} {known : List Symbol} (hsized : S.env.Sized) (hs : S.strict)
    (hknown : ∀ y ∈ known, y.IsConstant S.env S.strict) (r : Prover) :
    ∀ (e : Expr) {v : Value} {m : Names}, e.Every (rule S) l → Scoping.expr ⟨known, []⟩ e = some (e, m) →
      e.constant? (valueIn known) = some v → m = ⟨known, []⟩ ∧ e.Means r v
  | .int _ _, _, _, he, hm, h | .bool _ _, _, _, he, hm, h | .text _ _, _, _, he, hm, h => by
    cases hm
    exact ⟨rfl,.literal he.head hs h⟩
  | .name n x _, v, _, he, hm, h => by
    obtain ⟨y,hy,hm⟩ := Option.bind_eq_some_iff.mp hm
    cases hm
    obtain ⟨⟨_,hsym,hn,-⟩,-⟩ := he.head
    cases hsym
    have hv : y.value = some v := by
      rw [← h]
      exact (congrArg (Option.bind · (·.value)) hy).symm
    exact ⟨rfl,.name hn (hknown y (List.mem_of_find?_eq_some hy)).1 hv⟩
  | .enum _ _ _ none, _, _, _, _, h => by cases h
  | .enum _ _ _ (some i), _, _, _, hm, h => by
    cases hm
    cases h
    refine ⟨rfl,fun w => ?_,nofun⟩
    show (pure (some (.int (BitVec.ofNat 64 i))) : Meaning.Eval (Option Meaning.Val)) = _
    rw [← BitVec.ofInt_natCast]
    rfl
  | .unary _ op e, v, _, he, hm, h => by
    obtain ⟨⟨e',m⟩,hrun,hm⟩ := Option.bind_eq_some_iff.mp hm
    cases hm
    obtain ⟨a,ha,h⟩ := Expr.constant?_unary h
    obtain ⟨hm,hmeans⟩ := means_of_constant hsized hs hknown r e he.2 hrun ha
    exact ⟨hm,hmeans.unary h⟩
  | .binary _ op a b, v, _, he, hm, h => by
    obtain ⟨⟨a',m⟩,hrun,hm⟩ := Option.bind_eq_some_iff.mp hm
    obtain ⟨⟨b',m'⟩,hrun',hm⟩ := Option.bind_eq_some_iff.mp hm
    cases hm
    obtain ⟨x,y,hx,hy,h⟩ := Expr.constant?_binary h
    obtain ⟨rfl,ha⟩ := means_of_constant hsized hs hknown r a he.2.1 hrun hx
    obtain ⟨hm,hb⟩ := means_of_constant hsized hs hknown r b he.2.2 hrun' hy
    have hrange := fun x v => valueIn_inRange hknown hsized (x := x) (v := v)
    exact ⟨hm,ha.binary hb (a.constant?_inRange hsized hrange x he.2.1 hx)
      (b.constant?_inRange hsized hrange y he.2.2 hy) h⟩
  | .call _ _ _, _, _, _, _, h | .method _ _ _ _ _, _, _, _, _, h | .array _ _, _, _, _, _, h
  | .index _ _ _, _, _, _, _, h | .field _ _ _, _, _, _, _, h | .record _ _ _, _, _, _, _, h
  | .wrap _ _ _, _, _, _, _, h | .noneLit _, _, _, _, _, h | .select _ _ _, _, _, _, _, h
  | .block _ _ _ _, _, _, _, _, h => by simp [Expr.constant?] at h

def register (known : List Symbol) (c : ConstDecl) : List Symbol :=
  ⟨c.name, c.type, false, .constant, none, c.value.constant? (valueIn known)⟩ :: known

/-- A constant has a value, of the kind that is declared, by the values of the constants before it. -/
def ConstDecl.Means (r : Prover) (known : List Symbol) (c : ConstDecl) : Prop :=
  ∃ v, c.value.constant? (valueIn known) = some v ∧ v.HasType c.type ∧ c.value.Means r v

namespace Check

variable {env : Env} {s u : State}

theorem ConstantAccepted.means {c c' : ConstDecl} (h : ConstantAccepted env s c c' u) (henv : env.Proper)
    (hsized : env.Sized) (hw : c.type.isProper = true ∧ c.value.Every written false) (hs : Fresh True env s)
    (r : Prover) : Fresh True env u ∧ c'.Means r s.scope.globals := by
  obtain ⟨hfresh,-,hrule⟩ := h.sound (fun _ => henv) (fun _ => hw) hs
  obtain ⟨m,hrun⟩ := h.resolves
  have hsymbol := hfresh.1.globals
  rw [show u.scope.beginFunction.globals = u.scope.globals from rfl,h.globals] at hsymbol
  obtain ⟨v,hv,htype⟩ := (hsymbol _ (.head _)).1.2.2.2.2 trivial
  have hknown (y : Symbol) (hy : y ∈ s.scope.globals) : y.IsConstant env True := (hs.1.globals y hy).1
  exact ⟨hfresh,v,hv,htype,
    (Expr.means_of_constant (S := ⟨env,[],True⟩) hsized trivial hknown r _ (hrule trivial).1 hrun hv).2⟩

theorem Each.constants {cs cs' : List ConstDecl} (h : Each (ConstantAccepted env) s cs cs' u) (henv : env.Proper)
    (hsized : env.Sized) (hw : ∀ c ∈ cs, c.type.isProper = true ∧ c.value.Every written false)
    (hs : Fresh True env s) (r : Prover) : Fresh True env u ∧ u.scope.globals = cs'.foldl register s.scope.globals ∧
      ∀ front c back, cs' = front ++ c :: back → c.Means r (front.foldl register s.scope.globals) := by
  induction h with
  | nil => exact ⟨hs,rfl,fun front c back h => by simp at h⟩
  | cons hc _ ih =>
    obtain ⟨hfirst,hrest⟩ := List.forall_mem_cons.mp hw
    obtain ⟨hnext,hmeans⟩ := hc.means henv hsized hfirst hs r
    obtain ⟨hfresh,hglobals,hall⟩ := ih hrest hnext
    rw [hc.globals] at hglobals hall
    refine ⟨hfresh,hglobals,fun front c back h => ?_⟩
    cases front with
    | nil =>
      obtain ⟨rfl,-⟩ := List.cons.inj h
      exact hmeans
    | cons b front =>
      obtain ⟨rfl,hback⟩ := List.cons.inj h
      exact hall front c back hback

end Check

/-- A name that stands for a constant stands for one of those that are known, and what it leaves is the value of
that, optimised or not. -/
def Optimize.pushesValues (r : Prover) (known : List Symbol) : Rule where
  expr e := match e with
    | .name _ x (some y) => y.kind = .constant → y ∈ known ∧ y.name = x ∧ ∃ v, y.value = some v ∧
        ∀ c, Lower.expr c e = Lower.value v ∧ Lower.expr c (expr r e).value = Lower.value v
    | _ => True
  stmt _ _ := True
  guard _ := True

def Scoping.Names.Among (known : List Symbol) (n : Names) : Prop :=
  ∀ y ∈ n.visible, y.kind = .constant → y ∈ known

theorem Scoping.Names.Among.declare {known : List Symbol} {n : Names} (h : n.Among known) (x : String) (t : Ty)
    {k : SymbolKind} (m : Bool) (hk : k ≠ .constant) : (n.declare x t k m).Among known :=
  List.forall_mem_cons.mpr ⟨fun hkind => absurd hkind hk,h⟩

theorem Scoping.params_among (globals : List Symbol) (ps : List Param) : (params globals ps).Among globals := by
  have hfold (n : Names) (hn : n.Among globals) :
      (ps.foldl (fun n p => n.declare p.name p.type .param true) n).Among globals := by
    induction ps generalizing n with
    | nil => exact hn
    | cons p ps ih => exact ih _ (hn.declare p.name p.type true nofun)
  exact hfold _ fun _ hy _ => hy

theorem Lower.expr_literal (c : Lower.Context) (v : Value) (type : Option Ty) (pos : Pos) :
    Lower.expr c (v.literal type pos) = Lower.value v := by
  cases v <;> rfl

theorem pushesValues_traces {known : List Symbol} (r : Prover) (hknown : ∀ y ∈ known, ∃ v, y.value = some v) :
    Scoping.Traces (pushesValues r known) (fun _ _ => True)
      (fun n m A => n.Among known → m.Among known ∧ A) where
  here n h := ⟨h,trivial⟩
  andThen h h' hn := ⟨(h' (h hn).1).1,(h hn).2,(h' (h hn).1).2⟩
  leave h hn := ⟨hn,(h hn).2⟩
  name {n x y} k hy hn := by
    refine ⟨hn,fun hkind => ?_⟩
    have hmem := hn y (List.mem_of_find?_eq_some hy) hkind
    obtain ⟨v,hv⟩ := hknown y hmem
    refine ⟨hmem,by simpa using List.find?_some hy,v,hv,fun c => ?_⟩
    obtain ⟨_,type,_,kind,_,value⟩ := y
    obtain rfl : kind = .constant := hkind
    obtain rfl : value = some v := hv
    exact ⟨rfl,Lower.expr_literal c v (some type) k.pos⟩
  pattern n t p hn := by
    refine ⟨?_,trivial⟩
    unfold Scoping.pattern
    split
    · exact hn
    · exact hn.declare _ _ _ nofun
  bind _ _ _ _ _ _ _ hn := ⟨hn.declare _ _ _ nofun,trivial⟩
  each _ _ _ _ _ _ _ hn := ⟨hn.declare _ _ _ nofun,trivial⟩
  select k e as := by simp [pushesValues]
  expr {e} h := by cases e <;> trivial
  stmt _ := trivial
  guard _ := trivial

/-- The value that checking gives to a constant is the one that it has everywhere. Every constant of an accepted
program has a value, by those before it, of the kind that is declared. Its initializer runs to that value without
a trap, whatever it is run with, and leaves everything as it was. If there are no enum values in it, optimising it
gives the literal. Every name in a function that stands for a constant carries the symbol of a constant of the
program, and becomes code that leaves its value, optimised or not. -/
theorem Program.constants_agree (r : Prover) (policy : Policy) (p : Program) (hwritten : p.Written)
    (hsized : ∀ d ∈ p.enums, d.variants.length ≤ maxWord.toNat) (haccepted : (p.check policy).accepted = true) :
    (∀ front c back, (p.check policy).program.constants = front ++ c :: back →
      ∃ v, c.value.constant? (valueIn (constantSymbols front)) = some v ∧ v.HasType c.type ∧
        (∀ w s, Meaning.expr w c.value s = .done (some (.ofValue v)) s) ∧
        (c.value.isTagless = true → (expr r c.value).value = v.literal c.value.type c.value.pos)) ∧
    ∀ d ∈ (p.check policy).program.functions,
      d.body.Every (pushesValues r (constantSymbols (p.check policy).program.constants)) false := by
  obtain ⟨env,d,hstages⟩ := check_stages haccepted
  have hsteps := hstages.constantSteps.constants (hstages.proper hwritten)
    (by rw [hstages.env_eq]; exact hsized) hwritten.constants (Check.initial_fresh True env) r
  obtain ⟨hfresh,hglobals,hmeans⟩ := hsteps
  rw [← hstages.checked_constants] at hglobals hmeans
  refine ⟨fun front c back h => ?_,fun f hf => ?_⟩
  · obtain ⟨v,hv,htype,hrun,hliteral⟩ := hmeans front c back h
    exact ⟨v,hv,htype,fun w s => congrFun (hrun w) s,hliteral⟩
  · have hknown (y : Symbol) (hy : y ∈ constantSymbols (p.check policy).program.constants) :
        ∃ v, y.value = some v := by
      obtain ⟨v,hv,-⟩ := (hfresh.1.globals y (hglobals ▸ hy)).1.2.2.2.2 trivial
      exact ⟨v,hv⟩
    obtain ⟨n,hrun,-⟩ := check_resolved haccepted f hf
    have hbody := (Scoping.stmts_traced (pushesValues_traces r hknown) _ false hrun (Scoping.params_among _ _)).2
    cases hb : f.body
    rw [hb] at hbody
    exact hbody

/-- Three constants, each but the first given by those before it, and a function that answers one of them. -/
def chained : Program :=
  let pos : Pos := .unknown
  let note : Note := ⟨pos, none⟩
  let rate : Expr := .name note "RATE" none
  let debt : Expr := .name note "DEBT" none
  ⟨pos, [.constant ⟨pos, "RATE", .integer, .int note 7⟩,
    .constant ⟨pos, "DEBT", .integer, .unary note .neg (.binary note .mul rate rate)⟩,
    .constant ⟨pos, "OWING", .boolean, .binary note .and (.binary note .lt debt (.int note 0)) (.bool note true)⟩,
    .function ⟨pos, "run", [], some .integer, .mk pos [.ret pos (some debt)], []⟩], none⟩

theorem chained_written : chained.Written where
  functions := by
    rintro f (_ | ⟨_,⟨⟩⟩)
    exact ⟨⟨by decide,by decide⟩,by simp [Block.Every, Stmt.EveryIn, Stmt.Every, Expr.Every, written]⟩
  records := by rintro r ⟨⟩
  constants := by
    rintro c (_ | ⟨_,_ | ⟨_,_ | ⟨_,⟨⟩⟩⟩⟩) <;> exact ⟨rfl,by simp [Expr.Every, written]⟩

theorem Program.constants_agree_chained :
    let checked := (chained.check .warn).program
    (chained.check .warn).accepted = true ∧
      (checked.constants.map fun c => c.value.constant? (valueIn (constantSymbols checked.constants))) =
        [some (.int 7), some (.int (-49)), some (.bool true)] ∧
      ∀ d ∈ checked.functions, d.body.Every (pushesValues idle (constantSymbols checked.constants)) false :=
  ⟨by decide,by decide,(Program.constants_agree idle .warn chained chained_written (by decide) (by decide)).2⟩

end Covenant
