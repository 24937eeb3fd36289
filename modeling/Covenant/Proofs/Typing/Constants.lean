import Covenant.Proofs.Typing.Body
import Covenant.Proofs.Typing.Items
import Covenant.Proofs.Typing.Values

/-! Constants: their initializers have values of the declared types, and values that fit a word. -/

namespace Covenant

theorem EnumDecl.tag?_lt {d : EnumDecl} {v : String} {i : Nat} (h : d.tag? v = some i) :
    i < d.variants.length := by
  obtain ⟨hi,-⟩ := List.findIdx?_eq_some_iff_findIdx_eq.mp h
  exact hi

theorem EnumDecl.inWordRange_tag {d : EnumDecl} {x : String} {i : Nat} (h : d.tag? x = some i)
    (hd : d.variants.length ≤ maxWord.toNat) : inWordRange i = true := by
  have hlt := EnumDecl.tag?_lt h
  rw [inWordRange_iff]
  simp only [minWord, maxWord] at *
  omega

open Typing

theorem Expr.constant?_inRange {S : Site} {l : Bool} {f : String → Option Value}
    (hsized : S.env.Sized) (hf : ∀ x v, f x = some v → v.InRange) :
    ∀ (e : Expr) (v : Value), e.Every (rule S) l → e.constant? f = some v → v.InRange
  | .int _ n, v, he, h => by
    cases h
    exact he.1 hsized
  | .bool _ b, v, _, h => by
    cases h
    trivial
  | .text _ b, v, _, h => by
    cases h
    trivial
  | .name _ x _, v, _, h => hf x v h
  | .enum _ o x tag, v, he, h => by
    obtain ⟨⟨d,i,hd,hi,rfl⟩,-⟩ := he
    cases h
    exact d.inWordRange_tag hi (hsized d (List.mem_of_find?_eq_some hd))
  | .unary _ op e, v, he, h => by
    obtain ⟨a,-,h⟩ := Expr.constant?_unary h
    exact Value.foldUnary_inRange h
  | .binary _ op a b, v, he, h => by
    obtain ⟨x,y,ha,-,h⟩ := Expr.constant?_binary h
    exact Value.foldBinary_inRange (constant?_inRange hsized hf a x he.2.1 ha) h
  | .call _ _ _, _, _, h | .method _ _ _ _ _, _, _, h | .array _ _, _, _, h | .index _ _ _, _, _, h
  | .field _ _ _, _, _, h | .record _ _ _, _, _, h | .wrap _ _ _, _, _, h | .noneLit _, _, _, h
  | .select _ _ _, _, _, h | .block _ _ _ _, _, _, h => by simp [Expr.constant?] at h

namespace Check

variable {strict : Prop} {env : Env}

def Bare (c : Scope) : Prop := ∀ f ∈ c.frames, f.symbols = []

theorem Bare.get? {c : Scope} (h : Bare c) (x : String) : c.get? x = c.findGlobal? x := by
  have hnone : Scope.findIn? c.frames x = none := by
    rw [Scope.findIn?,List.findSome?_eq_none_iff]
    intro f hf
    simp [Frame.find?, h f hf]
  simp [Scope.get?, hnone]

/-- What is said of a constant expression when no variable is in scope: it changes nothing, and its
value has its type. -/
def ConstantPost (strict : Prop) (s : State) (r : Typed) (u : State) : Prop :=
  ∀ v, r.1.constant? (constantValue? s) = some v → u = s ∧ (strict → v.HasType r.2)

theorem ConstantPost.unary {s u : State} {e : Expr} {n : Note} {op : UnaryOp} {t r : Ty}
    (hconst : ConstantPost strict s (e,t) u) (he : ExprPost strict env s (e,t) u) (ht : t ≠ .void)
    (hr : op.type? t = some r) : ConstantPost strict s (.unary (n.typed r) op e,r) u := by
  intro v hv
  obtain ⟨a,ha,hv⟩ := Expr.constant?_unary hv
  exact ⟨(hconst a ha).1,fun hs => Value.foldUnary_hasType hr (Ty.ne_error_of_isSolid (he.solid ht hs)) hv⟩

theorem ConstantPost.binary {s u v : State} {a b : Expr} {n : Note} {op : BinaryOp} {t t' r : Ty}
    (hconst : ConstantPost strict s (a,t) u) (ha : ExprPost strict env s (a,t) u) (ht : t ≠ .void)
    (hconst' : u = s → ConstantPost strict u (b,t') v) (hb : ExprPost strict env u (b,t') v)
    (ht' : t' ≠ .void) (hr : op.type? t t' = some r) :
    ConstantPost strict s (.binary (n.typed r) op a b,r) v := by
  intro z hz
  obtain ⟨x,y,hx,hy,hz⟩ := Expr.constant?_binary hz
  obtain rfl : s = u := (hconst x hx).1.symm
  refine ⟨(hconst' rfl y hy).1,fun hs => ?_⟩
  exact Value.foldBinary_hasType hr (Ty.ne_error_of_isSolid (ha.solid ht hs))
    (Ty.ne_error_of_isSolid (hb.solid ht' hs)) hz

theorem name_constant {s : State} {n : Note} {x : String} {y : Symbol} (hg : Good strict env s.scope)
    (hbare : Bare s.scope) (hx : s.scope.get? x = some y) :
    ConstantPost strict s (.name (n.typed y.type) x (some y),y.type) s := by
  refine fun v hv => ⟨rfl,fun hs => ?_⟩
  rw [hbare.get?] at hx
  obtain ⟨⟨-,-,-,-,hvalue⟩,-⟩ := hg.globals y (List.mem_of_find?_eq_some hx)
  obtain ⟨w,hw,htype⟩ := hvalue hs
  have hvw : v = w := by
    simpa [Expr.constant?, constantValue?, hx, hw] using hv.symm
  exact hvw ▸ htype

theorem ExprAccepted.constant (henv : strict → env.Proper) {s u : State} {e : Expr} {r : Typed} {l : Bool}
    (h : ExprAccepted env s e r u) (hg : Good strict env s.scope) (hbare : Bare s.scope)
    (hw : strict → e.Every written l) : ConstantPost strict s r u := by
  cases h with
  | int | bool | text | enum =>
    intro v hv
    cases hv
    exact ⟨rfl,fun _ => rfl⟩
  | name hx => exact name_constant hg hbare hx
  | unary he ht hr =>
    have hw := fun hs => (hw hs).2
    exact (he.constant henv hg hbare hw).unary (he.sound henv hg hw) ht hr
  | binary he ht hf ht' hr =>
    have ha := he.sound henv hg fun hs => (hw hs).2.1
    refine (he.constant henv hg hbare fun hs => (hw hs).2.1).binary ha ht (fun hsame => ?_)
      (hf.sound henv ha.1.good fun hs => (hw hs).2.2) ht' hr
    exact hf.constant henv ha.1.good (hsame ▸ hbare) fun hs => (hw hs).2.2
  | _ => exact fun v hv => by simp [Expr.constant?] at hv

/-- Between declarations: no loop is open, and the constants are what they are said to be. -/
def Fresh (strict : Prop) (env : Env) (s : State) : Prop :=
  Good strict env s.scope.beginFunction ∧ s.loops = []

theorem hasType_of_compatible {v : Value} {d t : Ty} (hd : d.isProper = true) (ht : t.isSolid = true)
    (h : d.compatible t = true) (hv : v.HasType t) : v.HasType d := by
  cases v with
  | int n =>
    cases t <;> first
      | (cases hv; done)
      | (cases d <;> first | (cases hd; done) | (cases h; done) | rfl)
  | bool b =>
    cases hv
    cases d <;> first | (cases hd; done) | (cases h; done) | rfl
  | text s =>
    cases hv
    cases d <;> first | (cases hd; done) | (cases h; done) | rfl

theorem isConstant_mk {S : Site} {e : Expr} {l : Bool} {d t : Ty} {f : String → Option Value}
    (x : String) (he : e.Every (rule S) l) (hf : S.env.Sized → ∀ y v, f y = some v → v.InRange)
    (hd : S.strict → d.isProper = true) (ht : S.strict → t.isSolid = true)
    (hfit : d.compatible t = true) (hv : S.strict → ∀ v, e.constant? f = some v → v.HasType t)
    (hsome : S.strict → (e.constant? f).isSome = true) :
    Symbol.IsConstant S.env S.strict ⟨x,d,false,.constant,none,e.constant? f⟩ := by
  refine ⟨rfl,rfl,rfl,fun hsized v hc => ?_,fun hs => ?_⟩
  · exact Expr.constant?_inRange hsized (hf hsized) e v he hc
  · obtain ⟨v,hc⟩ := Option.isSome_iff_exists.mp (hsome hs)
    exact ⟨v,hc,hasType_of_compatible (hd hs) (ht hs) hfit (hv hs v hc)⟩

theorem ConstantAccepted.sound (henv : strict → env.Proper) {c c' : ConstDecl} {s u : State}
    (h : ConstantAccepted env s c c' u) (hw : strict → c.type.isProper = true ∧ c.value.Every written false)
    (hs : Fresh strict env s) : Fresh strict env u ∧ env.resolve c.type = .ok c'.type ∧
      (strict → c'.value.Every (rule ⟨env,[],strict⟩) false ∧ u.warnings = s.warnings) := by
  obtain @⟨d,t,e,x,-,hd,-,hvalue,hvoid,hfit,hsome⟩ := h
  have hgood : Good strict env (s.scope.beginFunction.push false) := hs.1.push false
  have hbare : Bare (s.scope.beginFunction.push false) := by
    intro f hf
    obtain rfl : f = ⟨[],false⟩ := by simpa [Scope.push, Scope.beginFunction] using hf
    rfl
  have hpost := hvalue.sound henv hgood fun hs => (hw hs).2
  have hconst := hvalue.constant henv hgood hbare fun hs => (hw hs).2
  have hglobals := hgood.globals
  have hsame : x.scope.globals = s.scope.globals := hpost.1.leads.globals
  have hlookup : constantValue? x = constantValue? { s with scope := s.scope.beginFunction.push false } := by
    funext n
    simp only [constantValue?, Scope.findGlobal?, hsame]
    rfl
  have hdecl : strict → d.isProper = true := fun hs => Env.resolve_isProper hd (hw hs).1
  let new : Symbol := ⟨c.name,d,false,.constant,none,e.constant? (constantValue? x)⟩
  have hnew : new.IsConstant env strict := by
    refine isConstant_mk c.name (hpost.1.every _ List.prefix_rfl) ?_ hdecl (hpost.solid hvoid) hfit
      (fun hs v hv => (hconst v (hlookup ▸ hv)).2 hs) fun hs => ?_
    · intro hsized n v hv
      obtain ⟨y,hy,hvy⟩ := Option.bind_eq_some_iff.mp (hlookup ▸ hv)
      exact (hglobals y (List.mem_of_find?_eq_some hy)).1.2.2.2.1 hsized v hvy
    · exact hsome.resolve_right (Ty.ne_error_of_isSolid (hpost.solid hvoid hs))
  refine ⟨⟨⟨by simp [Scope.beginFunction, Scope.registerGlobal],?_⟩,?_⟩,hd,fun hst => ?_⟩
  · refine List.forall_mem_cons.mpr ⟨⟨hnew,fun hs => Ty.isSolid_of_isProper (hdecl hs)⟩,?_⟩
    exact hsame ▸ hglobals
  · have hlen := hpost.1.leads.loops
    simpa [hs.2] using hlen
  · obtain ⟨v,hv,-⟩ := hnew.2.2.2.2 hst
    have hsame := (hconst v (hlookup ▸ hv)).1
    have hevery := hpost.1.every [] (hsame ▸ List.prefix_rfl)
    simp only [hs.2] at hevery
    exact ⟨hevery,congrArg (·.warnings) hsame⟩

end Check

def PatternForm.InRange : PatternForm → Prop
  | .int v => inWordRange v = true
  | _ => True

/-- Literals, tags, the values of constants and the numbers in patterns are words. -/
def ranged : Rule where
  expr e := match e with
    | .int _ v => inWordRange v = true
    | .name _ _ (some y) => y.kind = .constant → ∀ v, y.value = some v → v.InRange
    | .enum _ _ _ (some tag) => inWordRange tag = true
    | .select _ _ as => ∀ a ∈ as, a.pattern.form.InRange
    | _ => True
  stmt _ _ := True
  guard _ := True

theorem ranged_of_rule {S : Site} {e : Expr} (hs : S.strict) (hsized : S.env.Sized) (h : (rule S).expr e) :
    ranged.expr e := by
  cases e with
  | int n v => exact h.1 hsized
  | name n x sym =>
    obtain ⟨⟨y,rfl,-,hy⟩,-⟩ := h
    exact fun hkind v hv => (hy.resolve_left fun hvar => hvar.1 hkind).2.2.2.1 hsized v hv
  | enum n o x tag =>
    obtain ⟨⟨d,i,hd,hi,rfl⟩,-⟩ := h
    exact d.inWordRange_tag hi (hsized d (List.mem_of_find?_eq_some hd))
  | select n e as =>
    obtain ⟨-,t,r,-,-,-,has⟩ := h.2 hs
    intro a ha
    have hfits := (has a ha).1.1
    cases hform : a.pattern.form with
    | int v =>
      rw [hform] at hfits
      exact hfits.1
    | _ => trivial
  | _ => trivial

end Covenant
