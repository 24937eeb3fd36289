import Covenant.Check.Body
import Covenant.Fold
import Covenant.Proofs.Tree.Walk
import Covenant.Proofs.Typing.Types
import Covenant.Syntax.Build
import Mathlib.Data.List.Forall2

/-! What the annotations of a checked tree say. Some of it holds of every accepted program: literals
and constants fit a word if the tags of enums do, and a name has the type of its slot. The rest needs
declarations whose types can be written down, and then every node has the type that its parts give
it. -/

namespace Covenant

def Value.HasType : Value → Ty → Prop
  | .int _, t => (t.isNumeric || t.isEnum) = true
  | .bool _, t => t = .boolean
  | .text _, t => t = .string

def Value.InRange : Value → Prop
  | .int n => inWordRange n = true
  | _ => True

def Symbol.IsVariable (slots : List Ty) (s : Symbol) : Prop :=
  s.kind ≠ .constant ∧ ∃ i, s.slot = some i ∧ slots[i]? = some s.type

def Check.Env.Sized (env : Check.Env) : Prop :=
  ∀ d ∈ env.enums, d.variants.length ≤ maxWord.toNat

/-- A constant whose value a word can hold, and which has the type it is declared with. -/
def Symbol.IsConstant (env : Check.Env) (strict : Prop) (s : Symbol) : Prop :=
  s.kind = .constant ∧ s.isMutable = false ∧ s.slot = none ∧
    (env.Sized → ∀ v, s.value = some v → v.InRange) ∧
    (strict → ∃ v, s.value = some v ∧ v.HasType s.type)

namespace Typing

/-- A place in a program: its declarations, the slots of the function, and whether the declared types
can be relied on. -/
structure Site where
  env : Check.Env
  slots : List Ty
  strict : Prop

/-- An expression with a type of values, or one that leaves nothing. -/
def Noted (e : Expr) : Prop :=
  ∃ t, e.type = some t ∧ (t = .void ∨ t.isSolid = true)

def Gives (e : Expr) (t : Ty) : Prop :=
  ∃ u, e.type = some u ∧ u ≠ .void ∧ t.compatible u = true

def Args (es : List Expr) (ts : List Ty) : Prop :=
  es.map (·.type) = ts.map some ∧ .void ∉ ts

variable {t : Ty} {S : Site} {l : Bool} {e : Expr}

theorem Args.one {es : List Expr} (h : Args es [t]) : ∃ a, es = [a] ∧ a.type = some t := by
  obtain ⟨a,es,rfl,ha,hes⟩ := List.map_eq_cons_iff.mp h.1
  obtain rfl := List.map_eq_nil_iff.mp hes
  exact ⟨a,rfl,ha⟩

theorem Args.two {es : List Expr} {u : Ty} (h : Args es [t, u]) :
    ∃ a b, es = [a, b] ∧ a.type = some t ∧ b.type = some u := by
  obtain ⟨a,es,rfl,ha,hes⟩ := List.map_eq_cons_iff.mp h.1
  obtain ⟨b,es,rfl,hb,hes⟩ := List.map_eq_cons_iff.mp hes
  obtain rfl := List.map_eq_nil_iff.mp hes
  exact ⟨a,b,rfl,ha,hb⟩

/-- Literals, names and enum values, whatever is declared. A tag that takes the place of a constant is a
word like any other number if all tags are. -/
def Plain (S : Site) : Expr → Prop
  | .int _ v => S.env.Sized → inWordRange v = true
  | .name n _ sym => ∃ s, sym = some s ∧ n.type = some s.type ∧
      (s.IsVariable S.slots ∨ s.IsConstant S.env S.strict)
  | .enum _ o v tag => ∃ d i, S.env.enum? o = some d ∧ d.tag? v = some i ∧ tag = some i
  | _ => True

def CallSound (S : Site) (type : Option Ty) (ts : List Ty) : Callee → Prop
  | .unresolved _ => False
  | .user f => ∃ sig, S.env.function? f = some sig ∧
      List.Forall₂ (fun t u => t.compatible u = true) sig.params ts ∧
      type = some (sig.result.getD .void)
  | .builtin b => ∃ r, b.result ts = .ok r ∧ type = some r
  | .host h => h ∈ HostFunction.all ∧
      List.Forall₂ (fun t u => t.compatible u = true) h.params ts ∧
      type = some (h.result.getD .void)

def wrapType (w : Wrapper) (t : Ty) : Ty :=
  match w with
  | .some => .option t
  | .ok => .result t
  | .err => .result .hole

def PatternFits (env : Check.Env) (subject : Ty) : PatternForm → Prop
  | .enum owner v => ∃ d tag, env.enum? owner = some d ∧ d.tag? v = some tag ∧ subject = .enum d.name
  | .int v => inWordRange v = true ∧ subject.isNumeric = true
  | p => (Check.patternFits p subject).1 = true

/-- The name that a pattern introduces has a slot of the right type. -/
def PatternSound (S : Site) (subject : Ty) (p : PatternForm) : Prop :=
  PatternFits S.env subject p ∧ ∀ b, p.binder? = some b →
    ∃ i, b.slot = some i ∧ S.slots[i]? = some (Check.patternFits p subject).2

def Sound (S : Site) : Expr → Prop
  | .int n _ => ∃ t, n.type = some t ∧ (t.isNumeric || t.isEnum) = true
  | .bool n _ => n.type = some .boolean
  | .text n _ => n.type = some .string
  | .name _ _ _ => True
  | .unary n op e => ∃ t r, e.type = some t ∧ op.type? t = some r ∧ n.type = some r
  | .binary n op a b =>
    ∃ s t r, a.type = some s ∧ b.type = some t ∧ op.type? s t = some r ∧ n.type = some r
  | .call n f args => ∃ ts, Args args ts ∧ CallSound S n.type ts f
  | .method n e _ args b =>
    ∃ op ts r, b = some op ∧ Args (e :: args) ts ∧ op.result ts = .ok r ∧ n.type = some r
  | .array n es => (∃ t, n.type = some (.array t)) ∧ ∃ ts, Args es ts
  | .index n a i => ∃ t u, a.type = some (.array t) ∧ i.type = some u ∧ u.isNumeric = true ∧
      n.type = some t
  | .field n e f => ∃ r d fd, e.type = some (.record r) ∧ S.env.record? r = some d ∧
      d.fields.find? (·.name = f) = some fd ∧ n.type = some fd.type
  | .record n x fs => ∃ d, S.env.record? x = some d ∧ n.type = some (.record d.name) ∧
      ∀ f ∈ fs, ∃ fd, d.fields.find? (·.name = f.name) = some fd ∧ Gives f.value fd.type
  | .wrap n w e => ∃ t, e.type = some t ∧ t ≠ .void ∧ n.type = some (wrapType w t)
  | .noneLit n => n.type = some (.option .hole)
  | .enum n o _ _ => ∃ d, S.env.enum? o = some d ∧ n.type = some (.enum d.name)
  | .select n e as => ∃ t r, e.type = some t ∧ Check.isMatchable t = true ∧ n.type = some r ∧
      ∀ a ∈ as, PatternSound S t a.pattern.form ∧ ∃ u, a.body.type = some u ∧ u.Agrees r
  | .block n _ none d => n.type = some (if d then .hole else .void)
  | .block n _ (some e) _ => n.type = e.type

def Site.result (S : Site) : Option Ty := S.env.current.bind (·.result)

def StmtSound (S : Site) (l : Bool) : Stmt → Prop
  | .bind _ _ _ e slot => ∃ i t, slot = some i ∧ S.slots[i]? = some t ∧ t.isSolid = true ∧ Gives e t
  | .assign _ (.name n _ sym) e => ∃ s, sym = some s ∧ s.IsVariable S.slots ∧
      s.type.isSolid = true ∧ n.type = some s.type ∧ Gives e s.type
  | .assign _ t e => Build.isPlace t = true ∧ ∃ u, t.type = some u ∧ Gives e u
  | .ret _ none => S.result = none
  | .ret _ (some e) => ∃ t, S.result = some t ∧ Gives e t
  | .expr _ _ => True
  | .cond _ _ => True
  | .loop _ e _ => Gives e .boolean
  | .each _ _ e _ slot => ∃ i t, slot = some i ∧ S.slots[i]? = some t ∧
      e.type = some (.array t) ∧ t ≠ .hole
  | .leave _ | .next _ => l = true

theorem stmtSound_assign {p : Pos} {a : Expr}
    (h : a.isName = false) (hp : Build.isPlace a = true) (ht : a.type = some t) (he : Gives e t) :
    StmtSound S l (.assign p a e) := by
  cases a <;> first | exact ⟨hp,t,ht,he⟩ | cases h

def rule (S : Site) : Rule where
  expr e := Plain S e ∧ (S.strict → Noted e ∧ Sound S e)
  stmt l s := S.strict → StmtSound S l s
  guard e := S.strict → Gives e .boolean

theorem solid_of_every (h : e.Every (rule S) l)
    (hs : S.strict) (ht : e.type = some t) : t = .void ∨ t.isSolid = true := by
  obtain ⟨u,hu,hsolid⟩ := (h.head.2 hs).1
  exact Option.some.inj (hu.symm.trans ht) ▸ hsolid

theorem ne_error_of_rule (h : (rule S).expr e) (hs : S.strict)
    (ht : e.type = some t) : t ≠ .error := by
  obtain ⟨u,hu,hsolid⟩ := (h.2 hs).1
  cases hu.symm.trans ht
  rcases hsolid with rfl | hsolid
  · simp
  · exact Ty.ne_error_of_isSolid hsolid

theorem ne_error_of_every (h : e.Every (rule S) l)
    (hs : S.strict) (ht : e.type = some t) : t ≠ .error :=
  ne_error_of_rule h.head hs ht

end Typing

end Covenant
