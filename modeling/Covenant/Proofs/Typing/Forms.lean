import Covenant.Proofs.Tree.Joining
import Covenant.Proofs.Typing.Program

/-! The types that stand in a program before and after checking. A type that is read is built from names
alone; checking leaves only names that are declared. -/

namespace Covenant

def Check.Env.Resolved (env : Check.Env) (T : Ty → Bool) (u : Ty) : Prop :=
  ∃ t, T t = true ∧ env.resolve t = .ok u

theorem Check.Env.Resolved.isProper {env : Check.Env} {T : Ty → Bool} {u : Ty} (h : env.Resolved T u)
    (hT : ∀ t, T t = true → t.isProper = true) : u.isProper = true := by
  obtain ⟨t,ht,hty⟩ := h
  exact Check.Env.resolve_isProper hty (hT t ht)

/-- A tree as it can be read, with a condition on declared types. -/
def formed (T : Ty → Bool) : Rule where
  expr _ := True
  stmt _ s := match s with
    | .bind _ _ (some t) _ _ => T t = true
    | .assign _ t _ => Build.isPlace t = true
    | _ => True
  guard _ := True

structure FunctionDecl.HeadFormed (T : Ty → Bool) (f : FunctionDecl) : Prop where
  params : ∀ p ∈ f.params, T p.type = true
  result : ∀ t, f.result = some t → T t = true

structure Program.Formed (T : Ty → Bool) (p : Program) : Prop where
  functions : ∀ f ∈ p.functions, f.HeadFormed T ∧ f.body.Every (formed T) false
  records : ∀ r ∈ p.records, ∀ f ∈ r.fields, T f.type = true
  constants : ∀ c ∈ p.constants, T c.type = true ∧ c.value.Every (formed T) false

theorem formed_join {T U : Ty → Bool} (h : ∀ t, T t = true → U t = true) :
    (formed T).Join (formed T) (formed U) where
  expr _ _ _ := trivial
  stmt _ s hs _ := by
    cases s with
    | bind p x d e slot =>
      cases d with
      | none => trivial
      | some t => exact h t hs
    | assign => exact hs
    | _ => trivial
  guard _ _ _ := trivial

theorem Program.Formed.mono {T U : Ty → Bool} {p : Program} (hp : p.Formed T)
    (h : ∀ t, T t = true → U t = true) : p.Formed U where
  functions f hf := by
    obtain ⟨hhead,hbody⟩ := hp.functions f hf
    exact ⟨⟨fun q hq => h _ (hhead.params q hq),fun t ht => h t (hhead.result t ht)⟩,
      hbody.join (formed_join h) hbody⟩
  records r hr f hf := h _ (hp.records r hr f hf)
  constants c hc := by
    obtain ⟨htype,hvalue⟩ := hp.constants c hc
    exact ⟨h _ htype,hvalue.join (formed_join h) hvalue⟩

theorem Program.formed_isProper {p : Program} : p.Formed Ty.isProper ↔ p.Written :=
  ⟨fun h => ⟨fun f hf => ⟨⟨(h.functions f hf).1.params,(h.functions f hf).1.result⟩,(h.functions f hf).2⟩,
      h.records,h.constants⟩,
    fun h => ⟨fun f hf => ⟨⟨(h.functions f hf).1.params,(h.functions f hf).1.result⟩,(h.functions f hf).2⟩,
      h.records,h.constants⟩⟩

namespace Ty

/-- A type as it is written: what is declared has the name of a record, whatever it will turn out to be. -/
def isNamed : Ty → Bool
  | error | void | hole | enum _ => false
  | array t | option t | result t => t.isNamed
  | _ => true

theorem isProper_of_isNamed {t : Ty} (h : t.isNamed = true) : t.isProper = true := by
  induction t with
  | array t ih | option t ih | result t ih => exact ih h
  | error | void | hole | enum => cases h
  | _ => rfl

def hasError : Ty → Bool
  | error => true
  | array t | option t | result t => t.hasError
  | _ => false

theorem hasError_of_isSolid {t : Ty} (h : t.isSolid = true) : t.hasError = false := by
  induction t with
  | array t ih | option t ih | result t ih => exact ih h
  | error | void => cases h
  | _ => rfl

theorem hasHole_of_isProper {t : Ty} (h : t.isProper = true) : t.hasHole = false := by
  induction t with
  | array t ih | option t ih | result t ih => exact ih h
  | error | void | hole => cases h
  | _ => rfl

/-- A type all of whose names are declared, each as what it stands for. -/
def Known (env : Check.Env) : Ty → Prop
  | error | void | hole => False
  | array t | option t | result t => t.Known env
  | record n => env.enum? n = none ∧ (env.record? n).isSome = true
  | enum n => (env.enum? n).isSome = true
  | _ => True

theorem known_of_resolved {env : Check.Env} {u : Ty} (h : env.Resolved isNamed u) : u.Known env := by
  obtain ⟨t,ht,h⟩ := h
  induction t generalizing u with
  | array t ih | option t ih | result t ih =>
    obtain ⟨v,hr,rfl⟩ := Check.Env.resolve_inside h
    exact ih (u := v) ht hr
  | record n =>
    simp only [Check.Env.resolve] at h
    split at h
    · cases h
      assumption
    · split at h <;> cases h
      rename_i hnone hsome
      exact ⟨by simpa using hnone,hsome⟩
  | error | void | hole | enum => cases ht
  | _ =>
    cases h
    trivial

end Ty

end Covenant
