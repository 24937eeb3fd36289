import Covenant.Proofs.Scoping.Program
import Covenant.Proofs.Scoping.Tracing
import Covenant.Proofs.Typing.Complete

/-! Variables whose type is not settled. Parameters and `let` variables never have one; a `for` variable or a
name in a pattern has one just if what it is taken from has one. -/

namespace Covenant

namespace Scoping

/-- The names in the patterns of some arms have types without holes. -/
def SettledIn (t : Ty) (as : List Arm) : Prop :=
  ∀ a ∈ as, a.pattern.form.binder?.isSome = true → (binderType a.pattern.form t).hasHole = false

/-- Every variable that a node declares has a type without holes. -/
def settledVars : Rule where
  expr e := match e with
    | .select _ e as => SettledIn (typeOf e) as
    | _ => True
  stmt _ s := match s with
    | .bind _ _ d e _ => (d.getD (typeOf e)).hasHole = false
    | .each _ _ e _ _ => (elementOf (typeOf e)).hasHole = false
    | _ => True
  guard _ := True

/-- The same of `for` variables and of names in patterns alone. -/
def settledSources : Rule where
  expr := settledVars.expr
  stmt _ s := match s with
    | .each _ _ e _ _ => (elementOf (typeOf e)).hasHole = false
    | _ => True
  guard _ := True

def Names.Settled (n : Names) : Prop := ∀ y ∈ n.declared, y.type.hasHole = false

variable {n : Names} {l : Bool}

theorem settled_declare (x : String) (t : Ty) (k : SymbolKind) (m : Bool) :
    (n.declare x t k m).Settled ↔ n.Settled ∧ t.hasHole = false := by
  simp [Names.Settled, Names.declare, or_imp, forall_and]

theorem settled_params (globals : List Symbol) (ps : List Param) :
    (params globals ps).Settled ↔ ∀ p ∈ ps, p.type.hasHole = false := by
  have hfold (n : Names) : (ps.foldl (fun n p => n.declare p.name p.type .param true) n).Settled ↔
      n.Settled ∧ ∀ p ∈ ps, p.type.hasHole = false := by
    induction ps generalizing n with
    | nil => simp
    | cons p ps ih => simp [ih, settled_declare, and_assoc]
  rw [params,hfold]
  simp [Names.Settled]

theorem pattern_settled (t : Ty) (p : Pattern) : (pattern n t p).2.Settled ↔ n.Settled ∧
    ((pattern n t p).1.form.binder?.isSome = true → (binderType (pattern n t p).1.form t).hasHole = false) := by
  unfold pattern
  cases hb : p.form.binder? with
  | none => simp [hb]
  | some b =>
    obtain ⟨pos,form⟩ := p
    have hkept : ((form.setBinder ⟨b.name,n.next⟩).binder?.isSome = true ∧
        binderType (form.setBinder ⟨b.name,n.next⟩) t = binderType form t) := by
      cases form <;> first | (cases hb; done) | (cases t <;> exact ⟨rfl,rfl⟩)
    rw [settled_declare]
    simp only [hkept.1, hkept.2, forall_const]

theorem settled_traces : Traces settledVars
    (fun t p => p.form.binder?.isSome = true → (binderType p.form t).hasHole = false)
    (fun n m A => m.Settled ↔ n.Settled ∧ A) where
  here _ := (and_iff_left trivial).symm
  andThen h h' := by rw [h',h,and_assoc]
  leave h := h
  name _ _ := (and_iff_left trivial).symm
  pattern _ := pattern_settled
  bind _ _ _ x _ _ _ := settled_declare x _ _ _
  each _ _ _ x _ _ _ := settled_declare x _ _ _
  select _ _ _ := Iff.rfl
  expr {e} h := by cases e <;> trivial
  stmt {_ s} h := by cases s <;> trivial
  guard _ := trivial

end Scoping

open Scoping Typing

theorem FunctionDecl.Resolved.settled_iff {globals : List Symbol} {d : FunctionDecl} (h : d.Resolved globals) :
    (∀ t ∈ d.slots, t.hasHole = false) ↔
      (∀ p ∈ d.params, p.type.hasHole = false) ∧ d.body.Every settledVars false := by
  obtain ⟨n,hrun,-,-,htypes⟩ := h
  have hslots : (∀ t ∈ d.slots, t.hasHole = false) ↔ n.Settled := by
    rw [← htypes,List.forall_mem_map]
    exact Iff.rfl
  rw [hslots,Block.every_iff,stmts_traced settled_traces _ false hrun,settled_params]

theorem settled_join (env : Check.Env) : (ensured env Ty.isProper).Join settledSources settledVars where
  expr _ _ h := h
  stmt l s h h' := by
    cases s with
    | bind p x d e slot =>
      cases d with
      | some u => exact Ty.hasHole_of_isProper (Check.Env.Resolved.isProper h fun _ => id)
      | none =>
        show (typeOf e).hasHole = false
        unfold typeOf
        cases htype : e.type with
        | none => rfl
        | some t => exact h t htype
    | each => exact h'
    | _ => trivial
  guard _ _ _ := trivial

theorem sources_join : settledVars.Join settledVars settledSources where
  expr _ h _ := h
  stmt l s h _ := by
    cases s with
    | each => exact h
    | _ => trivial
  guard _ _ _ := trivial

/-- What is gone through is an array, and not one of which nothing at all is known. -/
def iteratesKnown : Rule where
  expr _ := True
  stmt _ s := match s with
    | .each _ _ e _ _ => ∃ t, e.type = some (.array t) ∧ t ≠ .hole
    | _ => True
  guard _ := True

theorem iterates_join {S : Site} (hs : S.strict) : (rule S).Join (rule S) iteratesKnown where
  expr _ _ _ := trivial
  stmt l s h _ := by
    cases s with
    | each p x e b slot =>
      obtain ⟨i,t,-,-,ht,hne⟩ := h hs
      exact ⟨t,ht,hne⟩
    | _ => trivial
  guard _ _ _ := trivial

/-- Where a variable of an accepted program can have a type with a hole in it. The parameters have none, and
a `let` adds none: all slots of a function are without holes if and only if the elements of all arrays that its
`for` statements go through, and whatever its patterns give a name to, have types without holes. A `for`
variable is never entirely open, though it can be inside. -/
theorem Program.slots_settled (policy : Policy) (p : Program) (hwritten : p.Written)
    (haccepted : (p.check policy).accepted = true) : ∀ d ∈ (p.check policy).program.functions,
      (∀ x ∈ d.params, x.type.hasHole = false) ∧
      ((∀ t ∈ d.slots, t.hasHole = false) ↔ d.body.Every settledSources false) ∧
      d.body.Every iteratesKnown false := by
  intro d hd
  have hensured := Program.check_ensured (Program.formed_isProper.mpr hwritten) (fun _ h => h) haccepted
  have hbody := ((check_typed haccepted).1.functions d hd).body
  have hparams (x : Param) (hx : x ∈ d.params) : x.type.hasHole = false := by
    have hresolved := hensured.settled.params _ (List.mem_map_of_mem hd) _ (List.mem_map_of_mem hx)
    exact Ty.hasHole_of_isProper (hresolved.isProper fun _ => id)
  refine ⟨hparams,?_,hbody.join (iterates_join hwritten) hbody⟩
  rw [(check_resolved haccepted d hd).settled_iff]
  constructor
  · rintro ⟨-,hvars⟩
    exact hvars.join sources_join hvars
  · intro hsources
    exact ⟨hparams,(hensured.functions d hd).join (settled_join _) hsources⟩

/-- `fn run() -> Integer { for xs in [[]] { xs.push(1); xs.push("a"); } return 0; }` -/
def mixing : Program :=
  let pos : Pos := .unknown
  let note : Note := ⟨pos, none⟩
  let push (e : Expr) : Stmt := .expr pos (.method note (.name note "xs" none) "push" [e] none)
  ⟨pos, [.function ⟨pos, "run", [], some .integer, .mk pos
      [.each pos "xs" (.array note [.array note []]) (.mk pos [push (.int note 1), push (.text note "a")]) none,
        .ret pos (some (.int note 0))], []⟩], none⟩

/-- A loop variable takes a number and a text into one array, since nothing is known of its elements. -/
theorem mixing_unsettled : (mixing.check .warn).accepted = true ∧
    (mixing.check .warn).program.functions.map (·.slots) = [[.array .hole]] := by
  decide +kernel

theorem drawing_written : drawing.Written :=
  Program.formed_isProper.mp (drawing_formed.mono fun _ => Ty.isProper_of_isNamed)

theorem slots_settled_drawing : (drawing.check .warn).accepted = true ∧
    ∃ d ∈ (drawing.check .warn).program.functions, d.slots.length = 4 ∧
      (∀ t ∈ d.slots, t.hasHole = false) ∧ d.body.Every settledSources false := by
  have haccepted : (drawing.check .warn).accepted = true := by decide +kernel
  have hslots : (drawing.check .warn).program.functions.map (·.slots) =
      [[.integer, .option (.record "Pen"), .integer, .record "Pen"]] := by decide +kernel
  obtain ⟨d,hd,hslots⟩ := List.map_eq_singleton_iff.mp hslots
  have hmem : d ∈ (drawing.check .warn).program.functions := by rw [hd]; exact .head _
  obtain ⟨-,hsettled,-⟩ := Program.slots_settled .warn drawing drawing_written haccepted d hmem
  have hall : ∀ t ∈ d.slots, t.hasHole = false := by
    rw [hslots]
    decide
  exact ⟨haccepted,d,hmem,by rw [hslots]; rfl,hall,hsettled.mp hall⟩

end Covenant
