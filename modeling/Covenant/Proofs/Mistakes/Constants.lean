import Covenant.Proofs.Mistakes.Statements
import Covenant.Proofs.Typing.Annotating
import Covenant.Proofs.Typing.Functions

/-! A mistake in the initializer of a constant. The constant has no value then, and neither has any other
that is computed from it: each of those is reported once more. -/

namespace Covenant

namespace Expr

def inputs : Expr → List String
  | .name _ x _ => [x]
  | .unary _ _ e => e.inputs
  | .binary _ _ a b => a.inputs ++ b.inputs
  | _ => []

/-- Literals, names, enum values and operators on them. -/
def isFormula : Expr → Bool
  | .int _ _ | .bool _ _ | .text _ _ | .name _ _ _ | .enum _ _ _ _ => true
  | .unary _ _ e => e.isFormula
  | .binary _ _ a b => a.isFormula && b.isFormula
  | _ => false

theorem inputs_bare (e : Expr) : e.bare.inputs = e.inputs := by
  cases e with
  | unary _ _ e => exact inputs_bare e
  | binary _ _ a b => exact congrArg₂ (· ++ ·) (inputs_bare a) (inputs_bare b)
  | block _ _ tail => cases tail <;> rfl
  | _ => rfl

theorem isFormula_bare (e : Expr) : e.bare.isFormula = e.isFormula := by
  cases e with
  | unary _ _ e => exact isFormula_bare e
  | binary _ _ a b => exact congrArg₂ (· && ·) (isFormula_bare a) (isFormula_bare b)
  | block _ _ tail => cases tail <;> rfl
  | _ => rfl

variable {f g : String → Option Value}

theorem isFormula_of_constant? {e : Expr} {v : Value} (h : e.constant? f = some v) : e.isFormula = true := by
  cases e with
  | unary _ op e =>
    cases he : e.constant? f with
    | none => simp [constant?, he] at h
    | some a => exact isFormula_of_constant? (e := e) he
  | binary _ op a b =>
    cases ha : a.constant? f with
    | none => simp [constant?, ha] at h
    | some x =>
      cases hb : b.constant? f with
      | none => simp [constant?, ha, hb] at h
      | some y => simp [isFormula, isFormula_of_constant? ha, isFormula_of_constant? hb]
  | int | bool | text | name | enum => rfl
  | _ => simp [constant?] at h

theorem constant?_congr {e : Expr} (h : ∀ y ∈ e.inputs, f y = g y) : e.constant? f = e.constant? g := by
  cases e with
  | name _ x _ => exact h x (.head _)
  | unary _ op e => simp only [constant?, constant?_congr (e := e) h]
  | binary _ op a b =>
    simp only [constant?, constant?_congr (e := a) fun y hy => h y (List.mem_append_left _ hy),
      constant?_congr (e := b) fun y hy => h y (List.mem_append_right _ hy)]
  | _ => rfl

theorem Mistaken.mem_inputs {x : String} : ∀ {e e' : Expr}, e.Mistaken x e' → e.isFormula = true → x ∈ e'.inputs
  | _, _, .here _ _, _ => .head _
  | .unary _ _ _, _, .unary h, hf => h.mem_inputs hf
  | .binary _ _ _ _, _, .left h, hf => List.mem_append_left _ (h.mem_inputs (Bool.and_eq_true_iff.mp hf).1)
  | .binary _ _ _ _, _, .right h, hf => List.mem_append_right _ (h.mem_inputs (Bool.and_eq_true_iff.mp hf).2)

theorem constant?_eq_none {x : String} (hx : f x = none) {e : Expr} (h : x ∈ e.inputs) : e.constant? f = none := by
  cases e with
  | name _ y _ =>
    obtain rfl : x = y := by simpa [inputs] using h
    exact hx
  | unary _ op e => simp only [constant?, constant?_eq_none hx (e := e) h]
  | binary _ op a b =>
    rcases List.mem_append.mp h with h | h
    · simp only [constant?, constant?_eq_none hx (e := a) h]
    · simp only [constant?, constant?_eq_none hx (e := b) h]
      cases a.constant? f <;> rfl
  | _ => cases h

end Expr

namespace Check

variable {x : String} {env : Env}

def Alike (s s' : State) : Prop :=
  ∀ y, (s'.scope.get? y).map (·.type) = (s.scope.get? y).map (·.type)

variable {c : ConstDecl} {a e : Expr}

theorem needValue_run {m : Checking Typed} {s t : State} {u : Ty} (pos : Pos)
    (h : m.run s = ((e,u),t)) (hu : u ≠ .void) : (needValue pos m).run s = ((e,u),t) := by
  refine (run_bind h).trans ?_
  dsimp only
  rw [if_neg hu]
  rfl

theorem name_run (n : Note) {y : String} (sym : Option Symbol) {s : State} {a : Symbol}
    (h : s.scope.get? y = some a) :
    (expr env (.name n y sym)).run s = ((.name (n.typed a.type) y (some a),a.type),s) := by
  have hlookup : (lookup y).run s = (some a,s) := by
    rw [← h]
    rfl
  rw [expr]
  exact run_bind hlookup

theorem unary_run {n : Note} {op : UnaryOp} {s t : State} {u r : Ty}
    (h : (expr env e).run s = ((a,u),t)) (hu : u ≠ .void) (hr : op.type? u = some r) :
    (expr env (.unary n op e)).run s = ((.unary (n.typed r) op a,r),t) := by
  rw [expr,run_bind (needValue_run e.pos h hu)]
  dsimp only
  rw [hr]
  rfl

theorem binary_run {n : Note} {op : BinaryOp} {d b : Expr} {s t w : State} {u v r : Ty}
    (he : (expr env e).run s = ((a,u),t)) (hu : u ≠ .void) (hd : (expr env d).run t = ((b,v),w))
    (hv : v ≠ .void) (hr : op.type? u v = some r) :
    (expr env (.binary n op e d)).run s = ((.binary (n.typed r) op a b,r),w) := by
  rw [expr,run_bind (needValue_run e.pos he hu)]
  dsimp only
  rw [run_bind (needValue_run d.pos hd hv)]
  dsimp only
  rw [hr]
  rfl

/-- A formula is checked alike in states that are alike; its names are all in scope. -/
theorem formula_accepted : ∀ {e : Expr}, e.isFormula = true → ∀ {s u : State} {r : Typed},
    ExprAccepted env s e r u → u = s ∧ (∀ y ∈ e.inputs, (s.scope.get? y).isSome = true) ∧
      ∀ s', Alike s s' → ∃ a, (expr env e).run s' = ((a,r.2),s') ∧ ∀ f, a.constant? f = r.1.constant? f
  | .int _ _, _ => fun h => by
    cases h with | int hv =>
    refine ⟨rfl,nofun,fun s' _ => ⟨_,?_,fun _ => rfl⟩⟩
    rw [expr,if_pos hv]
    rfl
  | .bool _ _, _ | .text _ _, _ => fun h => by
    cases h
    exact ⟨rfl,nofun,fun s' _ => ⟨_,by rw [expr]; rfl,fun _ => rfl⟩⟩
  | .enum _ _ _ _, _ => fun h => by
    cases h with | enum hd hi =>
    refine ⟨rfl,nofun,fun s' _ => ⟨_,?_,fun _ => rfl⟩⟩
    rw [expr,enumTag,hd]
    dsimp only
    rw [hi]
    rfl
  | .name n y sym, _ => fun h => by
    cases h with | name hy =>
    refine ⟨rfl,by simp [Expr.inputs, hy],fun s' halike => ?_⟩
    have htype := halike y
    rw [hy] at htype
    obtain ⟨b,hb,htype⟩ := Option.map_eq_some_iff.mp htype
    refine ⟨.name (n.typed b.type) y (some b),?_,fun _ => rfl⟩
    rw [name_run n sym hb,htype]
  | .unary _ _ e, hf => fun h => by
    cases h with | unary he ht hr =>
    obtain ⟨rfl,hinputs,halike⟩ := formula_accepted (e := e) hf he
    refine ⟨rfl,hinputs,fun s' hs' => ?_⟩
    obtain ⟨a',hrun,hconst⟩ := halike s' hs'
    exact ⟨_,unary_run hrun ht hr,fun f => by simp only [Expr.constant?, hconst]⟩
  | .binary _ _ _ _, hf => fun h => by
    cases h with | binary he ht hd ht' hr =>
    obtain ⟨hf,hf'⟩ := Bool.and_eq_true_iff.mp hf
    obtain ⟨rfl,hinputs,halike⟩ := formula_accepted hf he
    obtain ⟨rfl,hinputs',halike'⟩ := formula_accepted hf' hd
    refine ⟨rfl,List.forall_mem_append.mpr ⟨hinputs,hinputs'⟩,fun s' hs' => ?_⟩
    obtain ⟨a',hrun,hconst⟩ := halike s' hs'
    obtain ⟨b',hrun',hconst'⟩ := halike' s' hs'
    exact ⟨_,binary_run hrun ht hrun' ht' hr,fun f => by simp only [Expr.constant?, hconst, hconst']⟩

theorem expr_absent {s : State} (hnone : s.scope.get? x = none) (pos : Pos) :
    (expr env (.name ⟨pos,none⟩ x none)).run s =
      ((.name ⟨pos,some .error⟩ x none,.error),{ s with errors := s.errors ++ [⟨.undefinedName x,pos⟩] }) := by
  have hlookup : (lookup x).run s = (none,s) := by
    rw [← hnone]
    rfl
  rw [expr]
  exact run_bind hlookup

theorem mistaken_formula {e e' : Expr} {s u : State} {r : Typed} (hm : e.Mistaken x e') (hf : e.isFormula = true)
    (haccepted : ExprAccepted env s e r u) (s' : State) (halike : Alike s s') (hnone : s'.scope.get? x = none) :
    ∃ a pos, (expr env e').run s' =
      ((a,.error),{ s' with errors := s'.errors ++ [⟨.undefinedName x,pos⟩] }) ∧ x ∈ a.inputs := by
  cases hm with
  | here pos => exact ⟨.name ⟨pos,some .error⟩ x none,pos,expr_absent hnone pos,.head _⟩
  | unary h =>
    cases haccepted with | unary he _ _ =>
    obtain ⟨a,pos,hrun,hmem⟩ := mistaken_formula h hf he s' halike hnone
    exact ⟨_,pos,unary_run hrun (by simp) rfl,hmem⟩
  | left h =>
    cases haccepted with | binary he _ hd ht _ =>
    obtain ⟨hf,hf'⟩ := Bool.and_eq_true_iff.mp hf
    obtain ⟨rfl,-⟩ := formula_accepted hf he
    obtain ⟨a,pos,hrun,hmem⟩ := mistaken_formula h hf he s' halike hnone
    obtain ⟨b,hrun',-⟩ := (formula_accepted hf' hd).2.2
      { s' with errors := s'.errors ++ [⟨.undefinedName x,pos⟩] } halike
    exact ⟨_,pos,binary_run hrun (by simp) hrun' ht rfl,List.mem_append_left _ hmem⟩
  | @right _ op _ _ _ h =>
    cases haccepted with | binary he ht hd _ _ =>
    obtain ⟨hf,hf'⟩ := Bool.and_eq_true_iff.mp hf
    obtain ⟨rfl,-,hleft⟩ := formula_accepted hf he
    obtain ⟨a,hrun,-⟩ := hleft s' halike
    obtain ⟨b,pos,hrun',hmem⟩ := mistaken_formula h hf' hd s' halike hnone
    have hlost (t : Ty) : op.type? t .error = some .error := by simp [BinaryOp.type?]
    exact ⟨_,pos,binary_run hrun ht hrun' (by simp) (hlost _),List.mem_append_right _ hmem⟩
  | _ => cases hf

/-- The symbols of two constants, of which the second has no value if it is lost. -/
structure Loses (V : String → Prop) (a b : Symbol) : Prop where
  name : b.name = a.name
  type : b.type = a.type
  isMutable : b.isMutable = a.isMutable
  kind : b.kind = a.kind
  lost : V a.name → b.value = none
  kept : ¬ V a.name → b.value = a.value

/-- Two states between constants, the second without the values of the constants in `V`. -/
structure Forgets (x : String) (V : String → Prop) (s s' : State) : Prop where
  globals : List.Forall₂ (Loses V) s.scope.globals s'.scope.globals
  known : ∀ y, V y → (s.scope.findGlobal? y).isSome = true
  absent : ∀ y ∈ s.scope.globals, y.name ≠ x
  frames : s.scope.frames = [] ∧ s'.scope.frames = []
  loops : s'.loops = s.loops
  warnings : s'.warnings = s.warnings
  stray : s'.strayReturn = s.strayReturn

theorem reportIf_run (bad : Bool) (p : Problem) (pos : Pos) (s : State) :
    (reportIf bad p pos).run s = ((),{ s with errors := s.errors ++ if bad then [⟨p,pos⟩] else [] }) := by
  cases bad with
  | true => rfl
  | false => exact congrArg (fun es => ((),{ s with errors := es })) (List.append_nil s.errors).symm

theorem constant_run (found : List Diagnostic) {s : State} {d t : Ty}
    (hnew : (s.scope.findGlobal? c.name).isSome = false) (hd : env.resolve c.type = .ok d)
    (hrun : (expr env c.value).run { s with scope := s.scope.beginFunction.push false } =
      ((a,t),{ s with scope := s.scope.beginFunction.push false, errors := s.errors ++ found }))
    (ht : t ≠ .void) (hfit : d.compatible t = true) :
    (constant env c).run s = ({ c with type := d, value := a },{ s with
      scope := s.scope.beginFunction.registerGlobal
        ⟨c.name,d,false,.constant,none,a.constant? (constantValue? s)⟩
      errors := s.errors ++ found ++ if (a.constant? (constantValue? s)).isNone && t ≠ .error then
        [⟨.notConstant c.name,c.pos⟩] else [] }) := by
  have hresolve : (resolveType env c.type c.pos).run s = (d,s) := by
    rw [resolveType,hd]
    rfl
  have hframe : (inFrame false (needValue c.value.pos (expr env c.value))).run
      { s with scope := s.scope.beginFunction } =
        ((a,t),{ s with scope := s.scope.beginFunction, errors := s.errors ++ found }) := by
    refine (run_bind (m := pushFrame false) rfl).trans ?_
    exact run_bind (needValue_run c.value.pos hrun ht)
  have hfits : (reportIf (!d.compatible t) (.constantType c.name d t) c.pos).run
      { s with scope := s.scope.beginFunction, errors := s.errors ++ found } =
        ((),{ s with scope := s.scope.beginFunction, errors := s.errors ++ found }) := by
    rw [hfit]
    rfl
  refine (run_bind (m := get) rfl).trans ?_
  simp only [hnew, Bool.false_eq_true, if_false]
  refine (run_bind hresolve).trans ((run_bind (m := modify _) rfl).trans ?_)
  refine (run_bind hframe).trans ((run_bind hfits).trans ((run_bind (m := get) rfl).trans ?_))
  exact run_bind (reportIf_run _ _ _ _)

/-- What a constant in which nothing is found is made of. -/
structure Sound (env : Env) (s : State) (c : ConstDecl) (d t : Ty) (a : Expr) (v : Value) : Prop where
  new : (s.scope.findGlobal? c.name).isSome = false
  declared : env.resolve c.type = .ok d
  run : (expr env c.value).run { s with scope := s.scope.beginFunction.push false } =
    ((a,t),{ s with scope := s.scope.beginFunction.push false })
  accepted : ExprAccepted env { s with scope := s.scope.beginFunction.push false } c.value (a,t)
    { s with scope := s.scope.beginFunction.push false }
  formula : c.value.isFormula = true
  inputs : a.inputs = c.value.inputs
  ne_void : t ≠ .void
  ne_error : t ≠ .error
  fits : d.compatible t = true
  value : a.constant? (constantValue? s) = some v

theorem ConstantAccepted.made (henv : env.Proper) {c' : ConstDecl} {s u : State}
    (h : ConstantAccepted env s c c' u) (hw : c.type.isProper = true ∧ c.value.Every written false)
    (hs : Fresh True env s) : ∃ d t a v, Sound env s c d t a v := by
  obtain @⟨d,t,e,r,hnew,hd,hrun,he,hvoid,hfit,hsome⟩ := h
  have hpost := he.sound (fun _ => henv) (hs.1.push false) fun _ => hw.2
  have hne : t ≠ .error := Ty.ne_error_of_isSolid (hpost.solid hvoid trivial)
  obtain ⟨v,hv⟩ := Option.isSome_iff_exists.mp (hsome.resolve_right hne)
  have hformula : c.value.isFormula = true := by
    rw [← Expr.isFormula_bare,← he.kept,Expr.isFormula_bare]
    exact Expr.isFormula_of_constant? hv
  obtain ⟨rfl,-⟩ := formula_accepted hformula he
  refine ⟨d,t,e,v,by simp [hnew],hd,hrun,he,hformula,?_,hvoid,hne,hfit,hv⟩
  rw [← Expr.inputs_bare e,he.kept,Expr.inputs_bare]

section Forgets

variable {V : String → Prop} {s s' : State}

namespace Forgets

theorem isSome_findGlobal? (h : Forgets x V s s') (y : String) :
    (s'.scope.findGlobal? y).isSome = (s.scope.findGlobal? y).isSome := by
  have hrel := Symbol.find?_rel (fun _ _ h => h.name) h.globals y
  simp only [Scope.findGlobal?]
  generalize s.scope.globals.find? _ = a, s'.scope.globals.find? _ = b at hrel
  cases hrel <;> rfl

theorem constantValue? (h : Forgets x V s s') (y : String) :
    (V y → constantValue? s' y = none) ∧ (¬ V y → Check.constantValue? s' y = Check.constantValue? s y) := by
  have hrel := Symbol.find?_rel (fun _ _ h => h.name) h.globals y
  have hname : ∀ a ∈ s.scope.globals.find? (·.name = y), a.name = y := fun a ha => by
    simpa using List.find?_some ha
  simp only [Check.constantValue?, Scope.findGlobal?]
  generalize s.scope.globals.find? _ = a, s'.scope.globals.find? _ = b at hrel hname
  cases hrel with
  | none => exact ⟨fun _ => rfl,fun _ => rfl⟩
  | @some a b hab =>
    obtain rfl := hname a rfl
    exact ⟨hab.lost,hab.kept⟩

theorem alike (h : Forgets x V s s') : Alike { s with scope := s.scope.beginFunction.push false }
    { s' with scope := s'.scope.beginFunction.push false } := by
  intro y
  have hrel := Symbol.find?_rel (fun _ _ h => h.name) h.globals y
  have hglobal (c : Scope) : (c.beginFunction.push false).get? y = c.globals.find? (·.name = y) := rfl
  simp only [hglobal]
  generalize s.scope.globals.find? _ = a, s'.scope.globals.find? _ = b at hrel
  cases hrel with
  | none => rfl
  | some hab => exact congrArg some hab.type

theorem findGlobal?_absent (h : Forgets x V s s') : s'.scope.findGlobal? x = none := by
  have hnone : s.scope.findGlobal? x = none := by simpa [Scope.findGlobal?] using h.absent
  have hsome := h.isSome_findGlobal? x
  rw [hnone] at hsome
  exact Option.not_isSome_iff_eq_none.mp (by rw [hsome]; exact Bool.false_ne_true)

theorem register (h : Forgets x V s s') {y : String} (hnew : (s.scope.findGlobal? y).isSome = false)
    (hy : y ≠ x) (d : Ty) {v v' : Option Value} {Q : Prop} (hlost : Q → v' = none) (hkept : ¬ Q → v' = v)
    (es es' : List Diagnostic) :
    Forgets x (fun z => V z ∨ z = y ∧ Q)
      { s with scope := s.scope.beginFunction.registerGlobal ⟨y,d,false,.constant,none,v⟩, errors := es }
      { s' with scope := s'.scope.beginFunction.registerGlobal ⟨y,d,false,.constant,none,v'⟩, errors := es' }
    where
  globals := by
    have hnot : ¬ V y := fun hV => by simpa [hnew] using h.known y hV
    have hother : ∀ a ∈ s.scope.globals, a.name ≠ y := by simpa [Scope.findGlobal?] using hnew
    refine .cons ⟨rfl,rfl,rfl,rfl,fun hV => hlost (hV.resolve_left hnot).2,fun hV =>
      hkept fun hQ => hV (.inr ⟨rfl,hQ⟩)⟩ ?_
    refine ((List.forall₂_and_left _ _).mpr ⟨hother,h.globals⟩).imp fun a b hboth => ?_
    obtain ⟨ha,hab⟩ := hboth
    refine ⟨hab.name,hab.type,hab.isMutable,hab.kind,fun hV => ?_,fun hV => hab.kept fun hV' => hV (.inl hV')⟩
    exact hab.lost (hV.resolve_right fun hy => ha hy.1)
  known := by
    intro z hz
    simp only [Scope.findGlobal?, Scope.registerGlobal, List.find?_cons]
    split
    · rfl
    · rename_i hne
      refine h.known z (hz.resolve_right fun hy => ?_)
      simp [hy.1] at hne
  absent := by
    intro z hz
    rcases List.mem_cons.mp hz with rfl | hz
    · exact hy
    · exact h.absent z hz
  frames := ⟨rfl,rfl⟩
  loops := h.loops
  warnings := h.warnings
  stray := h.stray

end Forgets

variable {v : Value}

theorem Forgets.not_mem_inputs (h : Forgets x V s s') {d t : Ty}
    (hc : Sound env s c d t a v) : x ∉ c.value.inputs := by
  intro hx
  have hnone : s.scope.findGlobal? x = none := by simpa [Scope.findGlobal?] using h.absent
  have hknown : (s.scope.findGlobal? x).isSome = true := (formula_accepted hc.formula hc.accepted).2.1 x hx
  simp [hnone] at hknown

theorem constant_forgets (h : Forgets x V s s') (hx : c.name ≠ x) {d t : Ty} (hc : Sound env s c d t a v) :
    ∃ found, ((constant env c).run s').2.errors = s'.errors ++ found ∧
      Told x 0 (∀ y ∈ c.value.inputs, ¬ V y) found ∧
      Forgets x (fun z => V z ∨ z = c.name ∧ ∃ y ∈ c.value.inputs, V y) ((constant env c).run s).2
        ((constant env c).run s').2 := by
  obtain ⟨a',hrun',hsame⟩ := (formula_accepted hc.formula hc.accepted).2.2 _ h.alike
  have hlost : (∃ y ∈ c.value.inputs, V y) → a'.constant? (Check.constantValue? s') = none := by
    rintro ⟨y,hy,hV⟩
    rw [hsame]
    exact Expr.constant?_eq_none ((h.constantValue? y).1 hV) (hc.inputs ▸ hy)
  have hkept : ¬ (∃ y ∈ c.value.inputs, V y) →
      a'.constant? (Check.constantValue? s') = a.constant? (Check.constantValue? s) := by
    intro hno
    rw [hsame]
    refine Expr.constant?_congr fun y hy => (h.constantValue? y).2 fun hV => hno ⟨y,hc.inputs ▸ hy,hV⟩
  rw [constant_run [] hc.new hc.declared (by rw [List.append_nil]; exact hc.run) hc.ne_void hc.fits,
    constant_run [] (by rw [h.isSome_findGlobal?,hc.new]) hc.declared
      (by rw [List.append_nil]; exact hrun') hc.ne_void hc.fits]
  refine ⟨if (a'.constant? (Check.constantValue? s')).isNone then [⟨.notConstant c.name,c.pos⟩] else [],?_,?_,
    h.register hc.new hx d hlost hkept _ _⟩
  · simp only [List.append_nil, hc.ne_error, ne_eq, not_false_eq_true, decide_true, Bool.and_true]
  · by_cases hno : ∃ y ∈ c.value.inputs, V y
    · rw [hlost hno]
      refine ⟨rfl,by simp [Problem.isLoss],?_⟩
      obtain ⟨y,hy,hV⟩ := hno
      simp only [Option.isNone_none, if_true, List.mem_singleton, forall_eq, Problem.isMistake,
        Bool.false_eq_true, iff_false, not_forall, not_not]
      exact ⟨y,hy,hV⟩
    · rw [hkept hno,hc.value]
      exact .nothing fun y hy hV => hno ⟨y,hy,hV⟩

theorem constant_mistaken (h : Forgets x V s s') (hx : c.name ≠ x) {d t : Ty}
    (hc : Sound env s c d t a v) (he : c.value.Mistaken x e) :
    ∃ found, ((constant env { c with value := e }).run s').2.errors = s'.errors ++ found ∧
      Told x 1 True found ∧ Forgets x (fun z => V z ∨ z = c.name ∧ True) ((constant env c).run s).2
        ((constant env { c with value := e }).run s').2 := by
  obtain ⟨a',pos,hrun',hmem⟩ := mistaken_formula he hc.formula hc.accepted _ h.alike h.findGlobal?_absent
  have hnone : a'.constant? (Check.constantValue? s') = none := by
    refine Expr.constant?_eq_none (x := x) ?_ hmem
    rw [Check.constantValue?,h.findGlobal?_absent]
    rfl
  rw [constant_run [] hc.new hc.declared (by rw [List.append_nil]; exact hc.run) hc.ne_void hc.fits,
    constant_run _ (c := { c with value := e }) (t := .error) (by rw [h.isSome_findGlobal?]; exact hc.new)
      hc.declared hrun' (by simp) (Ty.compatible_error_right d)]
  refine ⟨[⟨.undefinedName x,pos⟩],?_,⟨by simp [Problem.isMistake],by simp [Problem.isMistake],
    by simp [Problem.isMistake]⟩,h.register hc.new hx d (fun _ => hnone) (fun h => (h trivial).elim) _ _⟩
  simp

theorem constant_step (henv : env.Proper)
    (hw : c.type.isProper = true ∧ c.value.Every written false) (hs : s.Clean → Fresh True env s) :
    Ends s (constant env c) fun _ t => (∃ d t a v, Sound env s c d t a v) ∧ Fresh True env t ∧
      t = ((constant env c).run s).2 := by
  intro hc
  obtain ⟨hclean,haccepted⟩ := constant_accepts c hc
  exact ⟨hclean,haccepted.made henv hw (hs hclean),
    (haccepted.sound (fun _ => henv) (fun _ => hw) (hs hclean)).1,rfl⟩

theorem constants_forget (henv : env.Proper) : ∀ {cs : List ConstDecl},
    (∀ c ∈ cs, c.type.isProper = true ∧ c.value.Every written false) → (∀ c ∈ cs, c.name ≠ x) →
    ∀ {s : State}, (s.Clean → Fresh True env s) → Ends s (cs.mapM (constant env)) fun _ u =>
      ∀ V s', Forgets x V s s' → ∃ found W, ((cs.mapM (constant env)).run s').2.errors = s'.errors ++ found ∧
        Told x 0 (∀ c ∈ cs, ∀ y ∈ c.value.inputs, ¬ V y) found ∧
        Forgets x W u ((cs.mapM (constant env)).run s').2 ∧ ∀ c ∈ cs, x ∉ c.value.inputs
  | [], _, _, _, _ => .pure fun _ V _ h => ⟨[],V,(List.append_nil _).symm,.nothing nofun,h,nofun⟩
  | c :: cs, hw, hx, s, hs => by
    rw [List.mapM_cons]
    refine .bind (constant_step henv (hw c (.head _)) hs) fun c' t ht => ?_
    refine .bind (constants_forget henv (fun c hc => hw c (.tail _ hc)) (fun c hc => hx c (.tail _ hc))
      fun hc => (ht hc).2.2.1) fun cs' u hu => .pure fun hc V s' h => ?_
    obtain ⟨hc,hrest⟩ := hu hc
    obtain ⟨-,⟨d,ty,a,v,hsound⟩,-,rfl⟩ := ht hc
    obtain ⟨found,hfound,htold,hforgets⟩ := constant_forgets h (hx c (.head _)) hsound
    obtain ⟨more,W,hmore,htold',hforgets',hinputs⟩ := hrest _ _ hforgets
    refine ⟨found ++ more,W,?_,(htold.append htold').of_iff ?_,hforgets',
      List.forall_mem_cons.mpr ⟨h.not_mem_inputs hsound,hinputs⟩⟩
    · rw [← List.append_assoc,← hfound]
      exact hmore
    -- a later constant that uses a newly lost one comes after one that uses a lost one
    · rw [List.forall_mem_cons]
      refine and_congr_right fun hno => forall₂_congr fun b _ => forall₂_congr fun y _ => not_congr ?_
      exact ⟨fun hV => hV.resolve_right fun ⟨_,z,hz,hV⟩ => hno z hz hV,.inl⟩

/-- No later constant is computed from one with a mistake. -/
def Apart (x : String) (cs : List ConstDecl) : Prop :=
  cs.Pairwise fun c d => x ∈ c.value.inputs → c.name ∉ d.value.inputs

theorem Apart.cons_iff {cs : List ConstDecl} : Apart x (c :: cs) ↔
    (x ∈ c.value.inputs → ∀ d ∈ cs, c.name ∉ d.value.inputs) ∧ Apart x cs := by
  rw [Apart,Apart,List.pairwise_cons]
  exact and_congr_left fun _ => ⟨fun h hx d hd => h d hd hx,fun h d hd hx => h hx d hd⟩

theorem Apart.of_not_mem {cs : List ConstDecl} (h : ∀ c ∈ cs, x ∉ c.value.inputs) : Apart x cs :=
  List.pairwise_of_forall_mem_list fun c hc _ _ hx => absurd hx (h c hc)

theorem constants_mistaken (henv : env.Proper) {c : ConstDecl} {e : Expr} (he : c.value.Mistaken x e)
    {r : List ConstDecl} : ∀ {l : List ConstDecl},
    (∀ b ∈ l ++ c :: r, b.type.isProper = true ∧ b.value.Every written false) →
    (∀ b ∈ l ++ c :: r, b.name ≠ x) → ∀ {s : State}, (s.Clean → Fresh True env s) →
    Ends s ((l ++ c :: r).mapM (constant env)) fun _ u => Forgets x (fun _ => False) s s →
      ∃ found W, (((l ++ { c with value := e } :: r).mapM (constant env)).run s).2.errors = s.errors ++ found ∧
        Told x 1 (Apart x (l ++ { c with value := e } :: r)) found ∧
        Forgets x W u (((l ++ { c with value := e } :: r).mapM (constant env)).run s).2
  | [], hw, hx, s, hs => by
    simp only [List.nil_append, List.mapM_cons]
    refine .bind (constant_step henv (hw c (.head _)) hs) fun c' t ht => ?_
    refine .bind (constants_forget henv (fun c hc => hw c (.tail _ hc)) (fun c hc => hx c (.tail _ hc))
      fun hc => (ht hc).2.2.1) fun cs' u hu => .pure fun hc h => ?_
    obtain ⟨hc,hrest⟩ := hu hc
    obtain ⟨-,⟨d,ty,a,v,hsound⟩,-,rfl⟩ := ht hc
    obtain ⟨found,hfound,htold,hforgets⟩ := constant_mistaken h (hx c (.head _)) hsound he
    obtain ⟨more,W,hmore,htold',hforgets',hinputs⟩ := hrest _ _ hforgets
    refine ⟨found ++ more,W,?_,(htold.append htold').of_iff ?_,hforgets'⟩
    · rw [← List.append_assoc,← hfound]
      exact hmore
    · have hx : x ∈ e.inputs := he.mem_inputs hsound.formula
      rw [Apart.cons_iff,and_iff_left (Apart.of_not_mem hinputs),true_and,forall_prop_of_true hx]
      refine forall₂_congr fun b _ => ⟨fun hno hmem => hno c.name hmem (.inr ⟨rfl,trivial⟩),?_⟩
      rintro hno y hy (hfalse | ⟨rfl,-⟩)
      · exact hfalse
      · exact hno hy
  | b :: l, hw, hx, s, hs => by
    simp only [List.cons_append, List.mapM_cons]
    refine .bind (constant_step henv (hw b (.head _)) hs) fun c' t ht => ?_
    refine .bind (constants_mistaken henv he (fun c hc => hw c (.tail _ hc)) (fun c hc => hx c (.tail _ hc))
      fun hc => (ht hc).2.2.1) fun cs' u hu => .pure fun hc h => ?_
    obtain ⟨hc,hrest⟩ := hu hc
    obtain ⟨hclean,⟨d,ty,a,v,hsound⟩,-,rfl⟩ := ht hc
    obtain ⟨-,-,-,hforgets⟩ := constant_forgets h (hx b (.head _)) hsound
    obtain ⟨found,W,hfound,htold,hforgets'⟩ := hrest (by simpa using hforgets)
    refine ⟨found,W,?_,htold.of_iff ?_,hforgets'⟩
    · rw [hclean.1]
      exact hfound.trans (by rw [hc.1])
    · rw [Apart.cons_iff]
      exact (and_iff_right fun hx => absurd hx (h.not_mem_inputs hsound)).symm

end Forgets

end Check

end Covenant
