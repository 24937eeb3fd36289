import Covenant.Proofs.Renaming.Simulation
import Covenant.Proofs.Tree.Jumps
import Mathlib.Tactic.Simps.Basic

/-! What it takes to follow two checks of one piece of code, the second of them renamed: a relation that the
single steps of checking obey. The parts of nodes then obey it too. -/

namespace Covenant

@[simps] def Renaming.same : Renaming where
  var x := x
  function x := x
  type x := x
  field x := x
  variant x := x
  place p := p

instance : Renaming.same.Faithful where
  var_injective := Function.injective_id
  function_injective := Function.injective_id
  type_injective := Function.injective_id
  field_injective := Function.injective_id
  variant_injective := Function.injective_id
  entry_fixed := rfl
  reserved_fixed _ _ := rfl
  known_fixed _ _ := rfl

@[simp] theorem Ty.rename_same (t : Ty) : t.rename .same = t := by
  induction t with
  | array t ih | option t ih | result t ih => rw [rename,ih]
  | _ => rfl

@[simp] theorem Ty.rename_same_eq_id : Ty.rename .same = id := funext rename_same

@[simp] theorem Symbol.rename_same_eq_id : Symbol.rename .same = id :=
  funext fun s => by rw [rename,Ty.rename_same]; rfl

@[simp] theorem Note.rename_same (n : Note) : n.rename .same = n := by
  simp [rename]

@[simp] theorem Pattern.rename_same (p : Pattern) : p.rename .same = p := by
  have hbinder : Binder.rename .same = id := rfl
  obtain ⟨pos,form⟩ := p
  cases form <;> simp [rename, PatternForm.rename, hbinder]

@[simp] theorem Callee.rename_same (f : Callee) : f.rename .same = f := by
  cases f <;> rfl

mutual

@[simp] theorem Expr.rename_same : ∀ e : Expr, e.rename .same = e
  | .int _ _ | .bool _ _ | .text _ _ | .noneLit _ | .enum _ _ _ _ => by simp [Expr.rename]
  | .name _ _ _ => by simp [Expr.rename]
  | .unary _ _ e | .field _ e _ | .wrap _ _ e => by simp [Expr.rename, Expr.rename_same e]
  | .binary _ _ a b | .index _ a b => by simp [Expr.rename, Expr.rename_same a, Expr.rename_same b]
  | .call _ _ es | .array _ es => by simp [Expr.rename, Expr.renameIn_same es]
  | .method _ e _ es _ => by simp [Expr.rename, Expr.rename_same e, Expr.renameIn_same es]
  | .record _ _ fs => by simp [Expr.rename, FieldInit.renameIn_same fs]
  | .select _ e as => by simp [Expr.rename, Expr.rename_same e, Arm.renameIn_same as]
  | .block _ ss none _ => by simp [Expr.rename, Stmt.renameIn_same ss]
  | .block _ ss (some e) _ => by simp [Expr.rename, Stmt.renameIn_same ss, Expr.rename_same e]

theorem Expr.renameIn_same : ∀ es : List Expr, Expr.renameIn .same es = es
  | [] => rfl
  | e :: es => by rw [Expr.renameIn,Expr.rename_same e,Expr.renameIn_same es]

theorem FieldInit.renameIn_same : ∀ fs : List FieldInit, FieldInit.renameIn .same fs = fs
  | [] => rfl
  | .mk _ _ e :: fs => by rw [FieldInit.renameIn,Expr.rename_same e,FieldInit.renameIn_same fs]; rfl

theorem Arm.renameIn_same : ∀ as : List Arm, Arm.renameIn .same as = as
  | [] => rfl
  | .mk _ _ e :: as => by rw [Arm.renameIn,Expr.rename_same e,Arm.renameIn_same as,Pattern.rename_same]; rfl

theorem Stmt.rename_same : ∀ s : Stmt, s.rename .same = s
  | .bind _ _ _ e _ | .ret _ (some e) | .expr _ e => by simp [Stmt.rename, Expr.rename_same e]
  | .assign _ t e => by simp [Stmt.rename, Expr.rename_same t, Expr.rename_same e]
  | .ret _ none | .leave _ | .next _ => rfl
  | .cond _ c => by simp [Stmt.rename, Chain.rename_same c]
  | .loop _ e b | .each _ _ e b _ => by simp [Stmt.rename, Expr.rename_same e, Block.rename_same b]

theorem Stmt.renameIn_same : ∀ ss : List Stmt, Stmt.renameIn .same ss = ss
  | [] => rfl
  | s :: ss => by rw [Stmt.renameIn,Stmt.rename_same s,Stmt.renameIn_same ss]

theorem Block.rename_same : ∀ b : Block, b.rename .same = b
  | .mk _ ss => by rw [Block.rename,Stmt.renameIn_same ss]; rfl

theorem Chain.rename_same : ∀ c : Chain, c.rename .same = c
  | .stop => rfl
  | .otherwise b => by rw [Chain.rename,Block.rename_same b]
  | .branch _ e b c => by rw [Chain.rename,Expr.rename_same e,Block.rename_same b,Chain.rename_same c]; rfl

end

@[simp] theorem RecordDecl.rename_same (r : RecordDecl) : r.rename .same = r := by
  have hfield : FieldDecl.rename .same = id := funext fun f => by rw [FieldDecl.rename,Ty.rename_same]; rfl
  simp [rename, hfield]

@[simp] theorem EnumDecl.rename_same (e : EnumDecl) : e.rename .same = e := by
  have hvariant : Renaming.same.variant = id := rfl
  simp [rename, hvariant]

theorem Item.rename_same (i : Item) : i.rename .same = i := by
  have hparam : Param.rename .same = id := funext fun p => by rw [Param.rename,Ty.rename_same]; rfl
  cases i with
  | function f => simp [rename, FunctionDecl.rename, hparam, Block.rename_same]
  | record r => simp [rename]
  | enum e => simp [rename]
  | constant c => simp [rename, ConstDecl.rename]

theorem Program.rename_same (p : Program) : p.rename .same = p := by
  rw [rename,funext Item.rename_same,List.map_id']
  rfl

theorem Problem.rename_same (p : Problem) : p.rename .same = p := by
  have hfield : Renaming.same.field = id := rfl
  cases p <;> simp [rename, hfield]

theorem Caution.rename_same (c : Caution) : c.rename .same = c := by
  cases c <;> rfl

namespace Check

variable {ρ : Renaming} {env env' : Env}
variable {b : Builtin} {ts : List Ty}

/-- Two environments that say the same of every name, up to the renaming. -/
structure Env.Alike (ρ : Renaming) (env env' : Env) : Prop where
  current : env'.current = env.current.map (Current.rename ρ)
  function? : ∀ f, env'.function? (ρ.function f) = (env.function? f).map (Signature.rename ρ)
  record? : ∀ n, env'.record? (ρ.type n) = (env.record? n).map (RecordDecl.rename ρ)
  enum? : ∀ n, env'.enum? (ρ.type n) = (env.enum? n).map (EnumDecl.rename ρ)

theorem Env.alike_rename [ρ.Faithful] (env : Env) (policy : Policy) : env.Alike ρ (env.rename ρ policy) where
  current := rfl
  function? f :=
    find?_rename (f := Signature.rename ρ) (g := Signature.name) ρ.function_injective (fun _ => rfl) f _
  record? n :=
    find?_rename (f := RecordDecl.rename ρ) (g := RecordDecl.name) ρ.type_injective (fun _ => rfl) n env.records
  enum? n :=
    find?_rename (f := EnumDecl.rename ρ) (g := EnumDecl.name) ρ.type_injective (fun _ => rfl) n env.enums

theorem Env.alike_same (hcurrent : env'.current = env.current) (hfunctions : ∀ f, env'.function? f = env.function? f)
    (hrecords : ∀ n, env'.record? n = env.record? n) (henums : ∀ n, env'.enum? n = env.enum? n) :
    env.Alike .same env' where
  current := by
    have hsame : Current.rename .same = id := funext fun c => by simp [Current.rename]
    rw [hsame,Option.map_id,hcurrent]
    rfl
  function? f := by
    have hsame : Signature.rename .same = id := funext fun s => by simp [Signature.rename]
    rw [hsame,Option.map_id]
    exact hfunctions f
  record? n := by
    rw [funext RecordDecl.rename_same,Option.map_id']
    exact hrecords n
  enum? n := by
    rw [funext EnumDecl.rename_same,Option.map_id']
    exact henums n

theorem Env.Alike.resolve (h : env.Alike ρ env') (t : Ty) :
    env'.resolve (t.rename ρ) = ((env.resolve t).map (Ty.rename ρ)).mapError ρ.type := by
  induction t with
  | record n =>
    simp only [Ty.rename, Env.resolve, h.enum?, h.record?, Option.isSome_map]
    split
    · rfl
    · split <;> rfl
  | array t ih | option t ih | result t ih =>
    simp only [Ty.rename, Env.resolve, ih]
    cases env.resolve t <;> rfl
  | _ => rfl

/-- What a relation between checks has to establish. `Rel ms f m m'` is for two checks of code with the marks `ms`;
what they answer is the same up to `f`. -/
structure Coupling (ρ : Renaming) (env env' : Env) where
  alike : env.Alike ρ env'
  Rel {α β : Type} (ms : List Mark) (f : α → β) (m : Checking α) (m' : Checking β) : Prop
  pure {α β : Type} {f : α → β} {x : α} {y : β} (h : y = f x) : Rel [] f (pure x) (pure y)
  bind {α β γ δ : Type} {ms ns : List Mark} {f : α → β} {g : γ → δ} {m : Checking α} {m' : Checking β}
    {n : α → Checking γ} {n' : β → Checking δ} (hm : Rel ms f m m') (hn : ∀ x, Rel ns g (n x) (n' (f x))) :
    Rel (ms ++ ns) g (m >>= n) (m' >>= n')
  range (pos : Pos) : Rel [.range pos] (Ty.rename ρ) (report .literalRange pos) (report .literalRange (ρ.place pos))
  report {p : Problem} (hp : p.isOrdinary = true) (pos : Pos) :
    Rel [] (Ty.rename ρ) (report p pos) (report (p.rename ρ) (ρ.place pos))
  warn {c : Caution} (hc : c.isHiding = false) (pos : Pos) :
    Rel [] id (warn c pos) (warn (c.rename ρ) (ρ.place pos))
  hide (word : Keyword) (x : String) (pos : Pos) :
    Rel [] id (reportHiding env word x pos) (reportHiding env' word (ρ.var x) (ρ.place pos))
  lookup (x : String) : Rel [] (Option.map (Symbol.rename ρ)) (lookup x) (lookup (ρ.var x))
  declare (x : String) (t : Ty) (k : SymbolKind) (mutable : Bool) :
    Rel [] (Symbol.rename ρ) (declare x t k mutable) (declare (ρ.var x) (t.rename ρ) k mutable)
  inFrame {α β : Type} {ms : List Mark} {f : α → β} {m : Checking α} {m' : Checking β} (nested : Bool)
    (hm : Rel ms f m m') : Rel ms f (inFrame nested m) (inFrame nested m')
  inLoop {α β : Type} {ms : List Mark} {f : α → β} {m : Checking α} {m' : Checking β} (hm : Rel ms f m m') :
    Rel ms (Prod.map f id) (inLoop m) (inLoop m')
  leave (pos : Pos) :
    Rel [] (Prod.map (Stmt.rename ρ) id) (stmt env (.leave pos)) (stmt env' (.leave (ρ.place pos)))
  next (pos : Pos) :
    Rel [] (Prod.map (Stmt.rename ρ) id) (stmt env (.next pos)) (stmt env' (.next (ρ.place pos)))
  /-- A `return` outside of functions is stray, and its value is not looked at. -/
  stray {ms : List Mark} (h : env.current = none) : Rel (.ret :: ms) id (modify fun s => { s with strayReturn := true })
    (modify fun s => { s with strayReturn := true })
  /-- Inside of a function it does not matter where a `return` stands. -/
  inside {α β : Type} {ms : List Mark} {f : α → β} {m : Checking α} {m' : Checking β}
    (h : env.current.isSome = true) (hm : Rel ms f m m') : Rel (.ret :: ms) f m m'

variable {C : Coupling ρ env env'}

namespace Coupling.Rel

variable {α β γ δ : Type} {ms ns : List Mark} {f : α → β} {g : γ → δ} {m k : Checking α} {m' k' : Checking β}
  {n : α → Checking γ} {n' : β → Checking δ}

protected theorem pure {x : α} {y : β} (h : y = f x) : C.Rel [] f (Pure.pure x) (Pure.pure y) := C.pure h

theorem parts (hm : C.Rel ms f m m') (hn : ∀ x, C.Rel ns g (n x) (n' (f x))) :
    C.Rel (ms ++ ns) g (m >>= n) (m' >>= n') := C.bind hm hn

/-- A node without marks of its own. -/
theorem node (h : C.Rel ms f m m') : C.Rel ([] ++ ms) f m m' := h

theorem after (hm : C.Rel [] f m m') (hn : ∀ x, C.Rel ns g (n x) (n' (f x))) :
    C.Rel ns g (m >>= n) (m' >>= n') := C.bind hm hn

theorem before (hm : C.Rel ms f m m') (hn : ∀ x, C.Rel [] g (n x) (n' (f x))) :
    C.Rel ms g (m >>= n) (m' >>= n') := by
  have h := C.bind hm hn
  rwa [List.append_nil] at h

theorem ite {P Q : Prop} [Decidable P] [Decidable Q] (hPQ : Q ↔ P) (hm : C.Rel ms f m m')
    (hk : C.Rel ms f k k') : C.Rel ms f (if P then m else k) (if Q then m' else k') := by
  by_cases hP : P
  · rw [if_pos hP,if_pos (hPQ.mpr hP)]
    exact hm
  · rw [if_neg hP,if_neg (hPQ.not.mpr hP)]
    exact hk

end Coupling.Rel

section

variable (ρ : Renaming)

def renameTyped (r : Typed) : Typed := (r.1.rename ρ, r.2.rename ρ)

def Cover.rename : Cover → Cover
  | .variant v => .variant (ρ.variant v)
  | c => c

def renameArms : List Arm × Ty × Bool × List Cover → List Arm × Ty × Bool × List Cover
  | (as,t,catchAll,covered) => (Arm.renameIn ρ as,t.rename ρ,catchAll,covered.map (Cover.rename ρ))

end

variable {p : Problem}

theorem reportIf_related {bad bad' : Bool} (hbad : bad' = bad) (hp : p.isOrdinary = true)
    (pos : Pos) : C.Rel [] id (reportIf bad p pos) (reportIf bad' (p.rename ρ) (ρ.place pos)) := by
  subst hbad
  cases bad' with
  | true => exact .before (C.report hp pos) fun _ => .pure rfl
  | false => exact .pure rfl

theorem resolveType_related (t : Ty) (pos : Pos) :
    C.Rel [] (Ty.rename ρ) (resolveType env t pos) (resolveType env' (t.rename ρ) (ρ.place pos)) := by
  rw [resolveType,resolveType,C.alike.resolve]
  cases env.resolve t with
  | ok u => exact .pure rfl
  | error n => exact C.report (p := .unknownType n) rfl pos

variable [ρ.Faithful]

theorem needValue_related {ms : List Mark} {m m' : Checking Typed} (hm : C.Rel ms (renameTyped ρ) m m') (pos : Pos) :
    C.Rel ms (renameTyped ρ) (needValue pos m) (needValue (ρ.place pos) m') := by
  refine .before hm fun r => ?_
  obtain ⟨e,t⟩ := r
  refine .ite (Ty.rename_eq_void t) ?_ (.pure rfl)
  exact .before (C.report (p := .noValue) rfl pos) fun u => .pure rfl

omit [ρ.Faithful] in
theorem typeOr_related (result : Option Ty) (hp : p.isOrdinary = true) (pos : Pos) :
    C.Rel [] (Ty.rename ρ) (typeOr result p pos)
      (typeOr (result.map (Ty.rename ρ)) (p.rename ρ) (ρ.place pos)) := by
  cases result with
  | some t => exact .pure rfl
  | none => exact C.report hp pos

theorem checkArguments_related (f : String) (i : Nat) (ts : List Ty) (args : List Typed) :
    C.Rel [] id (checkArguments f i ts args)
      (checkArguments (ρ.function f) i (ts.map (Ty.rename ρ)) (args.map (renameTyped ρ))) := by
  induction ts generalizing i args with
  | nil => exact .pure rfl
  | cons t ts ih =>
    cases args with
    | nil => exact .pure rfl
    | cons a args =>
      obtain ⟨e,u⟩ := a
      simp only [List.map_cons, checkArguments, renameTyped, Ty.compatible_rename, Expr.pos_rename]
      refine .after (reportIf_related rfl ?_ e.pos) fun _ => ih (i + 1) args
      rfl

theorem checkCall_related (f : String) (ts : List Ty) (args : List Typed) (pos : Pos) :
    C.Rel [] id (checkCall f ts args pos)
      (checkCall (ρ.function f) (ts.map (Ty.rename ρ)) (args.map (renameTyped ρ)) (ρ.place pos)) := by
  simp only [checkCall, List.length_map]
  refine .ite Iff.rfl ?_ (checkArguments_related f 1 ts args)
  exact reportIf_related (p := .arity f ts.length args.length) rfl rfl pos

theorem isOrdinary_of_textResult {r : Ty} (h : b.textResult r ts = .error p) : p.isOrdinary = true := by
  unfold Builtin.textResult at h
  split at h
  · cases h
    rfl
  · cases h

theorem isOrdinary_of_arrayResult (h : b.arrayResult ts = .error p) : p.isOrdinary = true := by
  unfold Builtin.arrayResult at h
  (repeat' split at h) <;> cases h <;> rfl

theorem isOrdinary_of_result (h : b.result ts = .error p) : p.isOrdinary = true := by
  unfold Builtin.result at h
  split at h
  · cases h
    rfl
  · split at h
    · cases h
    · split at h
      · exact isOrdinary_of_textResult h
      · exact isOrdinary_of_textResult h
      · exact isOrdinary_of_arrayResult h

theorem builtinResult_related (b : Builtin) (ts : List Ty) (pos : Pos) :
    C.Rel [] (Ty.rename ρ) (builtinResult b ts pos)
      (builtinResult b (ts.map (Ty.rename ρ)) (ρ.place pos)) := by
  rw [builtinResult,builtinResult,Builtin.result_rename]
  cases h : b.result ts with
  | ok t => exact .pure rfl
  | error p => exact C.report (isOrdinary_of_result h) pos

theorem fieldType_related (t : Ty) (f : String) (pos : Pos) :
    C.Rel [] (Ty.rename ρ) (fieldType env t f pos)
      (fieldType env' (t.rename ρ) (ρ.field f) (ρ.place pos)) := by
  cases t with
  | error => exact .pure rfl
  | record n =>
    simp only [Ty.rename, fieldType, C.alike.record?]
    cases env.record? n with
    | none => exact C.report (p := .unknownRecord n) rfl pos
    | some r =>
      simp only [Option.map_some, RecordDecl.findField?_rename]
      cases r.fields.find? (·.name = f) with
      | none => exact C.report (p := .noField r.name f) rfl pos
      | some d => exact .pure rfl
  | _ => exact C.report (p := .fieldOfNonRecord _ f) rfl pos

theorem enumTag_related (o v : String) (pos : Pos) :
    C.Rel [] (Prod.map id (Ty.rename ρ)) (enumTag env o v pos)
      (enumTag env' (ρ.type o) (ρ.variant v) (ρ.place pos)) := by
  simp only [enumTag, C.alike.enum?]
  cases env.enum? o with
  | none => exact .after (C.report (p := .unknownEnum o) rfl pos) fun _ => .pure rfl
  | some d =>
    simp only [Option.map_some, EnumDecl.tag?_rename]
    cases d.tag? v with
    | none => exact .after (C.report (p := .noVariant d.name v) rfl pos) fun _ => .pure rfl
    | some i => exact .pure rfl

theorem wrapType_related (w : Wrapper) (t : Ty) (pos : Pos) :
    C.Rel [] (Ty.rename ρ) (wrapType w t pos) (wrapType w (t.rename ρ) (ρ.place pos)) := by
  cases w with
  | some | ok => exact .pure rfl
  | err =>
    have hfits := Ty.compatible_rename (ρ := ρ) .string t
    refine .after (reportIf_related (p := .errPayload t) ?_ rfl pos) fun _ => .pure rfl
    rw [← hfits]
    rfl

omit [ρ.Faithful] in
theorem Cover.ofPattern?_rename (p : PatternForm) :
    Cover.ofPattern? (p.rename ρ) = (Cover.ofPattern? p).map (Cover.rename ρ) := by
  cases p <;> rfl

theorem Cover.rename_injective (ρ : Renaming) [ρ.Faithful] : Function.Injective (Cover.rename ρ) := by
  intro c d h
  cases c <;> cases d <;> simp_all [Cover.rename, ρ.variant_injective.eq_iff]

omit [ρ.Faithful] in
theorem isMatchable_rename (t : Ty) : isMatchable (t.rename ρ) = isMatchable t := by
  cases t <;> rfl

theorem isExhaustive_rename (h : env.Alike ρ env') (t : Ty) (cs : List Cover) :
    isExhaustive env' (t.rename ρ) (cs.map (Cover.rename ρ)) = isExhaustive env t cs := by
  have hmem (c : Cover) : (cs.map (Cover.rename ρ)).contains (c.rename ρ) = cs.contains c :=
    contains_rename (Cover.rename_injective ρ) c cs
  cases t with
  | boolean =>
    have htrue := hmem (.bool true)
    have hfalse := hmem (.bool false)
    simp only [Cover.rename] at htrue hfalse
    simp only [Ty.rename, isExhaustive, htrue, hfalse]
  | option t =>
    have hsome := hmem .some
    have hnone := hmem .none
    simp only [Cover.rename] at hsome hnone
    simp only [Ty.rename, isExhaustive, hsome, hnone]
  | result t =>
    have hok := hmem .ok
    have herr := hmem .err
    simp only [Cover.rename] at hok herr
    simp only [Ty.rename, isExhaustive, hok, herr]
  | enum n =>
    simp only [Ty.rename, isExhaustive, h.enum?]
    cases env.enum? n with
    | none => rfl
    | some d =>
      simp only [Option.map_some, EnumDecl.rename, List.all_map]
      congr 1
      funext v
      exact hmem (.variant v)
  | _ => rfl

theorem patternProblems_related (p : Pattern) (t : Ty) :
    C.Rel [] id (patternProblems env p t)
      (patternProblems env' (p.rename ρ) (t.rename ρ)) := by
  obtain ⟨pos,form⟩ := p
  have hfits := patternFits_fst_rename (ρ := ρ) form t
  cases form with
  | int v =>
    refine .after (reportIf_related (p := .patternRange) rfl rfl pos) fun _ => .pure ?_
    exact Ty.isNumeric_rename t
  | enum o v =>
    simp only [patternProblems, Pattern.rename, PatternForm.rename, C.alike.enum?]
    cases env.enum? o with
    | none => exact .after (reportIf_related (p := .unknownEnum o) rfl rfl pos) fun _ => .pure rfl
    | some d =>
      simp only [Option.map_some, EnumDecl.tag?_rename]
      refine .after (reportIf_related (p := .noVariant d.name v) rfl rfl pos) fun _ => .pure ?_
      simp [EnumDecl.rename]
  | _ => exact .pure hfits

theorem pattern_related (p : Pattern) (t : Ty) :
    C.Rel [] (Pattern.rename ρ) (pattern env p t)
      (pattern env' (p.rename ρ) (t.rename ρ)) := by
  refine .after (patternProblems_related p t) fun fits => ?_
  have hword : (p.rename ρ).form.word = p.form.word := PatternForm.word_rename p.form
  have hbinder : (p.rename ρ).form.binder? = p.form.binder?.map (Binder.rename ρ) :=
    PatternForm.binder?_rename p.form
  rw [hword,hbinder]
  refine .after (reportIf_related (p := .patternType p.form.word t) (by simp) rfl p.pos) fun _ => ?_
  cases p.form.binder? with
  | none => exact .pure rfl
  | some b =>
    have htype : (patternFits (p.rename ρ).form (t.rename ρ)).2 = (patternFits p.form t).2.rename ρ :=
      patternFits_snd_rename p.form t
    rw [Option.map_some]
    dsimp only
    rw [htype]
    refine .after (C.declare b.name _ .binding false) fun sym => .pure ?_
    simp only [Pattern.rename, PatternForm.setBinder_rename]
    rfl

omit [ρ.Faithful] in
theorem neverEnds_select (n n' : Note) (e e' : Expr) (as : List Arm) :
    neverEnds (.select n' e' (Arm.renameIn ρ as)) = neverEnds (.select n e as) := by
  induction as with
  | nil => rfl
  | cons a as ih =>
    obtain ⟨pos,p,body⟩ := a
    refine congrArg₂ (· && ·) ?_ ih
    cases body with
    | block n ss tail d => cases tail <;> rfl
    | _ => rfl

omit [ρ.Faithful] in
theorem neverEnds_rename (e : Expr) : neverEnds (e.rename ρ) = neverEnds e := by
  cases e with
  | select n e as => exact neverEnds_select _ _ _ _ as
  | block n ss tail d => cases tail <;> rfl
  | _ => rfl

omit [ρ.Faithful] in
theorem isTrueLiteral_rename (e : Expr) : isTrueLiteral (e.rename ρ) = isTrueLiteral e := by
  cases e with
  | block n ss tail d => cases tail <;> rfl
  | _ => rfl

omit [ρ.Faithful] in
theorem elementType_related (t : Ty) (pos : Pos) :
    C.Rel [] (Ty.rename ρ) (elementType t pos) (elementType (t.rename ρ) (ρ.place pos)) := by
  cases t with
  | array t =>
    cases t with
    | hole => exact C.report (p := .unknownElement) rfl pos
    | _ => exact .pure rfl
  | error => exact .pure rfl
  | _ => exact C.report (p := .notIterable _) rfl pos

theorem letType_related (pos : Pos) (x : String) (declared : Option Ty) (value : Typed) :
    C.Rel [] (Prod.map (Option.map (Ty.rename ρ)) (Ty.rename ρ)) (letType env pos x declared value)
      (letType env' (ρ.place pos) (ρ.var x) (declared.map (Ty.rename ρ))
        (renameTyped ρ value)) := by
  obtain ⟨e,t⟩ := value
  cases declared with
  | some d =>
    refine .after (resolveType_related d pos) fun d => ?_
    simp only [renameTyped, Expr.pos_rename]
    exact .after (reportIf_related (p := .letType x d t) (by simp) rfl e.pos) fun _ => .pure rfl
  | none =>
    refine .ite (by rw [renameTyped,Ty.hasHole_rename]) ?_ (.pure rfl)
    exact .after (C.report (p := .uninferable x) rfl pos) fun _ => .pure rfl

end Check

end Covenant
