import Covenant.Proofs.Typing.Scopes

/-! The checks of single nodes: what each has made sure of when nothing is found. -/

namespace Covenant

/-- A tree as it can be read: declared types can be written down, and assignments have places as their
targets. -/
def written : Rule where
  expr _ := True
  stmt _ s := match s with
    | .bind _ _ (some t) _ _ => t.isProper = true
    | .assign _ t _ => Build.isPlace t = true
    | _ => True
  guard _ := True

namespace Check

open Typing

structure Env.Proper (env : Env) : Prop where
  params : ∀ f ∈ env.functions, ∀ t ∈ f.params, t.isProper = true
  results : ∀ f ∈ env.functions, ∀ t, f.result = some t → t.isProper = true
  fields : ∀ r ∈ env.records, ∀ f ∈ r.fields, f.type.isProper = true

theorem Env.resolve_inside {env : Env} {f : Ty → Ty} {t u : Ty} (h : (env.resolve t).map f = .ok u) :
    ∃ v, env.resolve t = .ok v ∧ f v = u := by
  cases hr : env.resolve t with
  | error n => simp [hr, Except.map] at h
  | ok v => exact ⟨v,rfl,by simpa [hr, Except.map] using h⟩

theorem Env.resolve_isProper {env : Env} {t u : Ty} (h : env.resolve t = .ok u)
    (ht : t.isProper = true) : u.isProper = true := by
  induction t generalizing u with
  | array t ih | option t ih | result t ih =>
    obtain ⟨v,hr,rfl⟩ := resolve_inside h
    exact ih (u := v) hr ht
  | record n =>
    simp only [Env.resolve] at h
    split at h
    · cases h
      rfl
    · split at h <;> cases h
      rfl
  | error | void | hole => cases ht
  | _ =>
    cases h
    rfl

/-- What holds after checking a part of a body that began in state `s`: the part obeys its rules,
whatever slots are added later. -/
structure Post (strict : Prop) (env : Env) (s : State) (P : Site → Bool → Prop) (u : State) : Prop where
  good : Good strict env u.scope
  leads : Leads s u
  every : ∀ slots, u.scope.slots <+: slots → P ⟨env,slots,strict⟩ !s.loops.isEmpty

namespace Post

variable {strict : Prop} {env : Env} {s t u : State} {P Q : Site → Bool → Prop}

theorem here (hg : Good strict env s.scope)
    (h : ∀ slots, s.scope.slots <+: slots → P ⟨env,slots,strict⟩ !s.loops.isEmpty) :
    Post strict env s P s :=
  ⟨hg,.refl s,h⟩

theorem and (h : Post strict env s P t) (h' : Post strict env t Q u) :
    Post strict env s (fun S l => P S l ∧ Q S l) u := by
  refine ⟨h'.good,h.leads.trans h'.leads,?_⟩
  intro slots hs
  exact ⟨h.every slots (h'.leads.slots.trans hs),h.leads.isEmpty ▸ h'.every slots hs⟩

theorem mono (h : Post strict env s P u)
    (hPQ : ∀ slots, u.scope.slots <+: slots → P ⟨env,slots,strict⟩ (!s.loops.isEmpty) →
      Q ⟨env,slots,strict⟩ !s.loops.isEmpty) : Post strict env s Q u :=
  ⟨h.good,h.leads,fun slots hs => hPQ slots hs (h.every slots hs)⟩

theorem inFrame {nested : Bool} (h : Post strict env { s with scope := s.scope.push nested } P u) :
    Post strict env s P { u with scope := u.scope.pop } :=
  ⟨h.good.pop,⟨h.leads.globals,h.leads.slots,h.leads.loops⟩,h.every⟩

theorem inLoop (h : Post strict env { s with loops := false :: s.loops } P u) :
    Post strict env s (fun S _ => P S true) { u with loops := u.loops.tail } := by
  refine ⟨h.good,⟨h.leads.globals,h.leads.slots,?_⟩,h.every⟩
  have hlen : u.loops.length = s.loops.length + 1 := h.leads.loops
  simp [hlen]

theorem of_same (h : Post strict env t P u) (hs : t.scope = s.scope) (hl : t.loops = s.loops) :
    Post strict env s P u := by
  refine ⟨h.good,(Leads.of_same hs hl).trans h.leads,?_⟩
  rw [← hl]
  exact h.every

end Post

theorem args_cons {e : Expr} {es : List Expr} {t : Ty} {ts : List Ty} (h : Args es ts)
    (he : e.type = some t) (ht : t ≠ .void) : Args (e :: es) (t :: ts) := by
  refine ⟨?_,?_⟩
  · simp [he, h.1]
  · simpa [Ne.symm ht] using h.2

def ExprPost (strict : Prop) (env : Env) (s : State) (r : Typed) (u : State) : Prop :=
  Post strict env s (fun S l => r.1.Every (rule S) l) u ∧ r.1.type = some r.2 ∧
    (strict → r.2 = .void ∨ r.2.isSolid = true)

def ValuesPost (strict : Prop) (env : Env) (s : State) (rs : List Typed) (u : State) : Prop :=
  Post strict env s (fun S l => Expr.EveryIn (rule S) l (rs.map (·.1))) u ∧
    Args (rs.map (·.1)) (rs.map (·.2)) ∧ (strict → ∀ t ∈ rs.map (·.2), t.isSolid = true)

section

variable {strict : Prop} {env : Env} {s u : State} {r : Typed}

theorem ExprPost.solid (h : ExprPost strict env s r u) (hv : r.2 ≠ .void) (hs : strict) :
    r.2.isSolid = true :=
  (h.2.2 hs).resolve_left hv

theorem checkArguments_ends (f : String) (i : Nat) (ts : List Ty) (args : List Typed)
    (hlen : args.length = ts.length) :
    Ends s (checkArguments f i ts args) fun _ u => u = s ∧
      List.Forall₂ (fun t v => t.compatible v = true) ts (args.map (·.2)) := by
  induction ts generalizing i args s with
  | nil =>
    obtain rfl := List.length_eq_zero_iff.mp hlen
    exact .pure fun _ => ⟨rfl,.nil⟩
  | cons t ts ih =>
    cases args with
    | nil => cases hlen
    | cons a args =>
      refine .bind (reportIf_ends _ _ _) fun _ u hu => ?_
      refine Ends.weaken (ih (i + 1) args (Nat.succ.inj hlen)) fun _ v hc hv => ?_
      obtain ⟨-,rfl,hb⟩ := hu hc
      exact ⟨hv.1,.cons (by simpa using hb) hv.2⟩

theorem checkCall_ends (f : String) (ts : List Ty) (args : List Typed) (pos : Pos) :
    Ends s (checkCall f ts args pos) fun _ u => u = s ∧
      List.Forall₂ (fun t v => t.compatible v = true) ts (args.map (·.2)) := by
  unfold checkCall
  by_cases hlen : args.length = ts.length
  · rw [if_neg (by simpa using hlen)]
    exact checkArguments_ends f 1 ts args hlen
  · rw [if_pos hlen]
    exact Ends.weaken (reportIf_ends _ _ _) fun _ _ _ h => absurd h.2 (by simp)

theorem fieldType_ends {t : Ty} (f : String) (pos : Pos) :
    Ends s (fieldType env t f pos) fun v u => u = s ∧ (t ≠ .error → ∃ r d fd, t = .record r ∧
      env.record? r = some d ∧ d.fields.find? (·.name = f) = some fd ∧ v = fd.type) := by
  unfold fieldType
  cases t with
  | error => exact .pure fun _ => ⟨rfl,fun h => absurd rfl h⟩
  | record n =>
    dsimp only
    cases hr : env.record? n with
    | none => exact report_ends _ _
    | some d =>
      dsimp only
      cases hf : d.fields.find? (·.name = f) with
      | none => exact report_ends _ _
      | some fd => exact .pure fun _ => ⟨rfl,fun _ => ⟨n,d,fd,rfl,hr,hf,rfl⟩⟩
  | _ => exact report_ends _ _

theorem enumTag_ends (o v : String) (pos : Pos) :
    Ends s (enumTag env o v pos) fun r u => u = s ∧ ∃ d i, env.enum? o = some d ∧
      d.tag? v = some i ∧ r = (some i,.enum d.name) := by
  unfold enumTag
  cases ho : env.enum? o with
  | none => exact report_map_ends _ _ fun t => (none,t)
  | some d =>
    dsimp only
    cases hv : d.tag? v with
    | none => exact report_map_ends _ _ fun t => (none,t)
    | some i => exact .pure fun _ => ⟨rfl,d,i,rfl,hv,rfl⟩

theorem wrapType_ends (w : Wrapper) (t : Ty) (pos : Pos) :
    Ends s (Check.wrapType w t pos) fun r u => u = s ∧ r = Typing.wrapType w t := by
  cases w with
  | some | ok => exact .pure fun _ => ⟨rfl,rfl⟩
  | err =>
    refine .bind (reportIf_ends _ _ _) fun _ u hu => ?_
    exact .pure fun hc => ⟨(hu hc).2.1,rfl⟩

theorem elementType_ends {t : Ty} (pos : Pos) :
    Ends s (elementType t pos) fun v u => u = s ∧ (t ≠ .error → t = .array v ∧ v ≠ .hole) := by
  unfold elementType
  split
  · exact report_ends _ _
  · exact .pure fun _ => ⟨rfl,fun _ => ⟨rfl,by assumption⟩⟩
  · exact .pure fun _ => ⟨rfl,fun h => absurd rfl h⟩
  · exact report_ends _ _

theorem patternProblems_ends (p : Pattern) (subject : Ty) :
    Ends s (patternProblems env p subject) fun b u => u = s ∧
      (b = true → PatternFits env subject p.form) := by
  obtain ⟨pos,form⟩ := p
  cases form with
  | int v =>
    refine .bind (reportIf_ends _ _ _) fun _ u hu => .pure fun hc => ?_
    obtain ⟨-,rfl,hv⟩ := hu hc
    exact ⟨rfl,fun hb => ⟨by simpa using hv,hb⟩⟩
  | enum o v =>
    simp only [patternProblems]
    cases ho : env.enum? o with
    | none =>
      refine .bind (reportIf_ends _ _ _) fun _ u hu => .pure fun hc => ?_
      exact absurd (hu hc).2.2 (by simp)
    | some d =>
      refine .bind (reportIf_ends _ _ _) fun _ u hu => .pure fun hc => ?_
      obtain ⟨-,rfl,hv⟩ := hu hc
      obtain ⟨tag,ht⟩ := Option.isSome_iff_exists.mp (by simpa using hv : (d.tag? v).isSome = true)
      exact ⟨rfl,fun hb => ⟨d,tag,ho,ht,by simpa using hb⟩⟩
  | _ => exact .pure fun _ => ⟨rfl,id⟩

theorem patternFits_setBinder (p : PatternForm) (b : Binder) (t : Ty) :
    patternFits (p.setBinder b) t = patternFits p t := by
  cases p <;> cases t <;> rfl

theorem setBinder_fits {t : Ty} {p : PatternForm} (h : PatternFits env t p) (b : Binder) :
    PatternFits env t (p.setBinder b) := by
  cases p with
  | bind _ | some _ | ok _ | err _ =>
    have hp := patternFits_setBinder _ b t ▸ (show (patternFits _ t).1 = true from h)
    exact hp
  | _ => exact h

theorem binder?_setBinder {p : PatternForm} {b : Binder} (h : p.binder? = some b) (c : Binder) :
    (p.setBinder c).binder? = some c := by
  cases p <;> first | rfl | cases h

theorem patternFits_isSolid {t : Ty} {p : PatternForm} {b : Binder} (h : PatternFits env t p)
    (hb : p.binder? = some b) (ht : t.isSolid = true) : (patternFits p t).2.isSolid = true := by
  cases p with
  | bind _ => exact ht
  | some _ | ok _ | err _ => cases t <;> simp_all [PatternFits, patternFits, Ty.isSolid]
  | _ => cases hb

/-- A variable has the type that is declared for it, once that is resolved, or else the type of its value. -/
inductive LetFits (env : Env) (value : Typed) : Option Ty → Option Ty → Ty → Prop
  | declared {d t : Ty} : env.resolve d = .ok t → (t ≠ .error → t.compatible value.2 = true) →
      LetFits env value (some d) (some t) t
  | inferred : value.2.hasHole = false → LetFits env value none none value.2

theorem letType_ends (pos : Pos) (x : String) (d : Option Ty) (value : Typed) :
    Ends s (letType env pos x d value) fun r _ => LetFits env value d r.1 r.2 := by
  cases d with
  | none =>
    simp only [letType]
    split
    · exact report_map_ends _ _ fun t => (none,t)
    · rename_i hhole
      exact .pure fun _ => .inferred (by simpa using hhole)
  | some d =>
    refine .bind (resolveType_ends env d pos) fun t u hu => .bind (reportIf_ends _ _ _) fun _ v hv =>
      .pure fun hc => ?_
    obtain ⟨hc,-,hbad⟩ := hv hc
    exact .declared (hu hc).2.2 (by simpa using hbad)

theorem LetFits.solid {value : Typed} {d d' : Option Ty} {t : Ty} (h : LetFits env value d d' t)
    (hd : ∀ t, d = some t → t.isProper = true) (hv : value.2.isSolid = true) :
    t.isSolid = true ∧ t.compatible value.2 = true := by
  cases h with
  | declared hr hfit =>
    have ht := Ty.isSolid_of_isProper (Env.resolve_isProper hr (hd _ rfl))
    exact ⟨ht,hfit (Ty.ne_error_of_isSolid ht)⟩
  | inferred => exact ⟨hv,Ty.compatible_refl _⟩

end

def armBody (env : Env) (p : Pattern) (t : Ty) (e : Expr) : Checking (Pattern × Expr × Ty) := do
  let p' ← pattern env p t
  let (e', u) ← expr env e
  return (p', e', u)

def eachBody (env : Env) (pos : Pos) (x : String) (t : Ty) (ss : List Stmt) :
    Checking (Option Nat × List Stmt) := do
  reportHiding env .forWord x pos
  let y ← declare x t .loop false
  let ((ss', _), _) ← inLoop (stmts env false false ss)
  return (y.slot, ss')

/-- The fields of a record literal after one that is checked. -/
def initsAfter (env : Env) (d : RecordDecl) (seen : List String) (f : FieldInit) (fs : List FieldInit) :
    Checking (List FieldInit × List String) := do
  let (fs', seen) ← inits env d seen fs
  return (f :: fs', seen)

def functionEnd (f : FunctionDecl) (ss : List Stmt) : Checking FunctionDecl := do
  let slots := (← get).scope.slots
  popFrame
  return { f with body := .mk f.body.pos ss, slots }

end Check

end Covenant
