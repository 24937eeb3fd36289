import Covenant.Proofs.Typing.Parts

/-! Checks that find nothing, as rules: what a node is annotated with, and what is known of its parts. Each
node has a rule for each way to pass its check, so what holds of every accepted tree is shown by going through
the rules. -/

namespace Covenant.Check

structure Remarks (m : Checking Unit) (s t : State) : Prop where
  run : m.run s = ((),t)
  scope : t.scope = s.scope
  loops : t.loops = s.loops
  errors : t.errors = s.errors
  stray : t.strayReturn = s.strayReturn

inductive PatternAccepted (env : Env) (t : Ty) (s : State) (p : Pattern) : Pattern → State → Prop
  | plain {fits : Bool} (hfits : patternProblems env p t = pure fits) (h : fits = true ∨ t = .error)
    (hb : p.form.binder? = none) : PatternAccepted env t s p p s
  | binds {fits : Bool} {b : Binder} (hfits : patternProblems env p t = pure fits) (h : fits = true ∨ t = .error)
    (hb : p.form.binder? = some b) :
    PatternAccepted env t s p { p with form := p.form.setBinder { b with slot := some s.scope.slots.length } }
      { s with scope := (s.scope.declare b.name (patternFits p.form t).2 .binding false).2 }

mutual

inductive ExprAccepted (env : Env) : State → Expr → Typed → State → Prop
  | int (hv : inWordRange v = true) :
    ExprAccepted env s (.int n v) (.int (n.typed .integer) v,.integer) s
  | bool : ExprAccepted env s (.bool n b) (.bool (n.typed .boolean) b,.boolean) s
  | text : ExprAccepted env s (.text n x) (.text (n.typed .string) x,.string) s
  | noneLit : ExprAccepted env s (.noneLit n) (.noneLit (n.typed (.option .hole)),.option .hole) s
  | name (hx : s.scope.get? x = some y) :
    ExprAccepted env s (.name n x old) (.name (n.typed y.type) x (some y),y.type) s
  | unary (he : ExprAccepted env s e (a,t) u) (ht : t ≠ .void) (hr : op.type? t = some r) :
    ExprAccepted env s (.unary n op e) (.unary (n.typed r) op a,r) u
  | binary (he : ExprAccepted env s e (a,t) u) (ht : t ≠ .void) (hf : ExprAccepted env u f (b,t') v)
    (ht' : t' ≠ .void) (hr : op.type? t t' = some r) :
    ExprAccepted env s (.binary n op e f) (.binary (n.typed r) op a b,r) v
  | user (hf : env.function? f.name = some sig) (hes : ValuesAccepted env s es rs u)
    (hfit : List.Forall₂ (fun t v => t.compatible v = true) sig.params (rs.map (·.2))) :
    ExprAccepted env s (.call n f es)
      (.call (n.typed (sig.result.getD .void)) (.user f.name) (rs.map (·.1)),sig.result.getD .void) u
  | builtin (hf : env.function? f.name = none) (hb : Builtin.ofFunction? f.name = some b)
    (hes : ValuesAccepted env s es rs u) (hr : b.result (rs.map (·.2)) = .ok r) :
    ExprAccepted env s (.call n f es) (.call (n.typed r) (.builtin b) (rs.map (·.1)),r) u
  | host (hf : env.function? f.name = none) (hb : Builtin.ofFunction? f.name = none)
    (hh : HostFunction.find? f.name = some h) (hes : ValuesAccepted env s es rs u)
    (hfit : List.Forall₂ (fun t v => t.compatible v = true) h.params (rs.map (·.2))) :
    ExprAccepted env s (.call n f es)
      (.call (n.typed (h.result.getD .void)) (.host h) (rs.map (·.1)),h.result.getD .void) u
  | method (he : ExprAccepted env s e (a,t) u) (ht : t ≠ .void) (hes : ValuesAccepted env u es rs v)
    (hne : t ≠ .error) (hm : Builtin.ofMethod? t m = some op) (hr : op.result (t :: rs.map (·.2)) = .ok r) :
    ExprAccepted env s (.method n e m es old) (.method (n.typed r) a m (rs.map (·.1)) (some op),r) v
  | methodLost (he : ExprAccepted env s e (a,.error) u) (hes : ValuesAccepted env u es rs v) :
    ExprAccepted env s (.method n e m es old) (.method (n.typed .error) a m (rs.map (·.1)) old,.error) v
  | array (hes : ValuesAccepted env s es rs u) (ht : (rs.map (·.2)).foldlM Ty.unify .hole = some t) :
    ExprAccepted env s (.array n es) (.array (n.typed (.array t)) (rs.map (·.1)),.array t) u
  | index (he : ExprAccepted env s e (a,t) u) (ht : t ≠ .void) (hi : ExprAccepted env u i (j,t') v)
    (ht' : t' ≠ .void) (hnum : t'.isNumeric = true ∨ t' = .error) (hr : t = .array r ∨ t = .error ∧ r = .error) :
    ExprAccepted env s (.index n e i) (.index (n.typed r) a j,r) v
  | field (he : ExprAccepted env s e (a,t) u) (ht : t ≠ .void) (hr : fieldType env t f n.pos = pure r) :
    ExprAccepted env s (.field n e f) (.field (n.typed r) a f,r) u
  | record (hd : env.record? x = some d) (hfs : InitsAccepted env s d [] fs (gs,seen) u)
    (hall : ((d.fields.map (·.name)).filter fun f => !seen.contains f) = []) :
    ExprAccepted env s (.record n x fs) (.record (n.typed (.record d.name)) x gs,.record d.name) u
  | wrap (he : ExprAccepted env s e (a,t) u) (ht : t ≠ .void) (hr : wrapType w t e.pos = pure r) :
    ExprAccepted env s (.wrap n w e) (.wrap (n.typed r) w a,r) u
  | enum (hd : env.enum? o = some d) (hi : d.tag? x = some i) :
    ExprAccepted env s (.enum n o x old) (.enum (n.typed (.enum d.name)) o x (some i),.enum d.name) s
  | select (he : ExprAccepted env s e (a,t) u) (ht : t ≠ .void) (hm : t = .error ∨ isMatchable t = true)
    (has : ArmsAccepted env u t .hole false [] as (bs,r,catchAll,covered) v)
    (hall : t = .error ∨ catchAll = true ∨ isExhaustive env t covered = true) :
    ExprAccepted env s (.select n e as) (.select (n.typed r) a bs,r) v
  | unit (hss : StmtsAccepted env s false false ss (ts,ends) u) :
    ExprAccepted env s (.block n ss none old)
      (.block (n.typed (if ends then .hole else .void)) ts none ends,if ends then .hole else .void) u
  | value (hss : StmtsAccepted env s false false ss (ts,ends) u) (he : ExprAccepted env u e (a,t) v) :
    ExprAccepted env s (.block n ss (some e) old) (.block (n.typed t) ts (some a) ends,t) v

inductive ValuesAccepted (env : Env) : State → List Expr → List Typed → State → Prop
  | nil : ValuesAccepted env s [] [] s
  | cons (he : ExprAccepted env s e r u) (ht : r.2 ≠ .void) (hes : ValuesAccepted env u es rs v) :
    ValuesAccepted env s (e :: es) (r :: rs) v

inductive InitsAccepted (env : Env) :
    State → RecordDecl → List String → List FieldInit → List FieldInit × List String → State → Prop
  | nil : InitsAccepted env s d seen [] ([],seen) s
  | cons (he : ExprAccepted env s e (a,t) u) (ht : t ≠ .void) (hx : seen.contains x = false)
    (hf : d.fields.find? (·.name = x) = some fd) (hfit : fd.type.compatible t = true)
    (hfs : InitsAccepted env u d (x :: seen) fs (gs,last) v) :
    InitsAccepted env s d seen (.mk pos x e :: fs) (.mk pos x a :: gs,last) v

inductive ArmsAccepted (env : Env) : State → Ty → Ty → Bool → List Cover → List Arm →
    List Arm × Ty × Bool × List Cover → State → Prop
  | nil : ArmsAccepted env s subject common catchAll covered [] ([],common,catchAll,covered) s
  | cons (hw : Remarks (if catchAll then warn .unreachableArm pos else pure ()) s s')
    (hp : PatternAccepted env subject { s' with scope := s'.scope.push true } p q u)
    (he : ExprAccepted env u e (a,t) v) (hc : common.unify t = some common')
    (has : ArmsAccepted env { v with scope := v.scope.pop } subject common' (catchAll || p.form.isCatchAll)
      ((Cover.ofPattern? p.form).toList ++ covered) as (bs,r) w) :
    ArmsAccepted env s subject common catchAll covered (.mk pos p e :: as) (.mk pos q a :: bs,r) w

inductive StmtAccepted (env : Env) : State → Stmt → Stmt × Bool → State → Prop
  | bind (he : ExprAccepted env s e (a,t) u) (ht : t ≠ .void) (hd : letType env pos x d (a,t) = pure (d',t'))
    (hh : Remarks (reportHiding env .letWord x pos) u v) :
    StmtAccepted env s (.bind pos x d e old) (.bind pos x d' a (some v.scope.slots.length),false)
      { v with scope := (v.scope.declare x t' .letBound true).2 }
  | assignName (hx : s.scope.get? x = some y) (hm : y.isMutable = true) (he : ExprAccepted env s e (a,t) u)
    (ht : t ≠ .void) (hfit : y.type.compatible t = true) :
    StmtAccepted env s (.assign pos (.name n x old) e) (.assign pos (.name (n.typed y.type) x (some y)) a,false) u
  | assign (hname : f.isName = false) (hf : ExprAccepted env s f (b,t') u) (he : ExprAccepted env u e (a,t) v)
    (ht : t ≠ .void) (hfit : t'.compatible t = true) :
    StmtAccepted env s (.assign pos f e) (.assign pos b a,false) v
  | retUnit (hf : env.current = some f) (hr : f.result = none) :
    StmtAccepted env s (.ret pos none) (.ret pos none,true) s
  | retValue (hf : env.current = some f) (he : ExprAccepted env s e (a,t) u) (ht : t ≠ .void)
    (hr : f.result = some r) (hfit : r.compatible t = true) :
    StmtAccepted env s (.ret pos (some e)) (.ret pos (some a),true) u
  | expr (he : ExprAccepted env s e (a,t) u) :
    StmtAccepted env s (.expr pos e) (.expr pos a,neverEnds a) u
  | cond (hc : ChainAccepted env s c (d,ends) u) : StmtAccepted env s (.cond pos c) (.cond pos d,ends) u
  | loop (he : ExprAccepted env s e (a,t) u) (ht : t ≠ .void) (hfit : Ty.compatible .boolean t = true)
    (hb : BlockAccepted env { u with loops := false :: u.loops } b (c,ends) v) :
    StmtAccepted env s (.loop pos e b) (.loop pos a c,isTrueLiteral a && !v.loops.headD false)
      { v with loops := v.loops.tail }
  | each (he : ExprAccepted env s e (a,t) u) (ht : t ≠ .void) (hr : elementType t e.pos = pure r)
    (hh : Remarks (reportHiding env .forWord x pos) { u with scope := u.scope.push true } v)
    (hss : StmtsAccepted env { v with scope := (v.scope.declare x r .loop false).2, loops := false :: v.loops }
      false false ss (ts,ends) w) :
    StmtAccepted env s (.each pos x e (.mk bodyPos ss) old)
      (.each pos x a (.mk bodyPos ts) (some v.scope.slots.length),false)
      { w with scope := w.scope.pop, loops := w.loops.tail }
  | leave (hl : s.loops = b :: outer) :
    StmtAccepted env s (.leave pos) (.leave pos,true) { s with loops := true :: outer }
  | next (hl : s.loops.isEmpty = false) : StmtAccepted env s (.next pos) (.next pos,true) s

inductive StmtsAccepted (env : Env) : State → Bool → Bool → List Stmt → List Stmt × Bool → State → Prop
  | nil : StmtsAccepted env s ended warned [] ([],ended) s
  | cons (hw : Remarks (if ended && !warned then warn .unreachableStatement x.pos else pure ()) s s')
    (hx : StmtAccepted env s' x (y,ends) u) (hxs : StmtsAccepted env u (ended || ends) ended xs (ys,r) v) :
    StmtsAccepted env s ended warned (x :: xs) (y :: ys,r) v

inductive BlockAccepted (env : Env) : State → Block → Block × Bool → State → Prop
  | mk (hss : StmtsAccepted env { s with scope := s.scope.push true } false false ss (ts,ends) u) :
    BlockAccepted env s (.mk pos ss) (.mk pos ts,ends) { u with scope := u.scope.pop }

inductive ChainAccepted (env : Env) : State → Chain → Chain × Bool → State → Prop
  | stop : ChainAccepted env s .stop (.stop,false) s
  | otherwise (hb : BlockAccepted env s b (c,ends) u) : ChainAccepted env s (.otherwise b) (.otherwise c,ends) u
  | branch (he : ExprAccepted env s e (a,t) u) (ht : t ≠ .void) (hfit : Ty.compatible .boolean t = true)
    (hb : BlockAccepted env u b (c,ends) v) (hrest : ChainAccepted env v rest (rest',restEnds) w) :
    ChainAccepted env s (.branch pos e b rest) (.branch pos a c rest',ends && restEnds) w

end

variable {e : Expr}

variable {env : Env} {s u : State} {r : Typed}

theorem ExprAccepted.type_eq (h : ExprAccepted env s e r u) :
    r.1.type = some r.2 := by
  cases h <;> rfl

theorem ExprAccepted.ctorIdx_eq (h : ExprAccepted env s e r u) :
    r.1.ctorIdx = e.ctorIdx := by
  cases h <;> rfl

theorem ExprAccepted.isName_eq (h : ExprAccepted env s e r u) :
    r.1.isName = e.isName := by
  cases h <;> rfl

def Settles {α : Type} (m : Checking α) : Prop := (∃ a, m = pure a) ∨ ∀ s, Ends s m fun _ _ => False

theorem Settles.ends {α : Type} {m : Checking α} (h : Settles m) :
    Ends s m fun a u => u = s ∧ m = pure a := by
  rcases h with ⟨a,rfl⟩ | h
  · exact .pure fun _ => ⟨rfl,rfl⟩
  · exact Ends.weaken (h s) fun _ _ _ h => h.elim

theorem Ends.of_pure {α : Type} {m : Checking α} {a : α} {Q : α → State → Prop} (h : Ends .initial m Q)
    (hm : m = pure a) : Q a .initial := by
  subst hm
  exact (h ⟨rfl,rfl⟩).2

section Steps

variable {env : Env} {s : State}

theorem letType_fits {pos : Pos} {x : String} {d d' : Option Ty} {value : Typed} {t : Ty}
    (h : letType env pos x d value = pure (d',t)) : LetFits env value d d' t :=
  (letType_ends pos x d value).of_pure h

theorem fieldType_settles (t : Ty) (f : String) (pos : Pos) : Settles (fieldType env t f pos) := by
  unfold fieldType
  split
  · exact .inl ⟨_,rfl⟩
  · split
    · exact .inr fun _ => report_ends _ _
    · split
      · exact .inr fun _ => report_ends _ _
      · exact .inl ⟨_,rfl⟩
  · exact .inr fun _ => report_ends _ _

theorem wrapType_settles (w : Wrapper) (t : Ty) (pos : Pos) : Settles (wrapType w t pos) := by
  cases w with
  | some | ok => exact .inl ⟨_,rfl⟩
  | err =>
    unfold wrapType
    cases !Ty.compatible .string t with
    | false => exact .inl ⟨_,rfl⟩
    | true => exact .inr fun _ => reportIf_true_ends _ _ _

theorem elementType_settles (t : Ty) (pos : Pos) : Settles (elementType t pos) := by
  unfold elementType
  split
  · exact .inr fun _ => report_ends _ _
  · exact .inl ⟨_,rfl⟩
  · exact .inl ⟨_,rfl⟩
  · exact .inr fun _ => report_ends _ _

theorem letType_settles (pos : Pos) (x : String) (d : Option Ty) (r : Typed) :
    Settles (letType env pos x d r) := by
  cases d with
  | none =>
    simp only [letType]
    split
    · exact .inr fun _ => report_map_ends _ _ _
    · exact .inl ⟨_,rfl⟩
  | some d =>
    simp only [letType, resolveType]
    cases env.resolve d with
    | error n =>
      refine .inr fun s => .bind (report_ends (T := fun _ _ => False) _ _) fun _ _ hu => ?_
      exact .bind (reportIf_ends _ _ _) fun _ _ hv => .pure fun hc => (hu (hv hc).1).2
    | ok u =>
      simp only [pure_bind]
      cases (u ≠ .error && !u.compatible r.2 : Bool) with
      | false => exact .inl ⟨_,rfl⟩
      | true => exact .inr fun _ => reportIf_true_ends _ _ _

theorem patternProblems_settles (p : Pattern) (t : Ty) : Settles (patternProblems env p t) := by
  unfold patternProblems
  split
  · rename_i v _
    cases !inWordRange v with
    | false => exact .inl ⟨_,rfl⟩
    | true => exact .inr fun _ => reportIf_true_ends _ _ _
  · split
    · exact .inr fun _ => reportIf_true_ends _ _ _
    · rename_i v _ d _
      cases Option.isNone _ with
      | false => exact .inl ⟨_,rfl⟩
      | true => exact .inr fun _ => reportIf_true_ends _ _ _
  · exact .inl ⟨_,rfl⟩

theorem warnIf_accepts {α : Type} {Q : α → State → Prop} {b : Bool} {c : Caution} {pos : Pos}
    {f : Unit → Checking α}
    (h : ∀ t, (t.Clean → s.Clean) → Remarks (if b then warn c pos else pure ()) s t → Ends t (f ()) Q) :
    Ends s (if b then warn c pos >>= f else f ()) Q := by
  cases b with
  | false => exact h s id ⟨rfl,rfl,rfl,rfl,rfl⟩
  | true => exact h { s with warnings := s.warnings ++ [⟨c,pos⟩] } id ⟨rfl,rfl,rfl,rfl,rfl⟩

theorem reportHiding_accepts (word : Keyword) (x : String) (pos : Pos) :
    Ends s (reportHiding env word x pos) fun _ u => Remarks (reportHiding env word x pos) s u := by
  have hclean : Ends s (reportHiding env word x pos) fun _ u =>
      u.errors = s.errors ∧ u.strayReturn = s.strayReturn := by
    refine fun hc => ?_
    obtain ⟨hs,-⟩ := reportHiding_ends env word x pos hc
    exact ⟨hs,hc.1.trans hs.1.symm,hc.2.trans hs.2.symm⟩
  exact fun hc => ⟨(hclean hc).1,rfl,(reportHiding_ends env word x pos hc).2.1,
    (reportHiding_ends env word x pos hc).2.2,(hclean hc).2.1,(hclean hc).2.2⟩

theorem pattern_accepts (p : Pattern) (t : Ty) : Ends s (pattern env p t) (PatternAccepted env t s p) := by
  refine .bind (patternProblems_settles p t).ends fun fits u hu => .bind (reportIf_ends _ _ _) fun _ v hv => ?_
  have hfits (hc : v.Clean) : v = s ∧ patternProblems env p t = pure fits ∧ (fits = true ∨ t = .error) := by
    obtain ⟨hc,rfl,hbad⟩ := hv hc
    obtain ⟨-,rfl,hfits⟩ := hu hc
    exact ⟨rfl,hfits,by cases fits <;> simp_all⟩
  cases hb : p.form.binder? with
  | none =>
    refine .pure fun hc => ?_
    obtain ⟨rfl,hfits,h⟩ := hfits hc
    exact .plain hfits h hb
  | some b =>
    refine .bind (declare_ends _ _ _ _) fun y w hw => .pure fun hc => ?_
    obtain ⟨hc,hy,rfl⟩ := hw hc
    obtain ⟨rfl,hfits,h⟩ := hfits hc
    rw [hy]
    exact .binds hfits h hb

end Steps

section Nodes

variable {env : Env}

abbrev ExprAccepts (env : Env) (e : Expr) : Prop := ∀ s, Ends s (expr env e) (ExprAccepted env s e)

abbrev ValuesAccept (env : Env) (es : List Expr) : Prop := ∀ s, Ends s (values env es) (ValuesAccepted env s es)

abbrev StmtsAccept (env : Env) (ss : List Stmt) : Prop :=
  ∀ s ended warned, Ends s (stmts env ended warned ss) (StmtsAccepted env s ended warned ss)

theorem int_accepts (n : Note) (v : Int) : ExprAccepts env (.int n v) := by
  intro s
  rw [expr]
  split
  · exact .pure fun _ => .int (by assumption)
  · exact report_map_ends _ _ fun t => (Expr.int (n.typed t) v,t)

theorem name_accepts (n : Note) (x : String) (old : Option Symbol) : ExprAccepts env (.name n x old) := by
  intro s
  refine .bind (lookup_ends x) fun r u hu => ?_
  cases r with
  | none => exact report_map_ends _ _ fun t => (Expr.name (n.typed t) x none,t)
  | some y =>
    refine .pure fun hc => ?_
    obtain ⟨-,rfl,hx⟩ := hu hc
    exact .name hx.symm

theorem unary_accepts (he : ExprAccepts env e) (n : Note) (op : UnaryOp) :
    ExprAccepts env (.unary n op e) := by
  intro s
  refine .bind (needValue_ends _ (he s)) fun r u hu => .bind (typeOr_ends _ _ _) fun t v hv => .pure fun hc => ?_
  obtain ⟨hc,rfl,ht⟩ := hv hc
  obtain ⟨-,he,hvoid⟩ := hu hc
  exact .unary he hvoid ht

theorem binary_accepts {a b : Expr} (ha : ExprAccepts env a) (hb : ExprAccepts env b) (n : Note) (op : BinaryOp) :
    ExprAccepts env (.binary n op a b) := by
  intro s
  refine .bind (needValue_ends _ (ha s)) fun r u hu => .bind (needValue_ends _ (hb u)) fun r' v hv => ?_
  refine .bind (typeOr_ends _ _ _) fun t w hw => .pure fun hc => ?_
  obtain ⟨hc,rfl,ht⟩ := hw hc
  obtain ⟨hc,hb,hvoid'⟩ := hv hc
  obtain ⟨-,ha,hvoid⟩ := hu hc
  exact .binary ha hvoid hb hvoid' ht

theorem call_accepts {es : List Expr} (hes : ValuesAccept env es)
    (hbad : ∀ s, Ends s (exprs env es) fun _ _ => True) (n : Note) (f : Callee) :
    ExprAccepts env (.call n f es) := by
  intro s
  rw [expr]
  dsimp only
  cases hf : env.function? f.name with
  | some sig =>
    refine .bind (hes s) fun rs u hu => .bind (checkCall_ends _ _ _ _) fun _ v hv => .pure fun hc => ?_
    obtain ⟨hc,rfl,hfit⟩ := hv hc
    exact .user hf (hu hc).2 hfit
  | none =>
    cases hb : Builtin.ofFunction? f.name with
    | some b =>
      refine .bind (hes s) fun rs u hu => .bind (builtinResult_ends _ _ _) fun r v hv => .pure fun hc => ?_
      obtain ⟨hc,rfl,hr⟩ := hv hc
      exact .builtin hf hb (hu hc).2 hr
    | none =>
      cases hh : HostFunction.find? f.name with
      | some h =>
        refine .bind (hes s) fun rs u hu => .bind (checkCall_ends _ _ _ _) fun _ v hv => .pure fun hc => ?_
        obtain ⟨hc,rfl,hfit⟩ := hv hc
        exact .host hf hb hh (hu hc).2 hfit
      | none => exact .bind (hbad s) fun es _ _ => report_map_ends _ _ fun t => (Expr.call (n.typed t) f es,t)

theorem method_accepts {es : List Expr} (he : ExprAccepts env e) (hes : ValuesAccept env es) (n : Note)
    (m : String) (old : Option Builtin) : ExprAccepts env (.method n e m es old) := by
  intro s
  refine .bind (needValue_ends _ (he s)) fun ⟨a,t⟩ u hu => .bind (hes u) fun rs v hv => ?_
  dsimp only
  by_cases hlost : t = .error
  · rw [if_pos hlost]
    refine .pure fun hc => ?_
    subst hlost
    exact .methodLost (hu (hv hc).1).2.1 (hv hc).2
  · rw [if_neg hlost]
    cases hm : Builtin.ofMethod? t m with
    | none => exact report_map_ends _ _ fun r => (Expr.method (n.typed r) a m (rs.map (·.1)) old,r)
    | some op =>
      refine .bind (builtinResult_ends _ _ _) fun r w hw => .pure fun hc => ?_
      obtain ⟨hc,rfl,hr⟩ := hw hc
      obtain ⟨hc,hes⟩ := hv hc
      obtain ⟨-,he,hvoid⟩ := hu hc
      exact .method he hvoid hes hlost hm hr

theorem index_accepts {i : Expr} (he : ExprAccepts env e) (hi : ExprAccepts env i) (n : Note) :
    ExprAccepts env (.index n e i) := by
  intro s
  refine .bind (needValue_ends _ (he s)) fun ⟨a,t⟩ u hu => .bind (needValue_ends _ (hi u)) fun ⟨j,t'⟩ v hv => ?_
  refine .bind (reportIf_ends _ _ _) fun _ w hw => ?_
  have hdone (r : Ty) (hr : t = .array r ∨ t = .error ∧ r = .error) :
      Ends w (pure (Expr.index (n.typed r) a j,r)) (ExprAccepted env s (.index n e i)) := by
    refine .pure fun hc => ?_
    obtain ⟨hc,rfl,hbad⟩ := hw hc
    obtain ⟨hc,hi,hvoid'⟩ := hv hc
    obtain ⟨-,he,hvoid⟩ := hu hc
    refine .index he hvoid hi hvoid' ?_ hr
    by_cases hnum : t'.isNumeric = true
    · exact .inl hnum
    · exact .inr (by simpa [hnum] using hbad)
  cases t with
  | array r => exact hdone r (.inl rfl)
  | error => exact hdone .error (.inr ⟨rfl,rfl⟩)
  | _ => exact report_map_ends _ _ fun r => (Expr.index (n.typed r) a j,r)

theorem record_accepts {fs : List FieldInit}
    (hfs : ∀ s d seen, Ends s (inits env d seen fs) (InitsAccepted env s d seen fs))
    (hbad : ∀ s, Ends s (initExprs env fs) fun _ _ => True) (n : Note) (x : String) :
    ExprAccepts env (.record n x fs) := by
  intro s
  rw [expr]
  cases hd : env.record? x with
  | none => exact .bind (hbad s) fun fs _ _ => report_map_ends _ _ fun t => (Expr.record (n.typed t) x fs,t)
  | some d =>
    refine .bind (hfs s d []) fun _ u hu => .bind (reportIf_ends _ _ _) fun _ v hv => .pure fun hc => ?_
    obtain ⟨hc,rfl,hall⟩ := hv hc
    exact .record hd (hu hc).2 (by simpa using hall)

theorem select_accepts {as : List Arm} (he : ExprAccepts env e) (has : ∀ s t common catchAll covered,
      Ends s (arms env t common catchAll covered as) (ArmsAccepted env s t common catchAll covered as))
    (n : Note) : ExprAccepts env (.select n e as) := by
  intro s
  refine .bind (needValue_ends _ (he s)) fun ⟨a,t⟩ u hu => ?_
  dsimp only
  by_cases hm : (t ≠ .error && !isMatchable t) = true
  · rw [if_pos hm]
    refine .bind (report_ends (T := fun _ _ => False) _ _) fun t' v hv => ?_
    refine .bind (has v t' .hole false []) fun r w hw => .bind (reportIf_ends _ _ _) fun _ x hx => .pure fun hc => ?_
    exact (hv (hw (hx hc).1).1).2.elim
  · rw [if_neg hm,pure_bind]
    refine .bind (has u t .hole false []) fun ⟨bs,r,catchAll,covered⟩ v hv => ?_
    refine .bind (reportIf_ends _ _ _) fun _ w hw => .pure fun hc => ?_
    obtain ⟨hc,rfl,hall⟩ := hw hc
    obtain ⟨hc,has⟩ := hv hc
    obtain ⟨-,he,hvoid⟩ := hu hc
    refine .select he hvoid ?_ has ?_
    · by_cases ht : t = .error
      · exact .inl ht
      · exact .inr (by simpa [ht] using hm)
    · by_cases ht : t = .error
      · exact .inl ht
      · cases catchAll with
        | true => exact .inr (.inl rfl)
        | false => exact .inr (.inr (by simpa [ht] using hall))

theorem inits_cons_accept {fs : List FieldInit} (he : ExprAccepts env e)
    (hfs : ∀ s d seen, Ends s (inits env d seen fs) (InitsAccepted env s d seen fs)) (pos : Pos) (x : String)
    (s : State) (d : RecordDecl) (seen : List String) :
    Ends s (inits env d seen (.mk pos x e :: fs)) (InitsAccepted env s d seen (.mk pos x e :: fs)) := by
  refine .bind (needValue_ends _ (he s)) fun ⟨a,t⟩ u hu => ?_
  have hrest (v : State) (hv : v.Clean → v = u ∧ u.Clean ∧ seen.contains x = false ∧
      ∃ fd, d.fields.find? (·.name = x) = some fd ∧ fd.type.compatible t = true) :
      Ends v (initsAfter env d (x :: seen) (.mk pos x a) fs) (InitsAccepted env s d seen (.mk pos x e :: fs)) := by
    refine .bind (hfs v d (x :: seen)) fun ⟨gs,last⟩ w hw => .pure fun hc => ?_
    obtain ⟨hc,hfs⟩ := hw hc
    obtain ⟨rfl,hc,hx,fd,hf,hfit⟩ := hv hc
    obtain ⟨-,he,hvoid⟩ := hu hc
    exact .cons he hvoid hx hf hfit hfs
  dsimp only
  split
  · exact .bind (reportIf_ends _ _ _) fun _ v hv => hrest v fun hc => absurd (hv hc).2.2 (by simp)
  · rename_i hx
    cases hf : d.fields.find? (·.name = x) with
    | none => exact .bind (reportIf_ends _ _ _) fun _ v hv => hrest v fun hc => absurd (hv hc).2.2 (by simp)
    | some fd =>
      refine .bind (reportIf_ends _ _ _) fun _ v hv => hrest v fun hc => ?_
      obtain ⟨hc,rfl,hbad⟩ := hv hc
      exact ⟨rfl,hc,by simpa using hx,fd,hf,by simpa using hbad⟩

theorem arms_cons_accept {as : List Arm} (he : ExprAccepts env e) (has : ∀ s t common catchAll covered,
      Ends s (arms env t common catchAll covered as) (ArmsAccepted env s t common catchAll covered as))
    (pos : Pos) (p : Pattern) (s : State) (t common : Ty) (catchAll : Bool) (covered : List Cover) :
    Ends s (arms env t common catchAll covered (.mk pos p e :: as))
      (ArmsAccepted env s t common catchAll covered (.mk pos p e :: as)) := by
  have hbody (s' : State) : Ends s' (inFrame true (armBody env p t e)) fun r u => ∃ v w,
      PatternAccepted env t { s' with scope := s'.scope.push true } p r.1 v ∧
        ExprAccepted env v e (r.2.1,r.2.2) w ∧ u = { w with scope := w.scope.pop } := by
    refine Ends.weaken (inFrame_ends (Q := fun r w => ∃ v,
      PatternAccepted env t { s' with scope := s'.scope.push true } p r.1 v ∧ ExprAccepted env v e (r.2.1,r.2.2) w)
      (.bind (pattern_accepts p t) fun q u hu => .bind (he u) fun r v hv => .pure fun hc => ?_)) ?_
    · exact ⟨u,(hu (hv hc).1).2,(hv hc).2⟩
    · rintro r _ - ⟨w,⟨v,hp,he⟩,rfl⟩
      exact ⟨v,w,hp,he,rfl⟩
  rw [arms]
  refine warnIf_accepts fun s' hs' hw => .bind (hbody s') fun ⟨q,a,t'⟩ u hu => ?_
  have hrest (common' : Ty) (v : State)
      (hv : v.Clean → v = u ∧ u.Clean ∧ common.unify t' = some common') :
      Ends v (do
        let r ← arms env t common' (catchAll || p.form.isCatchAll)
          ((Cover.ofPattern? p.form).toList ++ covered) as
        return (Arm.mk pos q a :: r.1,r.2))
        (ArmsAccepted env s t common catchAll covered (.mk pos p e :: as)) := by
    refine .bind (has v t common' _ _) fun ⟨bs,r⟩ w hw' => .pure fun hc => ?_
    obtain ⟨hc,has⟩ := hw' hc
    obtain ⟨rfl,hc,hunify⟩ := hv hc
    obtain ⟨-,x,y,hp,he,rfl⟩ := hu hc
    exact .cons hw hp he hunify has
  dsimp only
  cases hunify : common.unify t' with
  | none =>
    refine .bind (reportIf_ends _ _ _) fun _ v hv => ?_
    rw [pure_bind]
    exact hrest common v fun hc => absurd (hv hc).2.2 (by simp)
  | some common' =>
    dsimp only
    rw [pure_bind]
    exact hrest common' u fun hc => ⟨rfl,hc,hunify⟩

theorem bind_accepts (he : ExprAccepts env e) (pos : Pos) (x : String) (d : Option Ty)
    (old : Option Nat) (s : State) :
    Ends s (stmt env (.bind pos x d e old)) (StmtAccepted env s (.bind pos x d e old)) := by
  refine .bind (needValue_ends _ (he s)) fun ⟨a,t⟩ u hu =>
    .bind (letType_settles pos x d (a,t)).ends fun ⟨d',t'⟩ v hv => ?_
  refine .bind (reportHiding_accepts _ x pos) fun _ w hw =>
    .bind (declare_ends x t' _ _) fun y z hz => .pure fun hc => ?_
  obtain ⟨hc,hy,rfl⟩ := hz hc
  obtain ⟨hc,hh⟩ := hw hc
  obtain ⟨hc,rfl,hd⟩ := hv hc
  obtain ⟨-,he,hvoid⟩ := hu hc
  rw [hy]
  exact .bind he hvoid hd hh

theorem assign_name_accepts (he : ExprAccepts env e) (pos : Pos) (n : Note) (x : String)
    (old : Option Symbol) (s : State) :
    Ends s (stmt env (.assign pos (.name n x old) e)) (StmtAccepted env s (.assign pos (.name n x old) e)) := by
  refine .bind (lookup_ends x) fun r u hu => ?_
  cases r with
  | none => exact .bind (needValue_ends _ (he u)) fun r v _ => reportIf_true_ends _ _ _
  | some y =>
    refine .bind (reportIf_ends _ _ _) fun _ v hv => .bind (needValue_ends _ (he v)) fun ⟨a,t⟩ w hw => ?_
    refine .bind (reportIf_ends _ _ _) fun _ z hz => .pure fun hc => ?_
    obtain ⟨hc,rfl,hfit⟩ := hz hc
    obtain ⟨hc,he,hvoid⟩ := hw hc
    obtain ⟨hc,rfl,hm⟩ := hv hc
    obtain ⟨-,rfl,hx⟩ := hu hc
    exact .assignName hx.symm (by simpa using hm) he hvoid (by simpa using hfit)

theorem assign_accepts {f : Expr} (hf : ExprAccepts env f) (he : ExprAccepts env e) (pos : Pos)
    (hname : f.isName = false) (s : State) :
    Ends s (stmt env (.assign pos f e)) (StmtAccepted env s (.assign pos f e)) := by
  rw [stmt_assign_eq env pos hname]
  refine .bind (hf s) fun ⟨b,t'⟩ u hu => .bind (needValue_ends _ (he u)) fun ⟨a,t⟩ v hv => ?_
  refine .bind (reportIf_ends _ _ _) fun _ w hw => .pure fun hc => ?_
  obtain ⟨hc,rfl,hfit⟩ := hw hc
  obtain ⟨hc,he,hvoid⟩ := hv hc
  exact .assign hname (hu hc).2 he hvoid (by simpa using hfit)

theorem ret_none_accepts (pos : Pos) (s : State) :
    Ends s (stmt env (.ret pos none)) (StmtAccepted env s (.ret pos none)) := by
  rw [stmt]
  cases hf : env.current with
  | none =>
    intro hc
    cases hc.2
  | some f =>
    dsimp only
    cases hr : f.result with
    | some t => exact reportIf_true_ends _ _ _
    | none => exact .pure fun _ => .retUnit hf hr

theorem ret_some_accepts (he : ExprAccepts env e) (pos : Pos) (s : State) :
    Ends s (stmt env (.ret pos (some e))) (StmtAccepted env s (.ret pos (some e))) := by
  rw [stmt]
  cases hf : env.current with
  | none =>
    intro hc
    cases hc.2
  | some f =>
    refine .bind (needValue_ends _ (he s)) fun q u hu => ?_
    obtain ⟨a,t⟩ := q
    dsimp only
    cases hr : f.result with
    | none => exact reportIf_true_ends _ _ _
    | some r =>
      refine .bind (reportIf_ends _ _ _) fun _ v hv => .pure fun hc => ?_
      obtain ⟨hc,rfl,hfit⟩ := hv hc
      obtain ⟨-,he,hvoid⟩ := hu hc
      exact .retValue hf he hvoid hr (by simpa using hfit)

theorem loop_accepts {b : Block} (he : ExprAccepts env e)
    (hb : ∀ s, Ends s (block env b) (BlockAccepted env s b)) (pos : Pos) (s : State) :
    Ends s (stmt env (.loop pos e b)) (StmtAccepted env s (.loop pos e b)) := by
  refine .bind (needValue_ends _ (he s)) fun ⟨a,t⟩ u hu => .bind (reportIf_ends _ _ _) fun _ v hv => ?_
  have hbody : Ends v (inLoop (block env b)) fun r z =>
    ∃ w, BlockAccepted env { v with loops := false :: v.loops } b r.1 w ∧
      r.2 = w.loops.headD false ∧ z = { w with loops := w.loops.tail } :=
    fun hc => ⟨(hb _ hc).1,_,(hb _ hc).2,rfl,rfl⟩
  refine .bind hbody fun ⟨⟨c,ends⟩,left⟩ z hz => .pure fun hc => ?_
  obtain ⟨hbegin,w,hb,rfl,rfl⟩ := hz hc
  obtain ⟨hbegin,rfl,hfit⟩ := hv hbegin
  obtain ⟨-,he,hvoid⟩ := hu hbegin
  exact .loop he hvoid (by simpa using hfit) hb

theorem each_accepts {ss : List Stmt} (he : ExprAccepts env e) (hss : StmtsAccept env ss)
    (pos bodyPos : Pos) (x : String) (old : Option Nat) (s : State) :
    Ends s (stmt env (.each pos x e (.mk bodyPos ss) old))
      (StmtAccepted env s (.each pos x e (.mk bodyPos ss) old)) := by
  refine .bind (needValue_ends _ (he s)) fun ⟨a,t⟩ u hu => .bind (elementType_settles t e.pos).ends fun r v hv => ?_
  have hbody : Ends { v with scope := v.scope.push true } (eachBody env pos x r ss) fun q z => ∃ w y ends,
      Remarks (reportHiding env .forWord x pos) { v with scope := v.scope.push true } w ∧
      StmtsAccepted env { w with scope := (w.scope.declare x r .loop false).2, loops := false :: w.loops }
        false false ss (q.2,ends) y ∧
      q.1 = some w.scope.slots.length ∧ z = { y with loops := y.loops.tail } := by
    refine .bind (reportHiding_accepts _ x pos) fun _ w hw => .bind (declare_ends x r _ _) fun y z hz => ?_
    refine .bind (inLoop_ends (hss { z with loops := false :: z.loops } false false))
      fun ⟨⟨ts,ends⟩,left⟩ c hc' => .pure fun hc => ?_
    obtain ⟨hbegin,y',hss,rfl⟩ := hc' hc
    obtain ⟨hbegin,hy,rfl⟩ := hz hbegin
    exact ⟨w,y',ends,(hw hbegin).2,hss,hy,rfl⟩
  refine .bind (inFrame_ends hbody) fun ⟨slot,ts⟩ w hw => .pure fun hc => ?_
  obtain ⟨hbegin,z,⟨w,y,ends,hh,hss,hslot,rfl⟩,rfl⟩ := hw hc
  obtain ⟨hbegin,rfl,hr⟩ := hv hbegin
  obtain ⟨-,he,hvoid⟩ := hu hbegin
  obtain rfl : slot = _ := hslot
  exact .each he hvoid hr hh hss

theorem leave_accepts (pos : Pos) (s : State) : Ends s (stmt env (.leave pos)) (StmtAccepted env s (.leave pos)) := by
  rw [stmt]
  refine .bind (Q := fun a u => a = s ∧ u = s) (fun hc => ⟨hc,rfl,rfl⟩) fun a u hu => ?_
  cases hl : a.loops with
  | nil => exact reportIf_true_ends _ _ _
  | cons l ls =>
    intro hc
    obtain ⟨hc,rfl,rfl⟩ := hu hc
    exact ⟨hc,.leave hl⟩

theorem next_accepts (pos : Pos) (s : State) : Ends s (stmt env (.next pos)) (StmtAccepted env s (.next pos)) := by
  refine .bind (Q := fun a u => a = s ∧ u = s) (fun hc => ⟨hc,rfl,rfl⟩) fun a u hu => ?_
  refine .bind (reportIf_ends _ _ _) fun _ v hv => .pure fun hc => ?_
  obtain ⟨hc,rfl,hl⟩ := hv hc
  obtain ⟨-,rfl,rfl⟩ := hu hc
  exact .next hl

theorem branch_accepts {b : Block} {c : Chain} (he : ExprAccepts env e)
    (hb : ∀ s, Ends s (block env b) (BlockAccepted env s b)) (hc : ∀ s, Ends s (chain env c) (ChainAccepted env s c))
    (pos : Pos) (s : State) : Ends s (chain env (.branch pos e b c)) (ChainAccepted env s (.branch pos e b c)) := by
  refine .bind (needValue_ends _ (he s)) fun ⟨a,t⟩ u hu => .bind (reportIf_ends _ _ _) fun _ v hv => ?_
  refine .bind (hb v) fun ⟨b',ends⟩ w hw => .bind (hc w) fun ⟨c',restEnds⟩ z hz => .pure fun hc => ?_
  obtain ⟨hc,hrest⟩ := hz hc
  obtain ⟨hc,hb⟩ := hw hc
  obtain ⟨hc,rfl,hfit⟩ := hv hc
  obtain ⟨-,he,hvoid⟩ := hu hc
  exact .branch he hvoid (by simpa using hfit) hb hrest

end Nodes

section

variable (env : Env)

mutual

theorem expr_accepts : ∀ (e : Expr) (s : State), Ends s (expr env e) (ExprAccepted env s e)
  | .int n v => int_accepts n v
  | .bool _ _ => fun _ => .pure fun _ => .bool
  | .text _ _ => fun _ => .pure fun _ => .text
  | .noneLit _ => fun _ => .pure fun _ => .noneLit
  | .name n x old => name_accepts n x old
  | .unary n op e => unary_accepts (expr_accepts e) n op
  | .binary n op a b => binary_accepts (expr_accepts a) (expr_accepts b) n op
  | .call n f es => call_accepts (values_accept es) (exprs_clean es) n f
  | .method n e m es old => method_accepts (expr_accepts e) (values_accept es) n m old
  | .array _ es => fun s => .bind (elements_accept es s .hole) fun ⟨_,_⟩ _ h => .pure fun hc => by
    obtain ⟨-,rs,hes,rfl,ht⟩ := h hc
    exact .array hes ht
  | .index n a i => index_accepts (expr_accepts a) (expr_accepts i) n
  | .field _ e f => fun s =>
    .bind (needValue_ends _ (expr_accepts e s)) fun _ _ hu => .bind (fieldType_settles _ f _).ends fun _ _ hv =>
      .pure fun hc => by
        obtain ⟨hc,rfl,hr⟩ := hv hc
        exact .field (hu hc).2.1 (hu hc).2.2 hr
  | .record n x fs => record_accepts (inits_accept fs) (initExprs_clean fs) n x
  | .wrap _ w e => fun s =>
    .bind (needValue_ends _ (expr_accepts e s)) fun _ _ hu => .bind (wrapType_settles w _ _).ends fun _ _ hv =>
      .pure fun hc => by
        obtain ⟨hc,rfl,hr⟩ := hv hc
        exact .wrap (hu hc).2.1 (hu hc).2.2 hr
  | .enum _ o v old => fun s =>
    .bind (enumTag_ends o v _) fun _ _ hu => .pure fun hc => by
      obtain ⟨-,rfl,d,i,hd,hi,rfl⟩ := hu hc
      exact .enum hd hi
  | .select n e as => select_accepts (expr_accepts e) (arms_accept as) n
  | .block _ ss none old => fun s =>
    .bind (stmts_accept ss s false false) fun _ _ h => .pure fun hc => .unit (h hc).2
  | .block _ ss (some e) old => fun s =>
    .bind (stmts_accept ss s false false) fun _ u hu => .bind (expr_accepts e u) fun _ _ hv =>
      .pure fun hc => .value (hu (hv hc).1).2 (hv hc).2

theorem values_accept : ∀ (es : List Expr) (s : State), Ends s (values env es) (ValuesAccepted env s es)
  | [] => fun _ => .pure fun _ => .nil
  | e :: es => fun s =>
    .bind (needValue_ends _ (expr_accepts e s)) fun _ u hu => .bind (values_accept es u) fun _ _ hv =>
      .pure fun hc => by
        obtain ⟨hc,hes⟩ := hv hc
        exact .cons (hu hc).2.1 (hu hc).2.2 hes

theorem exprs_clean : ∀ (es : List Expr) (s : State), Ends s (exprs env es) fun _ _ => True
  | [] => fun _ => .pure fun _ => trivial
  | e :: es => fun s => .bind (expr_accepts e s) fun _ u _ => .bind (exprs_clean es u) fun _ _ _ =>
      .pure fun _ => trivial

theorem elements_accept : ∀ (es : List Expr) (s : State) (common : Ty),
    Ends s (elements env common es) fun r u => ∃ rs, ValuesAccepted env s es rs u ∧
      r.1 = rs.map (·.1) ∧ (rs.map (·.2)).foldlM Ty.unify common = some r.2
  | [] => fun _ _ => .pure fun _ => ⟨[],.nil,rfl,rfl⟩
  | e :: es => fun s common =>
    .bind (needValue_ends _ (expr_accepts e s)) fun _ u hu => .bind (typeOr_ends _ _ _) fun common' v hv =>
      .bind (elements_accept es v common') fun _ _ hw => .pure fun hc => by
        obtain ⟨hc,rs,hes,hr,ht⟩ := hw hc
        obtain ⟨hc,rfl,hcommon⟩ := hv hc
        exact ⟨_ :: rs,.cons (hu hc).2.1 (hu hc).2.2 hes,congrArg _ hr,by simpa [hcommon] using ht⟩

theorem inits_accept : ∀ (fs : List FieldInit) (s : State) (d : RecordDecl) (seen : List String),
    Ends s (inits env d seen fs) (InitsAccepted env s d seen fs)
  | [] => fun _ _ _ => .pure fun _ => .nil
  | .mk pos x e :: fs => inits_cons_accept (expr_accepts e) (inits_accept fs) pos x

theorem initExprs_clean : ∀ (fs : List FieldInit) (s : State), Ends s (initExprs env fs) fun _ _ => True
  | [] => fun _ => .pure fun _ => trivial
  | .mk _ _ e :: fs => fun s => .bind (expr_accepts e s) fun _ u _ => .bind (initExprs_clean fs u) fun _ _ _ =>
      .pure fun _ => trivial

theorem arms_accept : ∀ (as : List Arm) (s : State) (t common : Ty) (catchAll : Bool) (covered : List Cover),
    Ends s (arms env t common catchAll covered as) (ArmsAccepted env s t common catchAll covered as)
  | [] => fun _ _ _ _ _ => .pure fun _ => .nil
  | .mk pos p e :: as => arms_cons_accept (expr_accepts e) (arms_accept as) pos p

theorem stmt_accepts : ∀ (x : Stmt) (s : State), Ends s (stmt env x) (StmtAccepted env s x)
  | .bind pos x d e old => bind_accepts (expr_accepts e) pos x d old
  | .assign pos f e => by
    cases hname : f.isName with
    | true =>
      obtain ⟨n,x,old,rfl⟩ := Expr.eq_name_of_isName hname
      exact assign_name_accepts (expr_accepts e) pos n x old
    | false => exact assign_accepts (expr_accepts f) (expr_accepts e) pos hname
  | .ret pos none => ret_none_accepts pos
  | .ret pos (some e) => ret_some_accepts (expr_accepts e) pos
  | .expr _ e => fun s => .bind (expr_accepts e s) fun _ _ h => .pure fun hc => .expr (h hc).2
  | .cond _ c => fun s => .bind (chain_accepts c s) fun _ _ h => .pure fun hc => .cond (h hc).2
  | .loop pos e b => loop_accepts (expr_accepts e) (block_accepts b) pos
  | .each pos x e (.mk bodyPos ss) old => each_accepts (expr_accepts e) (stmts_accept ss) pos bodyPos x old
  | .leave pos => leave_accepts pos
  | .next pos => next_accepts pos

theorem stmts_accept : ∀ (xs : List Stmt) (s : State) (ended warned : Bool),
    Ends s (stmts env ended warned xs) (StmtsAccepted env s ended warned xs)
  | [] => fun _ _ _ => .pure fun _ => .nil
  | x :: xs => fun s ended warned => by
    rw [stmts]
    refine warnIf_accepts fun s' _ hw => .bind (stmt_accepts x s') fun _ u hu => ?_
    refine .bind (stmts_accept xs u _ _) fun _ _ hv => .pure fun hc => ?_
    exact .cons hw (hu (hv hc).1).2 (hv hc).2

theorem block_accepts : ∀ (b : Block) (s : State), Ends s (block env b) (BlockAccepted env s b)
  | .mk _ ss => fun s => .bind (inFrame_ends (stmts_accept ss _ false false)) fun _ _ h => .pure fun hc => by
    obtain ⟨-,u,hss,rfl⟩ := h hc
    exact .mk hss

theorem chain_accepts : ∀ (c : Chain) (s : State), Ends s (chain env c) (ChainAccepted env s c)
  | .stop => fun _ => .pure fun _ => .stop
  | .otherwise b => fun s => .bind (block_accepts b s) fun _ _ h => .pure fun hc => .otherwise (h hc).2
  | .branch pos e b c => branch_accepts (expr_accepts e) (block_accepts b) (chain_accepts c) pos

end

end

end Covenant.Check
