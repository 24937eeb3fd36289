import Covenant.Proofs.Renaming.Coupling

/-! Checking expressions and statements of renamed trees. Each step of one run has its step in the other. -/

namespace Covenant.Check

variable {ρ : Renaming} {env env' : Env} {C : Coupling ρ env env'}
variable {b : Block}

section Nodes

variable (C : Coupling ρ env env')

def ExprRelated (e : Expr) : Prop :=
  C.Rel (e.gather marks) (renameTyped ρ) (expr env e) (expr env' (e.rename ρ))

def ValuesRelated (es : List Expr) : Prop :=
  C.Rel (Expr.gatherIn marks es) (List.map (renameTyped ρ)) (values env es) (values env' (Expr.renameIn ρ es))

def ExprsRelated (es : List Expr) : Prop :=
  C.Rel (Expr.gatherIn marks es) (Expr.renameIn ρ) (exprs env es) (exprs env' (Expr.renameIn ρ es))

def ElementsRelated (es : List Expr) : Prop := ∀ common,
  C.Rel (Expr.gatherIn marks es) (Prod.map (Expr.renameIn ρ) (Ty.rename ρ)) (elements env common es)
    (elements env' (common.rename ρ) (Expr.renameIn ρ es))

def InitsRelated (fs : List FieldInit) : Prop := ∀ r seen,
  C.Rel (FieldInit.gatherIn marks fs) (Prod.map (FieldInit.renameIn ρ) (List.map ρ.field)) (inits env r seen fs)
    (inits env' (r.rename ρ) (seen.map ρ.field) (FieldInit.renameIn ρ fs))

def InitExprsRelated (fs : List FieldInit) : Prop :=
  C.Rel (FieldInit.gatherIn marks fs) (FieldInit.renameIn ρ) (initExprs env fs)
    (initExprs env' (FieldInit.renameIn ρ fs))

def ArmsRelated (as : List Arm) : Prop := ∀ subject common catchAll covered,
  C.Rel (Arm.gatherIn marks as) (renameArms ρ) (arms env subject common catchAll covered as)
    (arms env' (subject.rename ρ) (common.rename ρ) catchAll
      (covered.map (Cover.rename ρ)) (Arm.renameIn ρ as))

def StmtRelated (s : Stmt) : Prop :=
  C.Rel (s.gather marks) (Prod.map (Stmt.rename ρ) id) (stmt env s) (stmt env' (s.rename ρ))

def StmtsRelated (ss : List Stmt) : Prop := ∀ ended warned,
  C.Rel (Stmt.gatherIn marks ss) (Prod.map (Stmt.renameIn ρ) id) (stmts env ended warned ss)
    (stmts env' ended warned (Stmt.renameIn ρ ss))

def BlockRelated (b : Block) : Prop :=
  C.Rel (b.gather marks) (Prod.map (Block.rename ρ) id) (block env b) (block env' (b.rename ρ))

def ChainRelated (c : Chain) : Prop :=
  C.Rel (c.gather marks) (Prod.map (Chain.rename ρ) id) (chain env c) (chain env' (c.rename ρ))

end Nodes

theorem renameIn_eq_map (es : List Expr) : Expr.renameIn ρ es = es.map (Expr.rename ρ) := by
  induction es with
  | nil => rfl
  | cons e es ih => rw [Expr.renameIn,ih,List.map_cons]

theorem map_fst_renameTyped (rs : List Typed) :
    (rs.map (renameTyped ρ)).map (·.1) = Expr.renameIn ρ (rs.map (·.1)) := by
  rw [renameIn_eq_map,List.map_map,List.map_map]
  rfl

theorem map_snd_renameTyped (rs : List Typed) :
    (rs.map (renameTyped ρ)).map (·.2) = (rs.map (·.2)).map (Ty.rename ρ) := by
  rw [List.map_map,List.map_map]
  rfl

variable {W : Watch ρ} {e : Expr} {es : List Expr} {fs : List FieldInit} {ss : List Stmt} {n : Note} {pos : Pos}
  {x : String}

theorem int_related (n : Note) (v : Int) : ExprRelated C (.int n v) := by
  simp only [ExprRelated, Expr.rename, Expr.gather, marks, List.append_nil, expr]
  split
  · exact .pure rfl
  · exact .before (C.range n.pos) fun _ => .pure rfl

theorem name_related (n : Note) (x : String) (sym : Option Symbol) : ExprRelated C (.name n x sym) := by
  refine .after (C.lookup x) fun sym => ?_
  cases sym with
  | none => exact .after (C.report (p := .undefinedName x) rfl n.pos) fun _ => .pure rfl
  | some sym => exact .pure rfl

theorem array_related (hes : ElementsRelated C es) : ExprRelated C (.array n es) := by
  refine .before (hes .hole) fun r => ?_
  obtain ⟨es',t⟩ := r
  exact .pure rfl

theorem block_expr_related {d : Bool} (hss : StmtsRelated C ss)
    (he : ExprRelated C e) : ExprRelated C (.block n ss (some e) d) := by
  refine .node ?_
  refine .parts (hss false false) fun r => ?_
  obtain ⟨ss',d⟩ := r
  refine .before he fun r => ?_
  obtain ⟨e',t⟩ := r
  exact .pure rfl

theorem block_unit_related {d : Bool} (hss : StmtsRelated C ss) : ExprRelated C (.block n ss none d) := by
  refine .before (hss false false) fun r => ?_
  obtain ⟨ss',d⟩ := r
  cases d <;> exact .pure rfl

theorem exprs_cons_related (he : ExprRelated C e) (hes : ExprsRelated C es) : ExprsRelated C (e :: es) := by
  refine .parts he fun r => ?_
  obtain ⟨e',t⟩ := r
  exact .before hes fun _ => .pure rfl

theorem initExprs_cons_related
    (he : ExprRelated C e) (hfs : InitExprsRelated C fs) : InitExprsRelated C (.mk pos x e :: fs) := by
  refine .parts he fun r => ?_
  obtain ⟨e',t⟩ := r
  exact .before hfs fun _ => .pure rfl

theorem covered_rename (p : PatternForm) (covered : List Cover) :
    (Cover.ofPattern? (p.rename ρ)).toList ++ covered.map (Cover.rename ρ) =
      ((Cover.ofPattern? p).toList ++ covered).map (Cover.rename ρ) := by
  rw [Cover.ofPattern?_rename,List.map_append]
  cases Cover.ofPattern? p <;> rfl

theorem ret_unit_related (pos : Pos) : StmtRelated C (.ret pos none) := by
  simp only [StmtRelated, Stmt.rename, stmt, C.alike.current]
  cases hcurrent : env.current with
  | none => exact .before (C.stray hcurrent) fun _ => .pure rfl
  | some f =>
    obtain ⟨g,result⟩ := f
    refine C.inside (by rw [hcurrent]; rfl) (?_ : C.Rel [] _ _ _)
    cases result with
    | none => exact .after (.pure rfl) fun _ => .pure rfl
    | some t => exact .after (reportIf_related (p := .returnsNothing g t) rfl rfl pos) fun _ => .pure rfl

theorem expr_stmt_related (he : ExprRelated C e) : StmtRelated C (.expr pos e) := by
  refine .before he fun r => ?_
  obtain ⟨e',t⟩ := r
  refine .pure ?_
  simp only [neverEnds_rename]
  rfl

theorem cond_related {c : Chain} (hc : ChainRelated C c) : StmtRelated C (.cond pos c) := by
  refine .before hc fun r => ?_
  obtain ⟨c',ends⟩ := r
  exact .pure rfl

theorem stmts_cons_related {s : Stmt} (hs : StmtRelated C s) (hss : StmtsRelated C ss) :
    StmtsRelated C (s :: ss) := by
  intro ended warned
  have hrest : C.Rel (s.gather marks ++ Stmt.gatherIn marks ss) (Prod.map (Stmt.renameIn ρ) id)
      (do
        let r ← stmt env s
        let q ← stmts env (ended || r.2) ended ss
        return (r.1 :: q.1,q.2))
      (do
        let r ← stmt env' (s.rename ρ)
        let q ← stmts env' (ended || r.2) ended (Stmt.renameIn ρ ss)
        return (r.1 :: q.1,q.2)) :=
    .parts hs fun r => .before (hss (ended || r.2) ended) fun _ => .pure rfl
  simp only [Stmt.renameIn, stmts, Stmt.pos_rename]
  exact .ite Iff.rfl (.after (C.warn (c := .unreachableStatement) rfl s.pos) fun _ => hrest) hrest

theorem block_related (hss : StmtsRelated C ss) : BlockRelated C (.mk pos ss) := by
  refine .before (C.inFrame true (hss false false)) fun r => ?_
  obtain ⟨ss',ends⟩ := r
  exact .pure rfl

theorem otherwise_related (hb : BlockRelated C b) : ChainRelated C (.otherwise b) := by
  refine .before hb fun r => ?_
  obtain ⟨b',ends⟩ := r
  exact .pure rfl

theorem leave_carries (pos : Pos) : Carries W (Prod.map (Stmt.rename ρ) id) (stmt env (.leave pos))
    (stmt env' (.leave (ρ.place pos))) := by
  refine .get fun s s' hs => ?_
  rw [hs.loops]
  cases s.loops with
  | nil => exact .bind (reportIf_carries (p := .outsideLoop .breakWord) rfl rfl pos) fun _ => .pure rfl
  | cons left outer =>
    exact .bind (.modify fun s s' hs => ⟨hs.scope,rfl,hs.stray,hs.findings⟩) fun _ => .pure rfl

theorem next_carries (pos : Pos) : Carries W (Prod.map (Stmt.rename ρ) id) (stmt env (.next pos))
    (stmt env' (.next (ρ.place pos))) := by
  refine .get fun s s' hs => ?_
  rw [hs.loops]
  exact .bind (reportIf_carries (p := .outsideLoop .continueWord) rfl rfl pos) fun _ => .pure rfl

section Faithful

variable [ρ.Faithful]

theorem ExprRelated.value (he : ExprRelated C e) :
    C.Rel (e.gather marks) (renameTyped ρ) (needValue e.pos (expr env e))
      (needValue (e.rename ρ).pos (expr env' (e.rename ρ))) := by
  rw [Expr.pos_rename]
  exact needValue_related he e.pos

theorem unary_related {op : UnaryOp} (he : ExprRelated C e) : ExprRelated C (.unary n op e) := by
  refine .before he.value fun r => ?_
  obtain ⟨e',t⟩ := r
  have hresult := typeOr_related (C := C) (op.type? t) (p := .unaryOperand op t) rfl n.pos
  rw [← UnaryOp.type?_rename] at hresult
  exact .after hresult fun _ => .pure rfl

theorem binary_related {op : BinaryOp} {a b : Expr} (ha : ExprRelated C a) (hb : ExprRelated C b) :
    ExprRelated C (.binary n op a b) := by
  refine .node ?_
  refine .parts ha.value fun r => ?_
  obtain ⟨a',s⟩ := r
  refine .before hb.value fun r => ?_
  obtain ⟨b',t⟩ := r
  have hresult := typeOr_related (C := C) (op.type? s t) (p := .binaryOperands op s t) rfl n.pos
  rw [← BinaryOp.type?_rename] at hresult
  exact .after hresult fun _ => .pure rfl

theorem call_related {f : Callee} {args : List Expr} (hvalues : ValuesRelated C args) (hexprs : ExprsRelated C args) :
    ExprRelated C (.call n f args) := by
  obtain ⟨hbuiltin,hhost⟩ := ρ.library_function f.name
  simp only [ExprRelated, Expr.rename, expr, Callee.name_rename, C.alike.function?, hbuiltin, hhost]
  cases env.function? f.name with
  | some sig =>
    refine .before hvalues fun args' => .after (checkCall_related f.name sig.params args' n.pos) fun _ => .pure ?_
    rw [map_fst_renameTyped,Signature.rename,Ty.getD_void_rename]
    rfl
  | none =>
    simp only [Option.map_none]
    cases Builtin.ofFunction? f.name with
    | some b =>
      refine .before hvalues fun args' => ?_
      rw [map_snd_renameTyped,map_fst_renameTyped]
      exact .after (builtinResult_related b _ n.pos) fun _ => .pure rfl
    | none =>
      cases hh : HostFunction.find? f.name with
      | some h =>
        obtain ⟨hparams,hresult⟩ := HostFunction.types_rename (ρ := ρ) hh
        have hcheck (args' : List Typed) := checkCall_related (C := C) f.name h.params args' n.pos
        rw [hparams] at hcheck
        have hvoid : (h.result.getD .void).rename ρ = h.result.getD .void := by
          rw [← Ty.getD_void_rename,hresult]
        refine .before hvalues fun args' => .after (hcheck args') fun _ => .pure ?_
        rw [map_fst_renameTyped]
        simp only [renameTyped, Expr.rename, Callee.rename, HostFunction.rename_of_find? hh, Note.rename,
          Note.typed, Option.map_some, hvoid]
      | none =>
        exact .before hexprs fun args' => .after (C.report (p := .undefinedFunction f.name) rfl n.pos)
          fun _ => .pure rfl

theorem method_related {m : String} {args : List Expr} {b : Option Builtin} (he : ExprRelated C e)
    (hargs : ValuesRelated C args) : ExprRelated C (.method n e m args b) := by
  refine .node ?_
  refine .parts he.value fun r => ?_
  obtain ⟨e',t⟩ := r
  refine .before hargs fun args' => ?_
  rw [map_fst_renameTyped,map_snd_renameTyped]
  refine .ite (Ty.rename_eq_error t) (.pure rfl) ?_
  rw [Builtin.ofMethod?_rename]
  cases Builtin.ofMethod? t m with
  | none => exact .after (C.report (p := .noMethod t m) rfl n.pos) fun _ => .pure rfl
  | some op => exact .after (builtinResult_related op (t :: args'.map (·.2)) n.pos) fun _ => .pure rfl

theorem index_related {a i : Expr} (ha : ExprRelated C a) (hi : ExprRelated C i) : ExprRelated C (.index n a i) := by
  refine .node ?_
  refine .parts ha.value fun r => ?_
  obtain ⟨a',s⟩ := r
  refine .before hi.value fun r => ?_
  obtain ⟨i',t⟩ := r
  simp only [renameTyped, Expr.pos_rename]
  refine .after (reportIf_related (p := .indexType t) (by simp) rfl i.pos) fun _ => ?_
  cases s with
  | array | error => exact .pure rfl
  | _ => exact .after (C.report (p := .notIndexable _) rfl n.pos) fun _ => .pure rfl

theorem field_related {f : String} (he : ExprRelated C e) : ExprRelated C (.field n e f) := by
  refine .before he.value fun r => ?_
  obtain ⟨e',t⟩ := r
  exact .after (fieldType_related t f n.pos) fun _ => .pure rfl

theorem missing_rename (fields : List FieldDecl) (seen : List String) :
    (((fields.map (FieldDecl.rename ρ)).map (·.name)).filter fun f => !(seen.map ρ.field).contains f) =
      ((fields.map (·.name)).filter fun f => !seen.contains f).map ρ.field := by
  have hnames : (fields.map (FieldDecl.rename ρ)).map (·.name) = (fields.map (·.name)).map ρ.field := by
    rw [List.map_map,List.map_map]
    rfl
  have hseen : ((fun f => !(seen.map ρ.field).contains f) ∘ ρ.field) = fun f => !seen.contains f := by
    funext f
    exact congrArg Bool.not (contains_rename ρ.field_injective f seen)
  rw [hnames,List.filter_map,hseen]

theorem record_related (hinits : InitsRelated C fs) (hexprs : InitExprsRelated C fs) :
    ExprRelated C (.record n x fs) := by
  simp only [ExprRelated, Expr.rename, expr, C.alike.record?]
  cases env.record? x with
  | none =>
    exact .before hexprs fun fs' => .after (C.report (p := .unknownRecord x) rfl n.pos) fun _ => .pure rfl
  | some r =>
    refine .before (hinits r []) fun q => ?_
    obtain ⟨fs',seen⟩ := q
    simp only [Prod.map_apply, RecordDecl.rename, missing_rename, List.isEmpty_map]
    exact .after (reportIf_related (p := .missingFields r.name _) rfl rfl n.pos) fun _ => .pure rfl

theorem wrap_related {w : Wrapper} (he : ExprRelated C e) : ExprRelated C (.wrap n w e) := by
  refine .before he.value fun r => ?_
  obtain ⟨e',t⟩ := r
  rw [Expr.pos_rename]
  exact .after (wrapType_related w t e.pos) fun _ => .pure rfl

theorem enum_related (n : Note) (o v : String) (tag : Option Nat) : ExprRelated C (.enum n o v tag) := by
  refine .after (enumTag_related o v n.pos) fun r => ?_
  obtain ⟨i,t⟩ := r
  exact .pure rfl

theorem select_related {as : List Arm} (he : ExprRelated C e) (has : ArmsRelated C as) :
    ExprRelated C (.select n e as) := by
  refine .node ?_
  refine .parts he.value fun r => ?_
  obtain ⟨e',t⟩ := r
  simp only [renameTyped, Expr.pos_rename, isMatchable_rename]
  refine .ite (by simp) (.after (C.report (p := .notMatchable t) rfl e.pos) fun subject => ?_)
    (.after (.pure rfl) fun subject => ?_)
  all_goals
    refine .before (has subject .hole false []) fun r => ?_
    obtain ⟨as',r,catchAll,covered⟩ := r
    refine .after (reportIf_related (p := .notExhaustive _) ?_ rfl n.pos) fun _ => .pure rfl
    simp [renameArms, isExhaustive_rename C.alike]

theorem values_cons_related (he : ExprRelated C e) (hes : ValuesRelated C es) : ValuesRelated C (e :: es) :=
  .parts he.value fun _ => .before hes fun _ => .pure rfl

theorem elements_cons_related (he : ExprRelated C e) (hes : ElementsRelated C es) : ElementsRelated C (e :: es) := by
  intro common
  refine .parts he.value fun r => ?_
  obtain ⟨e',t⟩ := r
  have hcommon := typeOr_related (C := C) (common.unify t) (p := .elementTypes common t) rfl e.pos
  rw [← Ty.unify_rename] at hcommon
  rw [Expr.pos_rename]
  refine .after hcommon fun common => .before (hes common) fun r => ?_
  obtain ⟨es',u⟩ := r
  exact .pure rfl

theorem inits_cons_related (he : ExprRelated C e) (hfs : InitsRelated C fs) : InitsRelated C (.mk pos x e :: fs) := by
  intro r seen
  refine .parts he.value fun q => ?_
  obtain ⟨e',t⟩ := q
  have hrest : C.Rel (FieldInit.gatherIn marks fs) (Prod.map (FieldInit.renameIn ρ) (List.map ρ.field))
      (do
        let q ← inits env r (x :: seen) fs
        return (.mk pos x e' :: q.1,q.2))
      (do
        let q ← inits env' (r.rename ρ) (ρ.field x :: seen.map ρ.field)
          (FieldInit.renameIn ρ fs)
        return (.mk (ρ.place pos) (ρ.field x) (e'.rename ρ) :: q.1,q.2)) :=
    .before (hfs r (x :: seen)) fun _ => .pure rfl
  simp only [renameTyped, Expr.pos_rename, contains_rename ρ.field_injective,
    RecordDecl.findField?_rename]
  refine .ite Iff.rfl (.after (reportIf_related (p := .fieldGivenTwice x) rfl rfl pos) fun _ => hrest) ?_
  cases r.fields.find? (·.name = x) with
  | none => exact .after (reportIf_related (p := .noField r.name x) rfl rfl pos) fun _ => hrest
  | some f =>
    refine .after (reportIf_related (p := .fieldType x f.type t) ?_ rfl e.pos) fun _ => hrest
    exact congrArg Bool.not (Ty.compatible_rename f.type t)

theorem arms_cons_related {p : Pattern} {as : List Arm} (he : ExprRelated C e) (has : ArmsRelated C as) :
    ArmsRelated C (.mk pos p e :: as) := by
  intro subject common catchAll covered
  have hbody : C.Rel (e.gather marks) (Prod.map (Pattern.rename ρ) (renameTyped ρ))
      (inFrame true do
        let p' ← pattern env p subject
        let r ← expr env e
        return (p',r.1,r.2))
      (inFrame true do
        let p' ← pattern env' (p.rename ρ) (subject.rename ρ)
        let r ← expr env' (e.rename ρ)
        return (p',r.1,r.2)) :=
    C.inFrame true (.after (pattern_related p subject) fun _ => .before he fun _ => .pure rfl)
  have hcatchAll : (p.rename ρ).form.isCatchAll = p.form.isCatchAll := PatternForm.isCatchAll_rename p.form
  have hcovered : (Cover.ofPattern? (p.rename ρ).form).toList ++ covered.map (Cover.rename ρ) =
      ((Cover.ofPattern? p.form).toList ++ covered).map (Cover.rename ρ) := covered_rename p.form covered
  have hrest (p' : Pattern) (e' : Expr) (c : Ty) : C.Rel (Arm.gatherIn marks as) (renameArms ρ)
      (do
        let r ← arms env subject c (catchAll || p.form.isCatchAll)
          ((Cover.ofPattern? p.form).toList ++ covered) as
        return (.mk pos p' e' :: r.1,r.2))
      (do
        let r ← arms env' (subject.rename ρ) (c.rename ρ) (catchAll || p.form.isCatchAll)
          (((Cover.ofPattern? p.form).toList ++ covered).map (Cover.rename ρ)) (Arm.renameIn ρ as)
        return (.mk (ρ.place pos) (p'.rename ρ) (e'.rename ρ) :: r.1,r.2)) :=
    .before (has subject c _ _) fun _ => .pure rfl
  simp only [arms, Arm.renameIn, hcatchAll, hcovered, Expr.pos_rename]
  refine .ite Iff.rfl (.after (C.warn (c := .unreachableArm) rfl pos) fun _ => ?_) ?_
  all_goals
    refine .parts hbody fun r => ?_
    obtain ⟨p',e',t⟩ := r
    simp only [Prod.map_apply, renameTyped, Ty.unify_rename]
    cases common.unify t with
    | some u => exact .after (.pure rfl) fun c => hrest p' e' c
    | none =>
      exact .after (reportIf_related (p := .armTypes common t) rfl rfl e.pos) fun _ =>
        .after (.pure rfl) fun c => hrest p' e' c

theorem bind_related {declared : Option Ty} {slot : Option Nat} (he : ExprRelated C e) :
    StmtRelated C (.bind pos x declared e slot) := by
  refine .before he.value fun value => .after (letType_related pos x declared value) fun r => ?_
  obtain ⟨declared,t⟩ := r
  exact .after (C.hide .letWord x pos) fun _ =>
    .after (C.declare x t .letBound true) fun _ => .pure rfl

theorem assign_name_related {old : Option Symbol} (he : ExprRelated C e) :
    StmtRelated C (.assign pos (.name n x old) e) := by
  refine .after (C.lookup x) fun sym => ?_
  cases sym with
  | none =>
    refine .before he.value fun r => ?_
    obtain ⟨e',t⟩ := r
    exact .after (reportIf_related (p := .undeclaredTarget x) rfl rfl n.pos) fun _ => .pure rfl
  | some sym =>
    refine .after (reportIf_related (p := .immutableTarget sym.kind x) rfl rfl n.pos) fun _ =>
      .before he.value fun r => ?_
    obtain ⟨e',t⟩ := r
    simp only [renameTyped, Symbol.rename, Ty.compatible_rename, Expr.pos_rename]
    exact .after (reportIf_related (p := .assignedType sym.type t) rfl rfl e.pos) fun _ => .pure rfl

theorem assign_related {target : Expr} (htarget : ExprRelated C target) (he : ExprRelated C e) :
    StmtRelated C (.assign pos target e) := by
  have hplace : C.Rel (target.gather marks ++ e.gather marks) (Prod.map (Stmt.rename ρ) id)
      (do
        let r ← expr env target
        let q ← needValue e.pos (expr env e)
        reportIf (!r.2.compatible q.2) (.assignedType r.2 q.2) e.pos
        return (.assign pos r.1 q.1,false))
      (do
        let r ← expr env' (target.rename ρ)
        let q ← needValue (e.rename ρ).pos (expr env' (e.rename ρ))
        reportIf (!r.2.compatible q.2) (.assignedType r.2 q.2) (e.rename ρ).pos
        return (.assign (ρ.place pos) r.1 q.1,false)) := by
    refine .parts htarget fun r => .before he.value fun q => ?_
    simp only [renameTyped, Ty.compatible_rename, Expr.pos_rename]
    exact .after (reportIf_related (p := .assignedType r.2 q.2) rfl rfl e.pos) fun _ => .pure rfl
  cases target with
  | name n x old => exact assign_name_related he
  | block n ss tail d => cases tail <;> exact hplace
  | _ => exact hplace

theorem ret_value_related (he : ExprRelated C e) : StmtRelated C (.ret pos (some e)) := by
  simp only [StmtRelated, Stmt.rename, stmt, C.alike.current]
  cases hcurrent : env.current with
  | none => exact .before (C.stray hcurrent) fun _ => .pure rfl
  | some f =>
    obtain ⟨g,result⟩ := f
    refine C.inside (by rw [hcurrent]; rfl) (.before he.value fun r => ?_)
    obtain ⟨e',t⟩ := r
    cases result with
    | none => exact .after (reportIf_related (p := .returnsValue g t) rfl rfl pos) fun _ => .pure rfl
    | some u =>
      have hfits := Ty.compatible_rename (ρ := ρ) u t
      rw [Expr.pos_rename]
      exact .after (reportIf_related (p := .returnedType g u t) (congrArg Bool.not hfits) rfl e.pos) fun _ =>
        .pure rfl

theorem loop_related (he : ExprRelated C e) (hb : BlockRelated C b) : StmtRelated C (.loop pos e b) := by
  refine .node ?_
  refine .parts he.value fun r => ?_
  obtain ⟨e',t⟩ := r
  have hfits := Ty.compatible_rename (ρ := ρ) .boolean t
  rw [Expr.pos_rename]
  refine .after (reportIf_related (p := .conditionType .whileWord t) (congrArg Bool.not hfits) rfl e.pos)
    fun _ => .before (C.inLoop hb) fun r => ?_
  obtain ⟨⟨b',ends⟩,left⟩ := r
  refine .pure ?_
  simp only [isTrueLiteral_rename]
  rfl

theorem each_related {bodyPos : Pos} {slot : Option Nat} (he : ExprRelated C e) (hss : StmtsRelated C ss) :
    StmtRelated C (.each pos x e (.mk bodyPos ss) slot) := by
  refine .node ?_
  refine .parts he.value fun r => ?_
  obtain ⟨e',t⟩ := r
  rw [Expr.pos_rename]
  refine .after (elementType_related t e.pos) fun element => ?_
  refine .before (C.inFrame (f := Prod.map id (Stmt.renameIn ρ)) true ?_) fun r => ?_
  · refine .after (C.hide .forWord x pos) fun _ =>
      .after (C.declare x element .loop false) fun sym =>
        .before (C.inLoop (hss false false)) fun r => ?_
    obtain ⟨⟨ss',ends⟩,left⟩ := r
    exact .pure rfl
  · obtain ⟨slot,ss'⟩ := r
    exact .pure rfl

theorem branch_related {rest : Chain} (he : ExprRelated C e) (hb : BlockRelated C b) (hrest : ChainRelated C rest) :
    ChainRelated C (.branch pos e b rest) := by
  refine .parts he.value fun r => ?_
  obtain ⟨e',t⟩ := r
  have hfits := Ty.compatible_rename (ρ := ρ) .boolean t
  rw [Expr.pos_rename]
  refine .after (reportIf_related (p := .conditionType .ifWord t) (congrArg Bool.not hfits) rfl e.pos)
    fun _ => .parts hb fun r => ?_
  obtain ⟨b',ends⟩ := r
  refine .before hrest fun r => ?_
  obtain ⟨rest',restEnds⟩ := r
  exact .pure rfl

end Faithful

mutual

theorem expr_related [ρ.Faithful] : ∀ e, ExprRelated C e
  | .int n v => int_related n v
  | .bool _ _ | .text _ _ | .noneLit _ => .pure rfl
  | .name n x sym => name_related n x sym
  | .unary _ _ e => unary_related (expr_related e)
  | .binary _ _ a b => binary_related (expr_related a) (expr_related b)
  | .call _ _ args => call_related (values_related args) (exprs_related args)
  | .method _ e _ args _ => method_related (expr_related e) (values_related args)
  | .array _ es => array_related (elements_related es)
  | .index _ a i => index_related (expr_related a) (expr_related i)
  | .field _ e _ => field_related (expr_related e)
  | .record _ _ fs => record_related (inits_related fs) (initExprs_related fs)
  | .wrap _ _ e => wrap_related (expr_related e)
  | .enum n o v tag => enum_related n o v tag
  | .select _ e as => select_related (expr_related e) (arms_related as)
  | .block _ ss (some e) _ => block_expr_related (stmts_related ss) (expr_related e)
  | .block _ ss none _ => block_unit_related (stmts_related ss)

theorem values_related [ρ.Faithful] : ∀ es, ValuesRelated C es
  | [] => .pure rfl
  | e :: es => values_cons_related (expr_related e) (values_related es)

theorem exprs_related [ρ.Faithful] : ∀ es, ExprsRelated C es
  | [] => .pure rfl
  | e :: es => exprs_cons_related (expr_related e) (exprs_related es)

theorem elements_related [ρ.Faithful] : ∀ es, ElementsRelated C es
  | [] => fun _ => .pure rfl
  | e :: es => elements_cons_related (expr_related e) (elements_related es)

theorem inits_related [ρ.Faithful] : ∀ fs, InitsRelated C fs
  | [] => fun _ _ => .pure rfl
  | .mk _ _ e :: fs => inits_cons_related (expr_related e) (inits_related fs)

theorem initExprs_related [ρ.Faithful] : ∀ fs, InitExprsRelated C fs
  | [] => .pure rfl
  | .mk _ _ e :: fs => initExprs_cons_related (expr_related e) (initExprs_related fs)

theorem arms_related [ρ.Faithful] : ∀ as, ArmsRelated C as
  | [] => fun _ _ _ _ => .pure rfl
  | .mk _ _ e :: as => arms_cons_related (expr_related e) (arms_related as)

theorem stmt_related [ρ.Faithful] : ∀ s, StmtRelated C s
  | .bind _ _ _ e _ => bind_related (expr_related e)
  | .assign _ t e => assign_related (expr_related t) (expr_related e)
  | .ret pos none => ret_unit_related pos
  | .ret _ (some e) => ret_value_related (expr_related e)
  | .expr _ e => expr_stmt_related (expr_related e)
  | .cond _ c => cond_related (chain_related c)
  | .loop _ e b => loop_related (expr_related e) (blocks_related b)
  | .each _ _ e (.mk _ ss) _ => each_related (expr_related e) (stmts_related ss)
  | .leave pos => C.leave pos
  | .next pos => C.next pos

theorem stmts_related [ρ.Faithful] : ∀ ss, StmtsRelated C ss
  | [] => fun _ _ => .pure rfl
  | s :: ss => stmts_cons_related (stmt_related s) (stmts_related ss)

theorem blocks_related [ρ.Faithful] : ∀ b, BlockRelated C b
  | .mk _ ss => block_related (stmts_related ss)

theorem chain_related [ρ.Faithful] : ∀ c, ChainRelated C c
  | .stop => .pure rfl
  | .otherwise b => otherwise_related (blocks_related b)
  | .branch _ e b rest => branch_related (expr_related e) (blocks_related b) (chain_related rest)

end

theorem resolveType_carries [ρ.Faithful] (env : Env) (t : Ty) (pos : Pos) :
    Carries W (Ty.rename ρ) (resolveType env t pos)
      (resolveType (env.rename ρ W.second) (t.rename ρ) (ρ.place pos)) := by
  rw [resolveType,resolveType,(env.alike_rename W.second).resolve]
  cases env.resolve t with
  | ok u => exact .pure rfl
  | error n => exact report_carries (p := .unknownType n) rfl pos

def Carries.coupling [ρ.Faithful] (henv : env.policy = W.first) : Coupling ρ env (env.rename ρ W.second) where
  alike := env.alike_rename W.second
  Rel _ f m m' := Carries W f m m'
  pure := .pure
  bind := .bind
  report hp := report_carries (Problem.isHiding_of_isOrdinary hp)
  range := report_carries rfl
  warn := warn_carries
  hide := reportHiding_carries henv
  lookup := lookup_carries
  declare := declare_carries
  inFrame := inFrame_carries
  inLoop := inLoop_carries
  leave := leave_carries
  next := next_carries
  stray _ := .modify fun _ _ hs => ⟨hs.scope,hs.loops,rfl,hs.findings⟩
  inside _ hm := hm

theorem value_carries [ρ.Faithful] (henv : env.policy = W.first) (e : Expr) :
    Carries W (renameTyped ρ) (needValue e.pos (expr env e))
      (needValue (e.rename ρ).pos (expr (env.rename ρ W.second) (e.rename ρ))) :=
  (expr_related (C := Carries.coupling henv) e).value

theorem stmts_carry [ρ.Faithful] (henv : env.policy = W.first) (ss : List Stmt) (ended warned : Bool) :
    Carries W (Prod.map (Stmt.renameIn ρ) id) (stmts env ended warned ss)
      (stmts (env.rename ρ W.second) ended warned (Stmt.renameIn ρ ss)) :=
  stmts_related (C := Carries.coupling henv) ss ended warned

end Covenant.Check
