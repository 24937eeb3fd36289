import Covenant.Proofs.Mistakes.Checking

/-! The checks of single expressions, beside the same expressions with a mistake in some part. The second
check of a node finds what the checks of its parts find, and nothing else but a search among lost
elements. -/

namespace Covenant.Check

variable {x : String} {env : Env} {k l : Nat} {s s' u v : State}

mutual

theorem ExprAccepted.plain {s u : State} {e : Expr} {r : Typed} (h : ExprAccepted env s e r u)
    (hplain : e.isPlain = true) : u = s := by
  cases h with
  | int | bool | text | noneLit | name | enum => rfl
  | unary he | field he | wrap he => exact he.plain hplain
  | binary he _ hf | index he _ hf =>
    obtain ⟨ha,hb⟩ := Bool.and_eq_true_iff.mp hplain
    exact (hf.plain hb).trans (he.plain ha)
  | user _ hes | builtin _ _ hes | host _ _ _ hes | array hes => exact hes.plain hplain
  | method he _ hes | methodLost he hes =>
    obtain ⟨ha,hb⟩ := Bool.and_eq_true_iff.mp hplain
    exact (hes.plain hb).trans (he.plain ha)
  | record _ hfs => exact hfs.plain hplain
  | select | unit | value => cases hplain

theorem ValuesAccepted.plain {s u : State} {es : List Expr} {rs : List Typed} (h : ValuesAccepted env s es rs u)
    (hplain : Expr.arePlain es = true) : u = s := by
  cases h with
  | nil => rfl
  | cons he _ hes =>
    obtain ⟨ha,hb⟩ := Bool.and_eq_true_iff.mp hplain
    exact (hes.plain hb).trans (he.plain ha)

theorem InitsAccepted.plain {s u : State} {d : RecordDecl} {seen : List String} {fs : List FieldInit}
    {r : List FieldInit × List String} (h : InitsAccepted env s d seen fs r u)
    (hplain : FieldInit.arePlain fs = true) : u = s := by
  cases h with
  | nil => rfl
  | cons he _ _ _ _ hfs =>
    obtain ⟨ha,hb⟩ := Bool.and_eq_true_iff.mp hplain
    exact (hfs.plain hb).trans (he.plain ha)

end

/-- Whether an arm of a match is a block that never reaches its end. -/
def blockEnds : Expr → Bool
  | .block _ _ _ d => d
  | _ => false

theorem neverEnds_arms (n : Note) (e : Expr) (as : List Arm) :
    neverEnds (.select n e as) = as.all fun a => blockEnds a.body := by
  simp only [neverEnds]
  congr 1

/-- An annotated expression with its type, beside the same with `k` mistakes. -/
structure ExprTold (x : String) (k : Nat) (r r' : Typed) (found : List Diagnostic) : Prop where
  told : Told x k (r'.1.Every searchesKnown true) found
  blurs : r.2.Blurs r'.2
  note : r'.1.type = some r'.2
  blockEnds : blockEnds r'.1 = blockEnds r.1
  neverEnds : neverEnds r'.1 = neverEnds r.1

section Nodes

variable (x env k s u)

def ExprBeside (r : Typed) (e : Expr) : Prop :=
  ∀ s', s.Blurs x s' → Beside x u s' [] (expr env e) (ExprTold x k r)

def ValuesBeside (rs : List Typed) (es : List Expr) : Prop :=
  ∀ s', s.Blurs x s' → Beside x u s' [] (values env es) fun rs' found =>
    Told x k (Expr.EveryIn searchesKnown true (rs'.map (·.1))) found ∧
      List.Forall₂ Ty.Blurs (rs.map (·.2)) (rs'.map (·.2)) ∧
      (rs'.map (·.1)).filterMap (·.type) = rs'.map (·.2)

def ElementsBeside (common r : Ty) (es : List Expr) : Prop :=
  ∀ s' common', s.Blurs x s' → common.Blurs common' →
    Beside x u s' [] (elements env common' es) fun r' found =>
      Told x k (Expr.EveryIn searchesKnown true r'.1) found ∧ r.Blurs r'.2

def InitsBeside (d : RecordDecl) (seen : List String) (r : List FieldInit × List String) (fs : List FieldInit) : Prop :=
  ∀ s', s.Blurs x s' → Beside x u s' [] (inits env d seen fs) fun r' found =>
    Told x k (FieldInit.EveryIn searchesKnown true r'.1) found ∧ r'.2 = r.2

def ArmsBeside (t common : Ty) (catchAll : Bool) (covered : List Cover) (r : List Arm × Ty × Bool × List Cover)
    (as : List Arm) : Prop :=
  ∀ s' t' common', s.Blurs x s' → t.Blurs t' → common.Blurs common' →
    Beside x u s' [] (arms env t' common' catchAll covered as) fun r' found =>
      Told x k (Arm.EveryIn searchesKnown true r'.1) found ∧ r.2.1.Blurs r'.2.1 ∧ r'.2.2 = r.2.2 ∧
        (r'.1.all fun a => blockEnds a.body) = r.1.all fun a => blockEnds a.body

def StmtBeside (r : Stmt × Bool) (a : Stmt) : Prop :=
  ∀ s', s.Blurs x s' → Beside x u s' [] (stmt env a) fun r' found =>
    Told x k (r'.1.Every searchesKnown true) found ∧ r'.2 = r.2

def StmtsBeside (ended warned : Bool) (r : List Stmt × Bool) (ss : List Stmt) : Prop :=
  ∀ s', s.Blurs x s' → Beside x u s' [] (stmts env ended warned ss) fun r' found =>
    Told x k (Stmt.EveryIn searchesKnown true r'.1) found ∧ r'.2 = r.2

def BlockBeside (r : Block × Bool) (b : Block) : Prop :=
  ∀ s', s.Blurs x s' → Beside x u s' [] (block env b) fun r' found =>
    Told x k (r'.1.Every searchesKnown true) found ∧ r'.2 = r.2

def ChainBeside (r : Chain × Bool) (c : Chain) : Prop :=
  ∀ s', s.Blurs x s' → Beside x u s' [] (chain env c) fun r' found =>
    Told x k (r'.1.Every searchesKnown true) found ∧ r'.2 = r.2

end Nodes

variable {a b e e' i j : Expr} {t t' r : Ty} {es : List Expr} {rs : List Typed} {n : Note}

variable {q : Typed} {y : String} {f : Callee} {pos : Pos} {p : Pattern}

theorem ExprBeside.value (h : ExprBeside x env k s u q e) (ht : q.2 ≠ .void) (hs : s.Blurs x s')
    (pos : Pos) : Beside x u s' [] (needValue pos (expr env e)) (ExprTold x k q) := by
  refine .bind (h s' hs) fun ⟨a,t⟩ u' found hr hu => ?_
  dsimp only
  rw [if_neg (hr.blurs.ne_void ht)]
  exact .pure hu hr

theorem mistake_beside (h : ExprAccepted env s e q u) (hplain : e.isPlain = true) (pos : Pos) :
    ExprBeside x env 1 s u q (.name ⟨pos,none⟩ x none) := by
  intro s' hs
  obtain rfl := h.plain hplain
  have hrun : (expr env (.name ⟨pos,none⟩ x none)).run s' =
      ((.name ⟨pos,some .error⟩ x none,.error),
        { s' with errors := s'.errors ++ [⟨.undefinedName x,pos⟩] }) := by
    have hnone := hs.scope.get?_absent
    rw [expr]
    simp only [lookup, StateT.run_bind, StateT.run_get, StateT.run_pure, pure_bind, hnone]
    rfl
  have hform : blockEnds q.1 = false ∧ neverEnds q.1 = false := by
    cases h <;> first | exact ⟨rfl,rfl⟩ | cases hplain
  rw [Beside,hrun]
  refine ⟨_,rfl,⟨⟨?_,?_,?_⟩,.lost _,rfl,hform.1.symm,hform.2.symm⟩,hs.scope,hs.loops,hs.warnings,hs.stray⟩
  · simp [Problem.isMistake]
  · simp [Problem.isMistake]
  · simp [Problem.isMistake, Expr.Every, searchesKnown]

theorem leaf_beside (he : expr env e = pure (a,t)) (htype : a.type = some t)
    (hevery : a.Every searchesKnown true) : ExprBeside x env 0 s s (a,t) e := by
  intro s' hs
  rw [he]
  exact .pure hs ⟨.nothing hevery,.same t,htype,rfl,rfl⟩

theorem name_beside {z : Symbol} (hz : s.scope.get? y = some z) (old : Option Symbol) :
    ExprBeside x env 0 s s (.name (n.typed z.type) y (some z),z.type) (.name n y old) := by
  intro s' hs
  have hrel := hs.scope.get? y
  rw [hz] at hrel
  rw [expr]
  refine .quiet (Q := Option.Rel Symbol.Blurs (some z)) ⟨[],(List.append_nil _).symm,⟨rfl,hrel⟩,hs⟩
    fun z' u' hz' hu => ?_
  obtain @⟨_,z',hz'⟩ := hz'
  exact .pure hu ⟨.nothing trivial,hz'.type,rfl,rfl,rfl⟩

theorem unary_beside {op : UnaryOp} (he : ExprBeside x env k s u (a,t) e) (ht : t ≠ .void)
    (hr : op.type? t = some r) : ExprBeside x env k s u (.unary (n.typed r) op a,r) (.unary n op e) := by
  intro s' hs
  rw [expr]
  refine .bind (he.value ht hs _) fun q u' found htold hu => ?_
  obtain ⟨a',t'⟩ := q
  obtain ⟨r',hr',hblurs⟩ := htold.blurs.unaryOp hr
  refine .step (typeOr_some hr' _ _) (.pure hu ⟨?_,hblurs,rfl,rfl,rfl⟩)
  exact htold.told.of_iff (by simp [Expr.Every, searchesKnown])

theorem binary_beside {op : BinaryOp} (ha : ExprBeside x env k s u (a,t) e) (ht : t ≠ .void)
    (hb : ExprBeside x env l u v (b,t') e') (ht' : t' ≠ .void) (hr : op.type? t t' = some r) :
    ExprBeside x env (k + l) s v (.binary (n.typed r) op a b,r) (.binary n op e e') := by
  intro s' hs
  rw [expr]
  refine .bind (ha.value ht hs _) fun q u' found hleft hu => ?_
  obtain ⟨a',_⟩ := q
  refine .bind (hb.value ht' hu _) fun q v' more hright hv => ?_
  obtain ⟨b',_⟩ := q
  obtain ⟨r',hr',hblurs⟩ := hleft.blurs.binaryOp hright.blurs hr
  refine .step (typeOr_some hr' _ _) (.pure hv ⟨?_,hblurs,rfl,rfl,rfl⟩)
  exact (hleft.told.append hright.told).of_iff (by simp [Expr.Every, searchesKnown])

theorem checkCall_of_fits (f : String) {ts : List Ty} {args : List Typed} (pos : Pos)
    (h : List.Forall₂ (fun t v => t.compatible v = true) ts (args.map (·.2))) :
    checkCall f ts args pos = pure () := by
  have hargs : ∀ (i : Nat) (ts : List Ty) (args : List Typed),
      List.Forall₂ (fun t v => t.compatible v = true) ts (args.map (·.2)) →
        checkArguments f i ts args = pure () := by
    intro i ts args h
    induction ts generalizing i args with
    | nil => rfl
    | cons t ts ih =>
      cases args with
      | nil => cases h
      | cons a args =>
        obtain _ | ⟨hfit,hrest⟩ := h
        rw [checkArguments,ih (i + 1) args hrest,hfit]
        rfl
  have hlen : args.length = ts.length := by simpa using h.length_eq.symm
  rw [checkCall,if_neg (by simpa using hlen)]
  exact hargs 1 ts args h

theorem Ty.fits_blurs {ts us us' : List Ty} (h : List.Forall₂ (fun t v => t.compatible v = true) ts us)
    (hus : List.Forall₂ Ty.Blurs us us') : List.Forall₂ (fun t v => t.compatible v = true) ts us' := by
  induction h generalizing us' with
  | nil =>
    cases hus
    exact .nil
  | cons hfit _ ih =>
    obtain _ | ⟨hu,hrest⟩ := hus
    exact .cons ((Ty.Blurs.same _).compatible hu hfit) (ih hrest)

theorem user_beside {sig : Signature} (hf : env.function? f.name = some sig)
    (hes : ValuesBeside x env k s u rs es)
    (hfit : List.Forall₂ (fun t v => t.compatible v = true) sig.params (rs.map (·.2))) :
    ExprBeside x env k s u
      (.call (n.typed (sig.result.getD .void)) (.user f.name) (rs.map (·.1)),sig.result.getD .void)
      (.call n f es) := by
  intro s' hs
  rw [expr]
  simp only [hf]
  refine .bind (hes s' hs) fun rs' u' found hq hu => ?_
  obtain ⟨htold,htypes,_⟩ := hq
  refine .step (checkCall_of_fits _ _ (Ty.fits_blurs hfit htypes)) (.pure hu ⟨?_,.same _,rfl,rfl,rfl⟩)
  exact htold.of_iff (by simp [Expr.Every, searchesKnown])

theorem host_beside {h : HostFunction} (hf : env.function? f.name = none)
    (hb : Builtin.ofFunction? f.name = none) (hh : HostFunction.find? f.name = some h)
    (hes : ValuesBeside x env k s u rs es)
    (hfit : List.Forall₂ (fun t v => t.compatible v = true) h.params (rs.map (·.2))) :
    ExprBeside x env k s u
      (.call (n.typed (h.result.getD .void)) (.host h) (rs.map (·.1)),h.result.getD .void) (.call n f es) := by
  intro s' hs
  rw [expr]
  simp only [hf, hb, hh]
  refine .bind (hes s' hs) fun rs' u' found hq hu => ?_
  obtain ⟨htold,htypes,_⟩ := hq
  refine .step (checkCall_of_fits _ _ (Ty.fits_blurs hfit htypes)) (.pure hu ⟨?_,.same _,rfl,rfl,rfl⟩)
  exact htold.of_iff (by simp [Expr.Every, searchesKnown])

theorem builtin_beside {op : Builtin} (hf : env.function? f.name = none)
    (hb : Builtin.ofFunction? f.name = some op) (hes : ValuesBeside x env k s u rs es)
    (hr : op.result (rs.map (·.2)) = .ok r) :
    ExprBeside x env k s u (.call (n.typed r) (.builtin op) (rs.map (·.1)),r) (.call n f es) := by
  intro s' hs
  rw [expr]
  simp only [hf, hb]
  refine .bind (hes s' hs) fun rs' u' found hq hu => ?_
  obtain ⟨htold,hblurs,htypes⟩ := hq
  refine .bind (builtinResult_beside _ hu hr hblurs) fun r' v' more hresult hv =>
    .pure hv ⟨(htold.append hresult.1).of_iff ?_,hresult.2,rfl,rfl,rfl⟩
  simp only [Expr.Every, searchesKnown, htypes, and_comm]

theorem Builtin.ofMethod?_blurs (h : t.Blurs t') (ht : t' ≠ .error) (m : String) :
    Builtin.ofMethod? t' m = Builtin.ofMethod? t m := by
  cases h with
  | lost => exact absurd rfl ht
  | _ => rfl

theorem method_beside {m : String} {q : Expr} (he : ExprBeside x env k s u (a,t) e) (ht : t ≠ .void)
    (hes : ValuesBeside x env l u v rs es) (old : Option Builtin)
    (hq : blockEnds q = false ∧ neverEnds q = false)
    (hr : t = .error ∧ r = .error ∨ ∃ op, Builtin.ofMethod? t m = some op ∧ op.result (t :: rs.map (·.2)) = .ok r) :
    ExprBeside x env (k + l) s v (q,r) (.method n e m es old) := by
  intro s' hs
  rw [expr]
  refine .bind (he.value ht hs _) fun q u' found hreceiver hu => ?_
  obtain ⟨a',t'⟩ := q
  refine .bind (hes u' hu) fun rs' v' more hq hv => ?_
  obtain ⟨hargs,hblurs,htypes⟩ := hq
  have hnote : a'.type = some t' := hreceiver.note
  dsimp only
  by_cases ht' : t' = .error
  · rw [if_pos ht']
    refine .pure hv ⟨(hreceiver.told.append hargs).of_iff ?_,.lost r,rfl,hq.1.symm,hq.2.symm⟩
    cases old <;> simp [Expr.Every, searchesKnown, Builtin.Searches, hnote, ht']
  · obtain ⟨op,hm,hr⟩ := hr.resolve_left fun h => ht' (h.1 ▸ hreceiver.blurs).of_error
    rw [if_neg ht',Builtin.ofMethod?_blurs hreceiver.blurs ht',hm]
    refine .bind (builtinResult_beside _ hv hr (.cons hreceiver.blurs hblurs)) fun r' w' last hresult hw =>
      .pure hw ⟨((hreceiver.told.append hargs).append hresult.1).of_iff ?_,hresult.2,rfl,hq.1.symm,hq.2.symm⟩
    simp only [Expr.Every, searchesKnown, List.filterMap_cons, hnote, htypes]
    exact and_comm

theorem array_beside {as : List Expr} (hes : ElementsBeside x env k s u .hole t es) :
    ExprBeside x env k s u (.array (n.typed (.array t)) as,.array t) (.array n es) := by
  intro s' hs
  rw [expr]
  refine .bind (hes s' .hole hs (.same _)) fun r' u' found hr hu => .pure hu ⟨?_,.array hr.2,rfl,rfl,rfl⟩
  exact hr.1.of_iff (by simp [Expr.Every, searchesKnown])

theorem index_beside (he : ExprBeside x env k s u (a,t) e) (ht : t ≠ .void) (hi : ExprBeside x env l u v (j,t') i)
    (ht' : t' ≠ .void) (hnum : t'.isNumeric = true ∨ t' = .error) (hr : t = .array r ∨ t = .error ∧ r = .error) :
    ExprBeside x env (k + l) s v (.index (n.typed r) a j,r) (.index n e i) := by
  intro s' hs
  rw [expr]
  refine .bind (he.value ht hs _) fun q u' found htarget hu => ?_
  obtain ⟨a',q⟩ := q
  refine .bind (hi.value ht' hu _) fun p v' more hindex hv => ?_
  obtain ⟨j',q'⟩ := p
  refine .step (reportIf_none ?_ _ _) ?_
  · rcases hnum with hnum | rfl
    · rcases hindex.blurs.isNumeric hnum with rfl | hnum
      · rfl
      · simp [hnum]
    · obtain rfl : q' = .error := hindex.blurs.of_error
      rfl
  · have htold : Told x (k + l) (a'.Every searchesKnown true ∧ j'.Every searchesKnown true) (found ++ more) :=
      htarget.told.append hindex.told
    have hresult : q = .error ∨ ∃ r', q = .array r' ∧ r.Blurs r' := by
      rcases hr with rfl | ⟨rfl,-⟩
      · exact htarget.blurs.of_array
      · exact .inl htarget.blurs.of_error
    rcases hresult with rfl | ⟨r',rfl,hr'⟩
    · exact .pure hv ⟨htold.of_iff (by simp [Expr.Every, searchesKnown]),.lost r,rfl,rfl,rfl⟩
    · exact .pure hv ⟨htold.of_iff (by simp [Expr.Every, searchesKnown]),hr',rfl,rfl,rfl⟩

theorem fieldType_blurs {f : String} (h : fieldType env t f pos = pure r) (ht : t.Blurs t') :
    ∃ r', fieldType env t' f pos = pure r' ∧ r.Blurs r' := by
  by_cases he : t' = .error
  · subst he
    exact ⟨.error,rfl,.lost r⟩
  · obtain ⟨_,_,_,rfl,-⟩ := ((fieldType_ends f pos).of_pure h).2 fun h => he (h ▸ ht).of_error
    rw [(ht.eq_or_lost (by simp)).resolve_right he]
    exact ⟨r,h,.same r⟩

theorem field_beside {f : String} (he : ExprBeside x env k s u (a,t) e) (ht : t ≠ .void)
    (hr : fieldType env t f n.pos = pure r) :
    ExprBeside x env k s u (.field (n.typed r) a f,r) (.field n e f) := by
  intro s' hs
  rw [expr]
  refine .bind (he.value ht hs _) fun q u' found htold hu => ?_
  obtain ⟨a',t'⟩ := q
  obtain ⟨r',hr',hblurs⟩ := fieldType_blurs hr htold.blurs
  refine .step hr' (.pure hu ⟨?_,hblurs,rfl,rfl,rfl⟩)
  exact htold.told.of_iff (by simp [Expr.Every, searchesKnown])

theorem record_beside {d : RecordDecl} {fs gs : List FieldInit} {seen : List String}
    (hd : env.record? y = some d) (hfs : InitsBeside x env k s u d [] (gs,seen) fs)
    (hall : ((d.fields.map (·.name)).filter fun f => !seen.contains f) = []) :
    ExprBeside x env k s u (.record (n.typed (.record d.name)) y gs,.record d.name) (.record n y fs) := by
  intro s' hs
  rw [expr]
  simp only [hd]
  refine .bind (hfs s' hs) fun q u' found hq hu => ?_
  obtain ⟨gs',seen'⟩ := q
  obtain ⟨htold,hseen⟩ := hq
  obtain rfl : seen' = seen := hseen
  refine .step (reportIf_none (by rw [hall]; rfl) _ _) (.pure hu ⟨?_,.same _,rfl,rfl,rfl⟩)
  exact htold.of_iff (by simp [Expr.Every, searchesKnown])

theorem wrapType_blurs {w : Wrapper} (h : wrapType w t pos = pure r) (ht : t.Blurs t') (pos' : Pos) :
    ∃ r', wrapType w t' pos' = pure r' ∧ r.Blurs r' := by
  obtain rfl : r = Typing.wrapType w t := ((wrapType_ends w t pos).of_pure h).2
  cases w with
  | some => exact ⟨_,rfl,.option ht⟩
  | ok => exact ⟨_,rfl,.result ht⟩
  | err =>
    have hfit : (!Ty.compatible .string t) = false := Ends.of_pure (Q := fun _ _ => (!Ty.compatible .string t) = false)
      (.bind (reportIf_ends _ _ _) fun _ u hu => .pure fun hc => (hu hc).2.2) h
    refine ⟨.result .hole,?_,.same _⟩
    rw [wrapType,misfit (.same .string) ht (by simpa using hfit)]
    rfl

theorem wrap_beside {w : Wrapper} (he : ExprBeside x env k s u (a,t) e) (ht : t ≠ .void)
    (hr : wrapType w t pos = pure r) : ExprBeside x env k s u (.wrap (n.typed r) w a,r) (.wrap n w e) := by
  intro s' hs
  rw [expr]
  refine .bind (he.value ht hs _) fun q u' found htold hu => ?_
  obtain ⟨a',t'⟩ := q
  obtain ⟨r',hr',hblurs⟩ := wrapType_blurs hr htold.blurs e.pos
  refine .step hr' (.pure hu ⟨?_,hblurs,rfl,rfl,rfl⟩)
  exact htold.told.of_iff (by simp [Expr.Every, searchesKnown])

theorem select_beside {as bs : List Arm} {catchAll : Bool} {covered : List Cover}
    (he : ExprBeside x env k s u (a,t) e) (ht : t ≠ .void) (hm : t = .error ∨ isMatchable t = true)
    (has : ArmsBeside x env l u v t .hole false [] (bs,r,catchAll,covered) as)
    (hall : t = .error ∨ catchAll = true ∨ isExhaustive env t covered = true) :
    ExprBeside x env (k + l) s v (.select (n.typed r) a bs,r) (.select n e as) := by
  intro s' hs
  rw [expr]
  refine .bind (he.value ht hs _) fun q u' found hscrutinee hu => ?_
  obtain ⟨a',t'⟩ := q
  have ht : t.Blurs t' := hscrutinee.blurs
  have hgood : ¬(t' ≠ .error && !isMatchable t') = true := by
    rcases hm with rfl | hm
    · simp [ht.of_error]
    · rcases ht.isMatchable hm with rfl | hm <;> simp [hm]
  dsimp only
  rw [if_neg hgood,pure_bind]
  refine .bind (has u' t' .hole hu ht (.same _)) fun q v' more hq hv => ?_
  obtain ⟨bs',r',rest⟩ := q
  obtain ⟨htold,hr,hrest,hends⟩ := hq
  obtain rfl : rest = (catchAll,covered) := hrest
  refine .step (reportIf_none ?_ _ _) (.pure hv ⟨?_,hr,rfl,rfl,?_⟩)
  · rcases hall with rfl | rfl | hall
    · simp [ht.of_error]
    · simp
    · rcases ht.isExhaustive hall with rfl | hall <;> simp [hall]
  · exact (hscrutinee.told.append htold).of_iff (by simp [Expr.Every, searchesKnown])
  · rw [neverEnds_arms,neverEnds_arms]
    exact hends

theorem unit_beside {ss ts : List Stmt} {ends : Bool} (hss : StmtsBeside x env k s u false false (ts,ends) ss)
    (old : Bool) :
    ExprBeside x env k s u (.block (n.typed (if ends then .hole else .void)) ts none ends,if ends then .hole else .void)
      (.block n ss none old) := by
  intro s' hs
  rw [expr]
  refine .bind (hss s' hs) fun q u' found hq hu => ?_
  obtain ⟨ts',ends'⟩ := q
  obtain ⟨htold,hends⟩ := hq
  obtain rfl : ends' = ends := hends
  exact .pure hu ⟨htold.of_iff (by simp [Expr.Every, searchesKnown]),.same _,rfl,rfl,rfl⟩

theorem value_beside {ss ts : List Stmt} {ends : Bool} (hss : StmtsBeside x env k s u false false (ts,ends) ss)
    (he : ExprBeside x env l u v (a,t) e) (old : Bool) :
    ExprBeside x env (k + l) s v (.block (n.typed t) ts (some a) ends,t) (.block n ss (some e) old) := by
  intro s' hs
  rw [expr]
  refine .bind (hss s' hs) fun q u' found hq hu => ?_
  obtain ⟨ts',ends'⟩ := q
  obtain ⟨htold,hends⟩ := hq
  obtain rfl : ends' = ends := hends
  refine .bind (he u' hu) fun _ v' more htail hv => .pure hv ⟨?_,htail.blurs,rfl,rfl,rfl⟩
  exact (htold.append htail.told).of_iff (by simp [Expr.Every, searchesKnown])

theorem values_cons_beside (he : ExprBeside x env k s u q e) (ht : q.2 ≠ .void)
    (hes : ValuesBeside x env l u v rs es) : ValuesBeside x env (k + l) s v (q :: rs) (e :: es) := by
  intro s' hs
  rw [values]
  refine .bind (he.value ht hs _) fun q' u' found hq hu => ?_
  refine .bind (hes u' hu) fun rs' v' more ⟨htold,hblurs,htypes⟩ hv =>
    .pure hv ⟨hq.told.append htold,.cons hq.blurs hblurs,?_⟩
  simp only [List.map_cons, List.filterMap_cons, hq.note, htypes]

theorem elements_cons_beside {common common' : Ty} (he : ExprBeside x env k s u (a,t) e)
    (ht : t ≠ .void) (hc : common.unify t = some common') (hes : ElementsBeside x env l u v common' r es) :
    ElementsBeside x env (k + l) s v common r (e :: es) := by
  intro s' d hs hd
  rw [elements]
  refine .bind (he.value ht hs _) fun q u' found hq hu => ?_
  obtain ⟨d',hd',hblurs⟩ := hd.unify hq.blurs hc
  refine .step (typeOr_some hd' _ _) (.bind (hes u' d' hu hblurs) fun rs v' more ⟨htold,hr⟩ hv => ?_)
  exact .pure hv ⟨hq.told.append htold,hr⟩

theorem inits_cons_beside {d : RecordDecl} {seen last : List String} {fd : FieldDecl}
    {fs gs : List FieldInit} (he : ExprBeside x env k s u (a,t) e) (ht : t ≠ .void) (hy : seen.contains y = false)
    (hf : d.fields.find? (·.name = y) = some fd) (hfit : fd.type.compatible t = true)
    (hfs : InitsBeside x env l u v d (y :: seen) (gs,last) fs) :
    InitsBeside x env (k + l) s v d seen (.mk pos y a :: gs,last) (.mk pos y e :: fs) := by
  intro s' hs
  rw [inits]
  refine .bind (he.value ht hs _) fun ⟨a',t'⟩ u' found hq hu => ?_
  simp only [hy, hf, Bool.false_eq_true, if_false]
  refine .step (reportIf_none (misfit (.same _) hq.blurs hfit) _ _) ?_
  exact .bind (hfs u' hu) fun ⟨gs',_⟩ v' more ⟨htold,hseen⟩ hv => .pure hv ⟨hq.told.append htold,hseen⟩

theorem patternProblems_blurs {fits : Bool} (h : patternProblems env p t = pure fits)
    (hfits : fits = true ∨ t = .error) (ht : t.Blurs t') :
    ∃ fits', patternProblems env p t' = pure fits' ∧ (fits' = true ∨ t' = .error) := by
  have hleft {b b' : Bool} (hb : b = fits) (hkept : b = true → t' = .error ∨ b' = true) : b' = true ∨ t' = .error :=
    hfits.elim (fun h => (hkept (hb.trans h)).symm) fun h => .inr (h ▸ ht).of_error
  obtain ⟨pos,form⟩ := p
  cases form with
  | int v =>
    have hends : Ends .initial (patternProblems env ⟨pos,.int v⟩ t) fun b _ =>
        (!inWordRange v) = false ∧ t.isNumeric = b :=
      .bind (reportIf_ends _ _ _) fun _ u hu => .pure fun hc => ⟨(hu hc).2.2,rfl⟩
    obtain ⟨hrange,hb⟩ := hends.of_pure h
    refine ⟨t'.isNumeric,?_,hleft hb ht.isNumeric⟩
    simp only [patternProblems, reportIf_none hrange, pure_bind]
  | enum o v =>
    simp only [patternProblems] at h ⊢
    generalize env.enum? o = found at h ⊢
    cases found with
    | none => exact (Ends.of_pure (Q := fun _ _ => False) (reportIf_true_ends _ _ _) h).elim
    | some d =>
      have hends : Ends .initial (do
          reportIf (d.tag? v).isNone (.noVariant d.name v) pos
          return decide (t = .enum d.name)) fun b _ => (d.tag? v).isNone = false ∧ decide (t = .enum d.name) = b :=
        .bind (reportIf_ends _ _ _) fun _ u hu => .pure fun hc => ⟨(hu hc).2.2,rfl⟩
      obtain ⟨hnone,hb⟩ := hends.of_pure h
      refine ⟨decide (t' = .enum d.name),?_,hleft hb fun hfit => ?_⟩
      · simp only [reportIf_none hnone, pure_bind]
      · obtain rfl : t = .enum d.name := by simpa using hfit
        simpa using (ht.eq_or_lost (by simp)).symm
  | _ => exact ⟨_,rfl,hleft (congrArg (fun m : Checking Bool => (m.run .initial).1) h) ht.fits⟩

theorem pattern_beside {q : Pattern} (h : PatternAccepted env t s p q u)
    (hx : ∀ b, p.form.binder? = some b → b.name ≠ x) (hs : s.Blurs x s') (ht : t.Blurs t') :
    Beside.Quiet x u s' (pattern env p t') fun _ => True := by
  have hfitting {fits : Bool} (hfits : patternProblems env p t = pure fits) (h : fits = true ∨ t = .error) :
      ∃ fits', patternProblems env p t' = pure fits' ∧ (!fits' && t' ≠ .error) = false := by
    obtain ⟨fits',hfits',h'⟩ := patternProblems_blurs hfits h ht
    refine ⟨fits',hfits',?_⟩
    rcases h' with rfl | rfl <;> simp
  cases h with
  | plain hfits h hb =>
    obtain ⟨fits',hfits',hnone⟩ := hfitting hfits h
    refine .step hfits' (.step (reportIf_none hnone _ _) ?_)
    rw [hb]
    exact .pure hs ⟨rfl,trivial⟩
  | binds hfits h hb =>
    obtain ⟨fits',hfits',hnone⟩ := hfitting hfits h
    refine .step hfits' (.step (reportIf_none hnone _ _) ?_)
    rw [hb]
    exact .quiet (declare_beside (hx _ hb) _ _ hs (ht.bound p.form)) fun _ _ _ hu => .pure hu ⟨rfl,trivial⟩

theorem arms_cons_beside {as bs : List Arm} {common common' : Ty} {catchAll : Bool} {covered : List Cover}
    {q : Pattern} {w z : State} {rest : Ty × Bool × List Cover}
    (hw : Remarks (if catchAll then warn .unreachableArm pos else pure ()) s z)
    (hp : PatternAccepted env t { z with scope := z.scope.push true } p q u)
    (hx : ∀ b, p.form.binder? = some b → b.name ≠ x) (he : ExprBeside x env k u v (a,r) e)
    (hc : common.unify r = some common')
    (has : ArmsBeside x env l { v with scope := v.scope.pop } w t common' (catchAll || p.form.isCatchAll)
      ((Cover.ofPattern? p.form).toList ++ covered) (bs,rest) as) :
    ArmsBeside x env (k + l) s w t common catchAll covered (.mk pos q a :: bs,rest) (.mk pos p e :: as) := by
  intro s' t' d hs ht hd
  rw [arms]
  refine warnIf_beside hw hs fun z' hz => ?_
  have hbody : Beside x { v with scope := v.scope.pop } z' [] (inFrame true (armBody env p t' e))
      fun r' => ExprTold x k (a,r) r'.2 :=
    inFrame_beside hz fun y' hy => .quiet (pattern_beside hp hx hy ht) fun _ u' _ hu =>
      .bind (he u' hu) fun _ v' found htold hv => .pure hv htold
  refine .bind hbody fun q v' found hbody hv => ?_
  obtain ⟨q',a',r'⟩ := q
  obtain ⟨d',hunify,hd'⟩ := hd.unify hbody.blurs hc
  dsimp only
  rw [hunify]
  refine .step rfl (.bind (has v' t' d' hv ht hd') fun _ w' more hq hw => ?_)
  obtain ⟨htold,hr,hrest,hends⟩ := hq
  refine .pure hw ⟨hbody.told.append htold,hr,hrest,?_⟩
  have hbody : blockEnds a' = blockEnds a := hbody.blockEnds
  rw [List.all_cons,List.all_cons,hends]
  exact congrArg (fun b => b && bs.all fun a => blockEnds a.body) hbody

end Covenant.Check
