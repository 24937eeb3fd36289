import Covenant.Proofs.Mistakes.Expressions

/-! The checks of statements beside those of statements with a mistake, and with them of whole bodies. A
body without a mistake may still see lost types; a body with one has it reported once. -/

namespace Covenant.Check

variable {x : String} {env : Env}

section Nodes

variable {y : String} {k l : Nat} {s s' u v w : State} {a b e f : Expr} {t t' r : Ty} {n : Note} {pos : Pos}

theorem letType_blurs {d d' : Option Ty} (h : letType env pos y d (a,t) = pure (d',r)) (ht : t.Blurs t') (b : Expr) :
    ∃ d'' r', letType env pos y d (b,t') = pure (d'',r') ∧ r.Blurs r' := by
  have hresult {m : Checking (Option Ty × Ty)} {q : Option Ty × Ty} (hm : m = pure q) (h : m = pure (d',r)) :
      q.2 = r :=
    congrArg (fun m : Checking (Option Ty × Ty) => (m.run .initial).1.2) (hm.symm.trans h)
  cases d with
  | none =>
    simp only [letType] at h ⊢
    by_cases hole : t.hasHole = true
    · rw [if_pos hole] at h
      exact (Ends.of_pure (Q := fun _ _ => False) (report_map_ends _ _ fun t => (none,t)) h).elim
    · rw [if_neg hole] at h
      rw [if_neg (by simp [ht.hasHole (by simpa using hole)])]
      exact ⟨none,t',rfl,hresult rfl h ▸ ht⟩
  | some d =>
    simp only [letType] at h ⊢
    have hends : Ends .initial (do
        let d ← resolveType env d pos
        reportIf (d ≠ .error && !d.compatible t) (.letType y d t) a.pos
        return (some d,d)) fun q _ => env.resolve d = .ok q.2 ∧ (q.2 ≠ .error && !q.2.compatible t) = false :=
      .bind (resolveType_ends env d pos) fun q u hu => .bind (reportIf_ends _ _ _) fun _ v hv => .pure fun hc =>
        ⟨(hu (hv hc).1).2.2,(hv hc).2.2⟩
    obtain ⟨hd,hfit⟩ := hends.of_pure h
    refine ⟨some r,r,?_,.same r⟩
    have hresolve : resolveType env d pos = pure r := by simp only [resolveType, hd]
    rw [hresolve,pure_bind,reportIf_none,pure_bind]
    by_cases he : r = .error
    · simp [he]
    · simp [(Ty.Blurs.same r).compatible ht (by simpa [he] using hfit)]

theorem bind_beside {d d' : Option Ty} {z : Nat} (hy : y ≠ x) (he : ExprBeside x env k s u (a,t) e) (ht : t ≠ .void)
    (hd : letType env pos y d (a,t) = pure (d',r)) (hh : Remarks (reportHiding env .letWord y pos) u v)
    (old : Option Nat) : StmtBeside x env k s { v with scope := (v.scope.declare y r .letBound true).2 }
      (.bind pos y d' a (some z),false) (.bind pos y d e old) := by
  intro s' hs
  rw [stmt]
  refine .bind (he.value ht hs _) fun q u' found htold hu => ?_
  obtain ⟨a',t'⟩ := q
  obtain ⟨d'',r',hlet,hr⟩ := letType_blurs hd htold.blurs a'
  refine .step hlet (.quiet (reportHiding_beside hh hu) fun _ v' _ hv => ?_)
  refine .quiet (declare_beside hy _ _ hv hr) fun _ w' _ hw => .pure hw ⟨?_,rfl⟩
  exact htold.told.of_iff (by simp [Stmt.Every, searchesKnown])

theorem assign_name_beside {z : Symbol} (hz : s.scope.get? y = some z) (hm : z.isMutable = true)
    (he : ExprBeside x env k s u (a,t) e) (ht : t ≠ .void) (hfit : z.type.compatible t = true) (old : Option Symbol) :
    StmtBeside x env k s u (.assign pos (.name (n.typed z.type) y (some z)) a,false)
      (.assign pos (.name n y old) e) := by
  intro s' hs
  have hrel := hs.scope.get? y
  rw [hz] at hrel
  rw [stmt]
  refine .quiet (Q := Option.Rel Symbol.Blurs (some z)) ⟨[],(List.append_nil _).symm,⟨rfl,hrel⟩,hs⟩
    fun z' v' hz' hv => ?_
  obtain @⟨_,z',hz'⟩ := hz'
  refine .step (reportIf_none (by simp [hz'.isMutable, hm]) _ _) ?_
  refine .bind (he.value ht hv _) fun q u' found htold hu => ?_
  obtain ⟨a',t'⟩ := q
  refine .step (reportIf_none (misfit hz'.type htold.blurs hfit) _ _) (.pure hu ⟨?_,rfl⟩)
  exact htold.told.of_iff (by simp [Stmt.Every, searchesKnown])

theorem isName_eq (e : Expr) : e.isName = decide (e.ctorIdx = 3) := by
  cases e <;> rfl

theorem assign_beside (hname : f.isName = false) (hf : ExprBeside x env k s u (b,t') f)
    (he : ExprBeside x env l u v (a,t) e) (ht : t ≠ .void) (hfit : t'.compatible t = true) :
    StmtBeside x env (k + l) s v (.assign pos b a,false) (.assign pos f e) := by
  intro s' hs
  have htarget : ∀ t, ((expr env f).run t).1.1.isName = false := fun t => by
    rwa [isName_eq,expr_ctorIdx,← isName_eq]
  rw [stmt_assign_eq env pos hname]
  refine .bind ((hf s' hs).also (P := fun r => r.1.isName = false) htarget) fun ⟨b',q⟩ u' found ⟨hleft,hb⟩ hu => ?_
  refine .bind (he.value ht hu _) fun ⟨a',q'⟩ v' more hright hv => ?_
  refine .step (reportIf_none (misfit hleft.blurs hright.blurs hfit) _ _) (.pure hv ⟨?_,rfl⟩)
  refine (hleft.told.append hright.told).of_iff ?_
  rw [Stmt.every_assign hb]
  simp [searchesKnown]

theorem target_beside {c : Stmt} (he : ExprBeside x env 0 s u (a,t) e) (ht : t ≠ .void) (place : Pos) :
    StmtBeside x env 1 s u (c,false) (.assign pos (.name ⟨place,none⟩ x none) e) := by
  intro s' hs
  have hlookup : (lookup x).run s' = (none,s') := by
    rw [← hs.scope.get?_absent]
    rfl
  rw [stmt]
  refine .quiet (Q := (· = none)) ⟨[],(List.append_nil _).symm,⟨rfl,congrArg Prod.fst hlookup⟩,hs⟩
    fun _ v' hnone hv => ?_
  subst hnone
  refine .bind (he.value ht hv _) fun q u' found htold hu => ?_
  obtain ⟨a',t'⟩ := q
  have hmistake : Told x 1 True [⟨.undeclaredTarget x,place⟩] := by
    refine ⟨?_,?_,?_⟩ <;> simp [Problem.isMistake]
  refine ⟨[⟨.undeclaredTarget x,place⟩],rfl,⟨?_,rfl⟩,hu.scope,hu.loops,hu.warnings,hu.stray⟩
  show Told x 1 ((Stmt.assign pos (.name ⟨place,none⟩ x none) a').Every searchesKnown true) _
  exact (htold.told.append hmistake).of_iff (by simp [Stmt.Every, searchesKnown])

theorem ret_none_beside {sig : Current} (hf : env.current = some sig) (hr : sig.result = none) :
    StmtBeside x env 0 s s (.ret pos none,true) (.ret pos none) := by
  intro s' hs
  rw [stmt]
  simp only [hf, hr]
  exact .pure hs ⟨.nothing trivial,rfl⟩

theorem ret_some_beside {sig : Current} (hf : env.current = some sig) (he : ExprBeside x env k s u (a,t) e)
    (ht : t ≠ .void) (hr : sig.result = some r) (hfit : r.compatible t = true) :
    StmtBeside x env k s u (.ret pos (some a),true) (.ret pos (some e)) := by
  intro s' hs
  rw [stmt]
  simp only [hf, hr]
  refine .bind (he.value ht hs _) fun q u' found htold hu => ?_
  obtain ⟨a',t'⟩ := q
  refine .step (reportIf_none (misfit (.same r) htold.blurs hfit) _ _) (.pure hu ⟨?_,rfl⟩)
  exact htold.told.of_iff (by simp [Stmt.Every, searchesKnown])

theorem expr_stmt_beside (he : ExprBeside x env k s u (a,t) e) :
    StmtBeside x env k s u (.expr pos a,neverEnds a) (.expr pos e) := by
  intro s' hs
  rw [stmt]
  refine .bind (he s' hs) fun r' u' found htold hu => .pure hu ⟨?_,htold.neverEnds⟩
  exact htold.told.of_iff (by simp [Stmt.Every, searchesKnown])

variable {d c : Block} {ends : Bool}

theorem cond_beside {c d : Chain} (hc : ChainBeside x env k s u (d,ends) c) :
    StmtBeside x env k s u (.cond pos d,ends) (.cond pos c) := by
  intro s' hs
  rw [stmt]
  refine .bind (hc s' hs) fun r' u' found hr hu => .pure hu ⟨?_,hr.2⟩
  exact hr.1.of_iff (by simp [Stmt.Every, searchesKnown])

theorem expr_isTrueLiteral (e : Expr) (s : State) :
    isTrueLiteral ((expr env e).run s).1.1 = isTrueLiteral e := by
  have hidx := expr_ctorIdx env e s
  cases e with
  | bool n b =>
    rw [expr]
    rfl
  | _ =>
    cases hr : ((expr env _).run s).1.1 <;> first | rfl | (rw [hr] at hidx; cases hidx)

theorem needValue_isTrueLiteral (e : Expr) (pos : Pos) (s : State) :
    isTrueLiteral ((needValue pos (expr env e)).run s).1.1 = isTrueLiteral e := by
  have hsame : ((needValue pos (expr env e)).run s).1.1 = ((expr env e).run s).1.1 := by
    simp only [needValue, StateT.run_bind]
    show ((if ((expr env e).run s).1.2 = .void then _ else _ : Checking Typed).run _).1.1 = _
    split <;> rfl
  rw [hsame,expr_isTrueLiteral]

theorem loop_beside (he : ExprBeside x env k s u (a,t) e) (ht : t ≠ .void)
    (hfit : Ty.compatible .boolean t = true)
    (hb : BlockBeside x env l { u with loops := false :: u.loops } v (d,ends) c)
    (hlit : isTrueLiteral a = isTrueLiteral e) :
    StmtBeside x env (k + l) s { v with loops := v.loops.tail }
      (.loop pos a d,isTrueLiteral a && !v.loops.headD false) (.loop pos e c) := by
  intro s' hs
  rw [stmt]
  refine .bind ((he.value ht hs _).also (P := fun r => isTrueLiteral r.1 = isTrueLiteral e)
    (needValue_isTrueLiteral e _)) fun q u' found hq hu => ?_
  obtain ⟨a',t'⟩ := q
  obtain ⟨hcond,htrue⟩ := hq
  refine .step (reportIf_none (misfit (.same .boolean) hcond.blurs hfit) _ _) ?_
  refine .bind (inLoop_beside hu hb) fun p v' more hp hv => ?_
  obtain ⟨⟨d',_⟩,left⟩ := p
  obtain ⟨⟨hbody,_⟩,hleft⟩ := hp
  refine .pure hv ⟨?_,?_⟩
  · exact (hcond.told.append hbody).of_iff (by simp [Stmt.Every, searchesKnown])
  · show (isTrueLiteral a' && !left) = _
    rw [show left = _ from hleft,show isTrueLiteral a' = _ from htrue,hlit]

theorem elementType_blurs (h : elementType t pos = pure r) (ht : t.Blurs t') (pos' : Pos) :
    ∃ r', elementType t' pos' = pure r' ∧ r.Blurs r' := by
  by_cases he : t' = .error
  · subst he
    exact ⟨.error,rfl,.lost r⟩
  · obtain ⟨rfl,hole⟩ := ((elementType_ends pos).of_pure h).2 fun h => he (h ▸ ht).of_error
    obtain ⟨r',rfl,hr⟩ := ht.of_array.resolve_left he
    have hole' := hr.ne_hole hole
    refine ⟨r',?_,hr⟩
    cases r' <;> first | rfl | exact absurd rfl hole'

theorem each_beside {place bodyPos : Pos} {z : Nat} {ss ts : List Stmt} (hy : y ≠ x)
    (he : ExprBeside x env k s u (a,t) e) (ht : t ≠ .void) (hr : elementType t place = pure r)
    (hh : Remarks (reportHiding env .forWord y pos) { u with scope := u.scope.push true } v)
    (hss : StmtsBeside x env l { v with scope := (v.scope.declare y r .loop false).2, loops := false :: v.loops } w
      false false (ts,ends) ss) (old : Option Nat) :
    StmtBeside x env (k + l) s { w with scope := w.scope.pop, loops := w.loops.tail }
      (.each pos y a (.mk bodyPos ts) (some z),false) (.each pos y e (.mk bodyPos ss) old) := by
  intro s' hs
  rw [stmt]
  refine .bind (he.value ht hs _) fun q u' found htold hu => ?_
  obtain ⟨a',t'⟩ := q
  obtain ⟨r',hr',hblurs⟩ := elementType_blurs hr htold.blurs e.pos
  have hbody : Beside x { w with scope := w.scope.pop, loops := w.loops.tail } u' [] (inFrame true
      (eachBody env pos y r' ss)) fun q more => Told x l (Stmt.EveryIn searchesKnown true q.2) more :=
    inFrame_beside (u := { w with loops := w.loops.tail }) hu fun v' hv =>
      .quiet (reportHiding_beside hh hv) fun _ _ _ hw => .quiet (declare_beside hy _ _ hw hblurs) fun _ _ _ hz =>
        .bind (inLoop_beside hz hss) fun _ _ more htold hw => .pure hw htold.1.1
  refine .step hr' (.bind hbody fun _ w' more hbody hw => .pure hw ⟨?_,rfl⟩)
  exact (htold.told.append hbody).of_iff (by simp [Stmt.Every, Block.Every, searchesKnown])

theorem leave_beside {c : Bool} {outer : List Bool} (hl : s.loops = c :: outer) :
    StmtBeside x env 0 s { s with loops := true :: outer } (.leave pos,true) (.leave pos) := by
  intro s' hs
  have hrun : (stmt env (.leave pos)).run s' = ((.leave pos,true),{ s' with loops := true :: outer }) := by
    rw [stmt]
    simp only [StateT.run_bind, StateT.run_get, pure_bind, hs.loops, hl]
    rfl
  rw [Beside,hrun]
  exact ⟨[],(List.append_nil _).symm,⟨.nothing trivial,rfl⟩,hs.scope,rfl,hs.warnings,hs.stray⟩

theorem next_beside (hl : s.loops.isEmpty = false) : StmtBeside x env 0 s s (.next pos,true) (.next pos) := by
  intro s' hs
  have hrun : (stmt env (.next pos)).run s' = ((.next pos,true),s') := by
    rw [stmt]
    simp only [StateT.run_bind, StateT.run_get, pure_bind, hs.loops, hl]
    rfl
  rw [Beside,hrun]
  exact ⟨[],(List.append_nil _).symm,⟨.nothing trivial,rfl⟩,hs⟩

theorem stmts_cons_beside {ended warned last : Bool} {c c' d : Stmt} {cs ds : List Stmt}
    (hw : Remarks (if ended && !warned then warn .unreachableStatement c.pos else pure ()) s u) (hpos : c'.pos = c.pos)
    (hc : StmtBeside x env k u v (d,ends) c')
    (hcs : StmtsBeside x env l v w (ended || ends) ended (ds,last) cs) :
    StmtsBeside x env (k + l) s w ended warned (d :: ds,last) (c' :: cs) := by
  intro s' hs
  rw [stmts,hpos]
  refine warnIf_beside hw hs fun u' hu => .bind (hc u' hu) fun ⟨d',ends'⟩ v' found ⟨htold,hends⟩ hv => ?_
  obtain rfl : ends' = ends := hends
  exact .bind (hcs v' hv) fun r' w' more ⟨hrest,hlast⟩ hw => .pure hw ⟨htold.append hrest,hlast⟩

theorem block_mk_beside {ss ts : List Stmt}
    (hss : StmtsBeside x env k { s with scope := s.scope.push true } u false false (ts,ends) ss) :
    BlockBeside x env k s { u with scope := u.scope.pop } (.mk pos ts,ends) (.mk pos ss) := by
  intro s' hs
  rw [block]
  exact .bind (inFrame_beside hs hss) fun r' u' found htold hu => .pure hu htold

theorem chain_otherwise_beside (hc : BlockBeside x env k s u (d,ends) c) :
    ChainBeside x env k s u (.otherwise d,ends) (.otherwise c) := by
  intro s' hs
  rw [chain]
  exact .bind (hc s' hs) fun r' u' found htold hu => .pure hu htold

theorem chain_branch_beside {m : Nat} {rest rest' : Chain} {restEnds : Bool}
    (he : ExprBeside x env k s u (a,t) e) (ht : t ≠ .void) (hfit : Ty.compatible .boolean t = true)
    (hc : BlockBeside x env l u v (d,ends) c) (hrest : ChainBeside x env m v w (rest',restEnds) rest) :
    ChainBeside x env (k + (l + m)) s w (.branch pos a d rest',ends && restEnds) (.branch pos e c rest) := by
  intro s' hs
  rw [chain]
  refine .bind (he.value ht hs _) fun ⟨a',t'⟩ u' found hcond hu => ?_
  refine .step (reportIf_none (misfit (.same .boolean) hcond.blurs hfit) _ _) ?_
  refine .bind (hc u' hu) fun ⟨d',ends'⟩ v' more ⟨hbody,hends⟩ hv => ?_
  refine .bind (hrest v' hv) fun ⟨_,restEnds'⟩ w' last ⟨hlast,hrestEnds⟩ hw => .pure hw ⟨?_,?_⟩
  · rw [List.append_assoc]
    exact (hcond.told.append (hbody.append hlast)).of_iff (by simp [Chain.Every, searchesKnown])
  · exact congrArg₂ (· && ·) hends hrestEnds

theorem ExprAccepted.isTrueLiteral_eq {q : Typed} (h : ExprAccepted env s e q u) :
    isTrueLiteral q.1 = isTrueLiteral e := by
  cases h <;> rfl

theorem whole_or_inside (h : e.Mistaken x f) : (e.isPlain = true ∧ ∃ pos, f = .name ⟨pos,none⟩ x none) ∨
      (f.isName = false ∧ isTrueLiteral f = isTrueLiteral e) := by
  cases h with
  | here pos h => exact .inl ⟨h,pos,rfl⟩
  | _ => exact .inr ⟨rfl,rfl⟩

end Nodes

mutual

theorem ExprAccepted.beside (h : ExprAccepted env s e q u)
    (ha : e.Every (avoids x) c) : ExprBeside x env 0 s u q e := by
  cases h with
  | int hv => exact leaf_beside (by rw [expr,if_pos hv]; rfl) rfl trivial
  | bool => exact leaf_beside (expr_bool env _ _) rfl trivial
  | text => exact leaf_beside (expr_text env _ _) rfl trivial
  | noneLit => exact leaf_beside (expr_noneLit env _) rfl trivial
  | name hx => exact name_beside hx _
  | unary he ht hr => exact unary_beside (he.beside ha.2) ht hr
  | binary he ht hf ht' hr => exact binary_beside (he.beside ha.2.1) ht (hf.beside ha.2.2) ht' hr
  | user hf hes hfit => exact user_beside hf (hes.beside ha.2) hfit
  | builtin hf hb hes hr => exact builtin_beside hf hb (hes.beside ha.2) hr
  | host hf hb hh hes hfit => exact host_beside hf hb hh (hes.beside ha.2) hfit
  | method he ht hes _ hm hr =>
    exact method_beside (he.beside ha.2.1) ht (hes.beside ha.2.2) _ ⟨rfl,rfl⟩ (.inr ⟨_,hm,hr⟩)
  | methodLost he hes =>
    exact method_beside (he.beside ha.2.1) nofun (hes.beside ha.2.2) _ ⟨rfl,rfl⟩ (.inl ⟨rfl,rfl⟩)
  | array hes ht => exact array_beside (hes.elements_beside ht ha.2)
  | index he ht hi ht' hnum hr => exact index_beside (he.beside ha.2.1) ht (hi.beside ha.2.2) ht' hnum hr
  | field he ht hr => exact field_beside (he.beside ha.2) ht hr
  | record hd hfs hall => exact record_beside hd (hfs.beside ha.2) hall
  | wrap he ht hr => exact wrap_beside (he.beside ha.2) ht hr
  | enum hd hi => exact leaf_beside (by simp only [expr, enumTag, hd, hi, pure_bind]) rfl trivial
  | select he ht hm has hall => exact select_beside (he.beside ha.2.1) ht hm (has.beside ha.1 ha.2.2) hall
  | unit hss => exact unit_beside (hss.beside ha.2) _
  | value hss he => exact value_beside (hss.beside ha.2.1) (he.beside ha.2.2) _

theorem ValuesAccepted.beside (h : ValuesAccepted env s es rs u)
    (ha : Expr.EveryIn (avoids x) c es) : ValuesBeside x env 0 s u rs es := by
  cases h with
  | nil => exact fun _ hs => .pure hs ⟨.nothing trivial,.nil,rfl⟩
  | cons he ht hes => exact values_cons_beside (he.beside ha.1) ht (hes.beside ha.2)

theorem ValuesAccepted.elements_beside (h : ValuesAccepted env s es rs u)
    (hr : (rs.map (·.2)).foldlM Ty.unify common = some r) (ha : Expr.EveryIn (avoids x) c es) :
    ElementsBeside x env 0 s u common r es := by
  cases h with
  | nil => exact fun _ _ hs hd => .pure hs ⟨.nothing trivial,Option.some.inj hr ▸ hd⟩
  | cons he ht hes =>
    obtain ⟨_,hc,hr⟩ := Option.bind_eq_some_iff.mp hr
    exact elements_cons_beside (he.beside ha.1) ht hc (hes.elements_beside hr ha.2)

theorem InitsAccepted.beside (h : InitsAccepted env s d seen fs q u)
    (ha : FieldInit.EveryIn (avoids x) c fs) : InitsBeside x env 0 s u d seen q fs := by
  cases h with
  | nil => exact fun _ hs => .pure hs ⟨.nothing trivial,rfl⟩
  | cons he ht hx hf hfit hfs => exact inits_cons_beside (he.beside ha.1) ht hx hf hfit (hfs.beside ha.2)

theorem ArmsAccepted.beside (h : ArmsAccepted env s t common catchAll covered as q u)
    (hx : ∀ a ∈ as, ∀ y, a.pattern.form.binder? = some y → y.name ≠ x) (ha : Arm.EveryIn (avoids x) c as) :
    ArmsBeside x env 0 s u t common catchAll covered q as := by
  cases h with
  | nil => exact fun _ _ _ hs _ hd => .pure hs ⟨.nothing trivial,hd,rfl,rfl⟩
  | cons hw hp he hc has =>
    exact arms_cons_beside hw hp (hx _ (.head _)) (he.beside ha.1) hc (has.beside (fun a ha => hx a (.tail _ ha)) ha.2)

theorem StmtAccepted.beside (h : StmtAccepted env s d q u)
    (ha : d.Every (avoids x) c) : StmtBeside x env 0 s u q d := by
  cases h with
  | bind he ht hd hh => exact bind_beside ha.1 (he.beside ha.2) ht hd hh _
  | assignName hx hm he ht hfit => exact assign_name_beside hx hm (he.beside ha.2) ht hfit _
  | assign hname hf he ht hfit =>
    obtain ⟨-,hl,hr⟩ := (Stmt.every_assign hname).mp ha
    exact assign_beside hname (hf.beside hl) (he.beside hr) ht hfit
  | retUnit hf hr => exact ret_none_beside hf hr
  | retValue hf he ht hr hfit => exact ret_some_beside hf (he.beside ha.2) ht hr hfit
  | expr he => exact expr_stmt_beside (he.beside ha.2)
  | cond hc => exact cond_beside (hc.beside ha.2)
  | loop he ht hfit hb => exact loop_beside (he.beside ha.2.1) ht hfit (hb.beside ha.2.2) he.isTrueLiteral_eq
  | each he ht hr hh hss => exact each_beside ha.1 (he.beside ha.2.1) ht hr hh (hss.beside ha.2.2) _
  | leave hl => exact leave_beside hl
  | next hl => exact next_beside hl

theorem StmtsAccepted.beside (h : StmtsAccepted env s ended warned ss q u) (ha : Stmt.EveryIn (avoids x) c ss) :
    StmtsBeside x env 0 s u ended warned q ss := by
  cases h with
  | nil => exact fun _ hs => .pure hs ⟨.nothing trivial,rfl⟩
  | cons hw hd hds => exact stmts_cons_beside hw rfl (hd.beside ha.1) (hds.beside ha.2)

theorem BlockAccepted.beside (h : BlockAccepted env s b q u)
    (ha : b.Every (avoids x) c) : BlockBeside x env 0 s u q b := by
  cases h with
  | mk hss => exact block_mk_beside (hss.beside ha)

theorem ChainAccepted.beside (h : ChainAccepted env s d q u)
    (ha : d.Every (avoids x) c) : ChainBeside x env 0 s u q d := by
  cases h with
  | stop => exact fun _ hs => .pure hs ⟨.nothing trivial,rfl⟩
  | otherwise hb => exact chain_otherwise_beside (hb.beside ha)
  | branch he ht hfit hb hrest =>
    exact chain_branch_beside (he.beside ha.2.1) ht hfit (hb.beside ha.2.2.1) (hrest.beside ha.2.2.2)

end

section Reported

variable (x env)

def ExprReported (e e' : Expr) : Prop :=
  ∀ {c s q u}, e.Every (avoids x) c → ExprAccepted env s e q u → ExprBeside x env 1 s u q e'

def ValuesReported (es es' : List Expr) : Prop :=
  ∀ {c s q u}, Expr.EveryIn (avoids x) c es → ValuesAccepted env s es q u → ValuesBeside x env 1 s u q es'

def ElementsReported (es es' : List Expr) : Prop :=
  ∀ {c s t r q u}, Expr.EveryIn (avoids x) c es → ValuesAccepted env s es q u →
    (q.map (·.2)).foldlM Ty.unify t = some r → ElementsBeside x env 1 s u t r es'

def InitsReported (fs fs' : List FieldInit) : Prop :=
  ∀ {c s d seen q u}, FieldInit.EveryIn (avoids x) c fs → InitsAccepted env s d seen fs q u →
    InitsBeside x env 1 s u d seen q fs'

def ArmsReported (as as' : List Arm) : Prop :=
  ∀ {c s t common catchAll covered q u}, (∀ a ∈ as, ∀ y, a.pattern.form.binder? = some y → y.name ≠ x) →
    Arm.EveryIn (avoids x) c as → ArmsAccepted env s t common catchAll covered as q u →
      ArmsBeside x env 1 s u t common catchAll covered q as'

def StmtReported (d d' : Stmt) : Prop :=
  ∀ {c s q u}, d.Every (avoids x) c → StmtAccepted env s d q u → StmtBeside x env 1 s u q d'

def StmtsReported (ss ss' : List Stmt) : Prop :=
  ∀ {c s ended warned q u}, Stmt.EveryIn (avoids x) c ss → StmtsAccepted env s ended warned ss q u →
    StmtsBeside x env 1 s u ended warned q ss'

def BlockReported (b b' : Block) : Prop :=
  ∀ {c s q u}, b.Every (avoids x) c → BlockAccepted env s b q u → BlockBeside x env 1 s u q b'

def ChainReported (d d' : Chain) : Prop :=
  ∀ {c s q u}, d.Every (avoids x) c → ChainAccepted env s d q u → ChainBeside x env 1 s u q d'

end Reported

mutual

theorem expr_mistaken : ∀ {e e' : Expr}, e.Mistaken x e' → ExprReported x env e e'
  | _, _, .here pos hplain => fun _ h => mistake_beside h hplain pos
  | _, _, .unary hm => fun ha (.unary he ht hr) => unary_beside (expr_mistaken hm ha.2 he) ht hr
  | _, _, .left hm => fun ha (.binary he ht hf ht' hr) =>
    binary_beside (expr_mistaken hm ha.2.1 he) ht (hf.beside ha.2.2) ht' hr
  | _, _, .right hm => fun ha (.binary he ht hf ht' hr) =>
    binary_beside (he.beside ha.2.1) ht (expr_mistaken hm ha.2.2 hf) ht' hr
  | _, _, .call hm => fun ha h => match h with
    | .user hf hes hfit => user_beside hf (values_mistaken hm ha.2 hes) hfit
    | .builtin hf hb hes hr => builtin_beside hf hb (values_mistaken hm ha.2 hes) hr
    | .host hf hb hh hes hfit => host_beside hf hb hh (values_mistaken hm ha.2 hes) hfit
  | _, _, .receiver hm => fun ha h => match h with
    | .method he ht hes _ hop hr =>
      method_beside (expr_mistaken hm ha.2.1 he) ht (hes.beside ha.2.2) _ ⟨rfl,rfl⟩ (.inr ⟨_,hop,hr⟩)
    | .methodLost he hes =>
      method_beside (expr_mistaken hm ha.2.1 he) nofun (hes.beside ha.2.2) _ ⟨rfl,rfl⟩ (.inl ⟨rfl,rfl⟩)
  | _, _, .method hm => fun ha h => match h with
    | .method he ht hes _ hop hr =>
      method_beside (he.beside ha.2.1) ht (values_mistaken hm ha.2.2 hes) _ ⟨rfl,rfl⟩ (.inr ⟨_,hop,hr⟩)
    | .methodLost he hes =>
      method_beside (he.beside ha.2.1) nofun (values_mistaken hm ha.2.2 hes) _ ⟨rfl,rfl⟩ (.inl ⟨rfl,rfl⟩)
  | _, _, .array hm => fun ha (.array hes ht) => array_beside (elements_mistaken hm ha.2 hes ht)
  | _, _, .target hm => fun ha (.index he ht hi ht' hnum hr) =>
    index_beside (expr_mistaken hm ha.2.1 he) ht (hi.beside ha.2.2) ht' hnum hr
  | _, _, .index hm => fun ha (.index he ht hi ht' hnum hr) =>
    index_beside (he.beside ha.2.1) ht (expr_mistaken hm ha.2.2 hi) ht' hnum hr
  | _, _, .field hm => fun ha (.field he ht hr) => field_beside (expr_mistaken hm ha.2 he) ht hr
  | _, _, .record hm => fun ha (.record hd hfs hall) => record_beside hd (inits_mistaken hm ha.2 hfs) hall
  | _, _, .wrap hm => fun ha (.wrap he ht hr) => wrap_beside (expr_mistaken hm ha.2 he) ht hr
  | _, _, .scrutinee hm => fun ha (.select he ht hp has hall) =>
    select_beside (expr_mistaken hm ha.2.1 he) ht hp (has.beside ha.1 ha.2.2) hall
  | _, _, .arms hm => fun ha (.select he ht hp has hall) =>
    select_beside (he.beside ha.2.1) ht hp (arms_mistaken hm ha.1 ha.2.2 has) hall
  | .block _ _ none _, _, .block hm => fun ha (.unit hss) => unit_beside (stmts_mistaken hm ha.2 hss) _
  | .block _ _ (some _) _, _, .block hm => fun ha (.value hss he) =>
    value_beside (stmts_mistaken hm ha.2.1 hss) (he.beside ha.2.2) _
  | _, _, .tail hm => fun ha (.value hss he) => value_beside (hss.beside ha.2.1) (expr_mistaken hm ha.2.2 he) _

theorem values_mistaken : ∀ {es es' : List Expr}, Expr.MistakenIn x es es' → ValuesReported x env es es'
  | _, _, .here hm => fun ha (.cons he ht hes) => values_cons_beside (expr_mistaken hm ha.1 he) ht (hes.beside ha.2)
  | _, _, .later hm => fun ha (.cons he ht hes) => values_cons_beside (he.beside ha.1) ht (values_mistaken hm ha.2 hes)

theorem elements_mistaken : ∀ {es es' : List Expr}, Expr.MistakenIn x es es' → ElementsReported x env es es'
  | _, _, .here hm => fun ha (.cons he ht hes) hr => by
    obtain ⟨_,hc,hr⟩ := Option.bind_eq_some_iff.mp hr
    exact elements_cons_beside (expr_mistaken hm ha.1 he) ht hc (hes.elements_beside hr ha.2)
  | _, _, .later hm => fun ha (.cons he ht hes) hr => by
    obtain ⟨_,hc,hr⟩ := Option.bind_eq_some_iff.mp hr
    exact elements_cons_beside (he.beside ha.1) ht hc (elements_mistaken hm ha.2 hes hr)

theorem inits_mistaken : ∀ {fs fs' : List FieldInit}, FieldInit.MistakenIn x fs fs' → InitsReported x env fs fs'
  | _, _, .here hm => fun ha (.cons he ht hx hf hfit hfs) =>
    inits_cons_beside (expr_mistaken hm ha.1 he) ht hx hf hfit (hfs.beside ha.2)
  | .mk _ _ _ :: _, _, .later hm => fun ha (.cons he ht hx hf hfit hfs) =>
    inits_cons_beside (he.beside ha.1) ht hx hf hfit (inits_mistaken hm ha.2 hfs)

theorem arms_mistaken : ∀ {as as' : List Arm}, Arm.MistakenIn x as as' → ArmsReported x env as as'
  | _, _, .here hm => fun hx ha (.cons hw hp he hc has) => arms_cons_beside hw hp (hx _ (.head _))
      (expr_mistaken hm ha.1 he) hc (has.beside (fun a h => hx a (.tail _ h)) ha.2)
  | .mk _ _ _ :: _, _, .later hm => fun hx ha (.cons hw hp he hc has) => arms_cons_beside hw hp (hx _ (.head _))
      (he.beside ha.1) hc (arms_mistaken hm (fun a h => hx a (.tail _ h)) ha.2 has)

theorem stmt_mistaken : ∀ {d d' : Stmt}, d.Mistaken x d' → StmtReported x env d d'
  | _, _, .bind hm => fun ha (.bind he ht hd hh) => bind_beside ha.1 (expr_mistaken hm ha.2 he) ht hd hh _
  | _, _, .target hm => fun ha h => match h with
    | .assignName hx hmut he ht hfit => match hm with
      | .here place _ => target_beside (he.beside ha.2) ht place
    | .assign hname hf he ht hfit => by
      obtain ⟨-,hl,hr⟩ := (Stmt.every_assign hname).mp ha
      rcases whole_or_inside hm with ⟨hplain,place,rfl⟩ | ⟨hname',-⟩
      · obtain rfl := hf.plain hplain
        exact target_beside (he.beside hr) ht place
      · exact assign_beside hname' (expr_mistaken hm hl hf) (he.beside hr) ht hfit
  | _, _, .assign hm => fun ha h => match h with
    | .assignName hx hmut he ht hfit => assign_name_beside hx hmut (expr_mistaken hm ha.2 he) ht hfit _
    | .assign hname hf he ht hfit =>
      have hparts := (Stmt.every_assign hname).mp ha
      assign_beside hname (hf.beside hparts.2.1) (expr_mistaken hm hparts.2.2 he) ht hfit
  | _, _, .ret hm => fun ha (.retValue hf he ht hr hfit) => ret_some_beside hf (expr_mistaken hm ha.2 he) ht hr hfit
  | _, _, .expr hm => fun ha (.expr he) => expr_stmt_beside (expr_mistaken hm ha.2 he)
  | _, _, .cond hm => fun ha (.cond hc) => cond_beside (chain_mistaken hm ha.2 hc)
  | _, _, .condition hm hpart => fun ha (.loop he ht hfit hb) => by
    refine loop_beside (expr_mistaken hm ha.2.1 he) ht hfit (hb.beside ha.2.2) (he.isTrueLiteral_eq.trans ?_)
    rcases whole_or_inside hm with ⟨-,pos,rfl⟩ | ⟨-,hlit⟩
    · cases hpart
    · exact hlit.symm
  | _, _, .loop hm => fun ha (.loop he ht hfit hb) =>
    loop_beside (he.beside ha.2.1) ht hfit (block_mistaken hm ha.2.2 hb) he.isTrueLiteral_eq
  | .each _ _ _ (.mk _ _) _, _, .iterable hm => fun ha (.each he ht hr hh hss) =>
    each_beside ha.1 (expr_mistaken hm ha.2.1 he) ht hr hh (hss.beside ha.2.2) _
  | _, _, .each (.mk hm) => fun ha (.each he ht hr hh hss) =>
    each_beside ha.1 (he.beside ha.2.1) ht hr hh (stmts_mistaken hm ha.2.2 hss) _

theorem stmts_mistaken : ∀ {ss ss' : List Stmt}, Stmt.MistakenIn x ss ss' → StmtsReported x env ss ss'
  | _, _, .here hm => fun ha (.cons hw hd hds) =>
    stmts_cons_beside hw (by cases hm <;> rfl) (stmt_mistaken hm ha.1 hd) (hds.beside ha.2)
  | _, _, .later hm => fun ha (.cons hw hd hds) =>
    stmts_cons_beside hw rfl (hd.beside ha.1) (stmts_mistaken hm ha.2 hds)

theorem block_mistaken : ∀ {b b' : Block}, b.Mistaken x b' → BlockReported x env b b'
  | _, _, .mk hm => fun ha (.mk hss) => block_mk_beside (stmts_mistaken hm ha hss)

theorem chain_mistaken : ∀ {d d' : Chain}, d.Mistaken x d' → ChainReported x env d d'
  | _, _, .otherwise hm => fun ha (.otherwise hb) => chain_otherwise_beside (block_mistaken hm ha hb)
  | _, _, .condition hm => fun ha (.branch he ht hfit hb hrest) => chain_branch_beside
      (expr_mistaken hm ha.2.1 he) ht hfit (hb.beside ha.2.2.1) (hrest.beside ha.2.2.2)
  | _, _, .body hm => fun ha (.branch he ht hfit hb hrest) => chain_branch_beside (he.beside ha.2.1) ht hfit
      (block_mistaken hm ha.2.2.1 hb) (hrest.beside ha.2.2.2)
  | _, _, .rest hm => fun ha (.branch he ht hfit hb hrest) => chain_branch_beside (he.beside ha.2.1) ht hfit
      (hb.beside ha.2.2.1) (chain_mistaken hm ha.2.2.2 hrest)

end

end Covenant.Check
