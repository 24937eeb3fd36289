import Covenant.Optimize.Program
import Covenant.Proofs.Tree.Joining
import Covenant.Proofs.Typing.Constants

/-! Optimising keeps the types of expressions and the shapes of nodes. So it keeps the typing rules, and all else
that can be said of shapes and holds of literals. -/

namespace Covenant.Optimize

open Typing

variable {S : Site} {l : Bool} {v : Option Ty → Option Ty} {Q : Rule}

theorem keptType_of_hasType {n : Int} {t : Ty} (h : (Value.int n).HasType t) : keptType (some t) = t := by
  rw [keptType]
  exact if_pos h

theorem isSolid_of_hasType {v : Value} {t : Ty} (h : v.HasType t) : t.isSolid = true := by
  cases v with
  | int n => cases t <;> first | rfl | cases h
  | bool b => exact h ▸ rfl
  | text s => exact h ▸ rfl

theorem literal_kept {x : Value} {type : Option Ty} (pos : Pos) (hx : S.env.Sized → x.InRange)
    (ht : S.strict → ∃ t, type = some t ∧ x.HasType t) :
    (rule S).expr (x.literal type pos) ∧ (S.strict → (x.literal type pos).type = type) := by
  have htype : S.strict → (x.literal type pos).type = type := by
    intro hs
    obtain ⟨t,rfl,h⟩ := ht hs
    cases x with
    | int n => exact congrArg some (keptType_of_hasType h)
    | bool b => exact congrArg some h.symm
    | text s => exact congrArg some h.symm
  have hnoted : S.strict → Noted (x.literal type pos) := by
    intro hs
    obtain ⟨t,rfl,h⟩ := ht hs
    exact ⟨t,htype hs,.inr (isSolid_of_hasType h)⟩
  refine ⟨?_,htype⟩
  cases x with
  | int n =>
    refine ⟨hx,fun hs => ⟨hnoted hs,?_⟩⟩
    obtain ⟨t,rfl,h⟩ := ht hs
    exact ⟨t,htype hs,h⟩
  | bool b => exact ⟨trivial,fun hs => ⟨hnoted hs,rfl⟩⟩
  | text s => exact ⟨trivial,fun hs => ⟨hnoted hs,rfl⟩⟩

theorem literal?_inRange {e : Expr} {x : Value} (he : (rule S).expr e) (h : e.literal? = some x)
    (hsized : S.env.Sized) : x.InRange := by
  cases e <;> simp only [Expr.literal?, Option.some.injEq, reduceCtorEq] at h <;> subst h
  · exact he.1 hsized
  · trivial
  · trivial

/-- A rule that holds of a tree after optimising if it held before. It needs what checking tells, since types are
kept for that reason only; a tree that was not read may have no types to keep. -/
structure Carried (S : Site) (v : Option Ty → Option Ty) (Q : Rule) : Prop extends Q.OfShapes v where
  view : ∀ {t t'}, (S.strict → t' = t) → v t' = v t
  typed : ∀ {e}, Q.expr e → (rule S).expr e
  typedStmt : ∀ {l s}, Q.stmt l s → (rule S).stmt l s
  lax : ¬ S.strict → ∀ l s, Q.stmt l s
  literal : ∀ {x : Value} {type pos}, (rule S).expr (x.literal type pos) → Q.expr (x.literal type pos)

namespace Carried

variable (h : Carried S v Q)

include h

theorem same {e e' : Expr} (he : Q.expr e) (hshape : e'.shape v = e.shape v) : Q.expr e' := by
  rw [← h.expr,hshape,h.expr]
  exact he

theorem sameStmt {l : Bool} {s s' : Stmt} (hs : Q.stmt l s) (hshape : s'.shape v = s.shape v) : Q.stmt l s' := by
  rw [← h.stmt,hshape,h.stmt]
  exact hs

theorem stub {e e' : Expr} (ht : S.strict → e'.type = e.type) : e'.stub v = e.stub v :=
  congrArg (fun t => Expr.noneLit ⟨.unknown, t⟩) (h.view ht)

theorem replaces {x : Value} {type : Option Ty} (pos : Pos) (hx : S.env.Sized → x.InRange)
    (ht : S.strict → ∃ t, type = some t ∧ x.HasType t) :
    (x.literal type pos).Every Q l ∧ (S.strict → (x.literal type pos).type = type) := by
  obtain ⟨hrule,htype⟩ := literal_kept pos hx ht
  refine ⟨?_,htype⟩
  cases x <;> exact h.literal hrule

theorem ne_error {e : Expr} {t : Ty} (he : e.Every Q l) (hs : S.strict) (ht : e.type = some t) : t ≠ .error :=
  ne_error_of_rule (h.typed he.head) hs ht

theorem unary {n : Note} {op : UnaryOp} {e e' : Expr} (hn : Q.expr (.unary n op e)) (he' : e'.Every Q l)
    (ht : S.strict → e'.type = e.type) :
    (unary n op e').value.Every Q l ∧ (S.strict → (Optimize.unary n op e').value.type = n.type) := by
  have hn' : Q.expr (.unary n op e') := h.same hn (congrArg (Expr.unary n op) (h.stub ht))
  unfold Optimize.unary
  cases hf : e'.literal?.bind (Value.foldUnary op) with
  | none => exact ⟨⟨hn',he'⟩,fun _ => rfl⟩
  | some x =>
    obtain ⟨a,-,hx⟩ := Option.bind_eq_some_iff.mp hf
    refine h.replaces _ (fun _ => Value.foldUnary_inRange hx) fun hs => ?_
    obtain ⟨t,r,htype,hr,hn⟩ := ((h.typed hn').2 hs).2
    exact ⟨r,hn,Value.foldUnary_hasType hr (h.ne_error he' hs htype) hx⟩

omit h in
theorem junction_types {op : BinaryOp} {s t r : Ty} (hop : op = .and ∨ op = .or)
    (h : op.type? s t = some r) (hs : s ≠ .error) (ht : t ≠ .error) :
    s = .boolean ∧ t = .boolean ∧ r = .boolean := by
  rcases hop with rfl | rfl <;> exact BinaryOp.takes_of_type? h hs ht

section Binary

variable {n : Note} {op : BinaryOp} {a b : Expr} (hn : Q.expr (.binary n op a b)) (ha : a.Every Q l)
  (hb : b.Every Q l)

include hn ha hb

theorem shortCircuit : (shortCircuit n op a b).value.Every Q l ∧
    (S.strict → (Optimize.shortCircuit n op a b).value.type = n.type) := by
  have hjunction : S.strict → (op = .and ∨ op = .or) → a.type = n.type ∧ b.type = n.type := by
    intro hs hop
    obtain ⟨s,t,r,has,hbt,hr,hn⟩ := ((h.typed hn).2 hs).2
    obtain ⟨rfl,rfl,rfl⟩ := junction_types hop hr (h.ne_error ha hs has) (h.ne_error hb hs hbt)
    exact ⟨has.trans hn.symm,hbt.trans hn.symm⟩
  unfold Optimize.shortCircuit
  split
  · rename_i note x
    cases x
    · exact ⟨ha,fun hs => (hjunction hs (.inl rfl)).1⟩
    · exact ⟨hb,fun hs => (hjunction hs (.inl rfl)).2⟩
  · rename_i note x
    cases x
    · exact ⟨hb,fun hs => (hjunction hs (.inr rfl)).2⟩
    · exact ⟨ha,fun hs => (hjunction hs (.inr rfl)).1⟩
  · exact ⟨⟨hn,ha,hb⟩,fun _ => rfl⟩

theorem binary : (binary n op a b).value.Every Q l ∧
    (S.strict → (Optimize.binary n op a b).value.type = n.type) := by
  unfold Optimize.binary
  cases hx : a.literal? with
  | none => exact h.shortCircuit hn ha hb
  | some x =>
    cases hy : b.literal? with
    | none => exact h.shortCircuit hn ha hb
    | some y =>
      dsimp only
      cases hz : Value.foldBinary op x y with
      | none => exact h.shortCircuit hn ha hb
      | some z =>
        have hrange (hsized : S.env.Sized) : z.InRange :=
          Value.foldBinary_inRange (literal?_inRange (h.typed ha.head) hx hsized) hz
        refine h.replaces _ hrange fun hs => ?_
        obtain ⟨s,t,r,has,hbt,hr,hn⟩ := ((h.typed hn).2 hs).2
        exact ⟨r,hn,Value.foldBinary_hasType hr (h.ne_error ha hs has) (h.ne_error hb hs hbt) hz⟩

end Binary

theorem name {n : Note} {x : String} {sym : Option Symbol} (hn : Q.expr (.name n x sym)) :
    (name n x sym).value.Every Q l ∧ (S.strict → (Optimize.name n x sym).value.type = n.type) := by
  unfold Optimize.name
  split
  · rename_i y t m i x
    obtain ⟨⟨s,hs,hn,hknown⟩,-⟩ := h.typed hn
    obtain rfl := Option.some.inj hs
    rcases hknown with hvar | ⟨-,-,-,hrange,htype⟩
    · exact absurd rfl hvar.1
    · obtain ⟨hevery,hkept⟩ := h.replaces (l := l) n.pos (fun hsized => hrange hsized x rfl) fun hst => by
        obtain ⟨w,hw,hwt⟩ := htype hst
        obtain rfl := Option.some.inj hw
        exact ⟨t,rfl,hwt⟩
      exact ⟨hevery,fun hst => (hkept hst).trans hn.symm⟩
  · exact ⟨hn,fun _ => rfl⟩

theorem ofChain {c : Chain} {p : Pos} {d : Chain} (hn : Q.stmt l (.cond p d)) (hc : c.Every Q l) :
    Stmt.EveryIn Q l (ofChain p c) := by
  cases c with
  | stop => trivial
  | otherwise b =>
    cases b
    exact hc
  | branch q e b c => exact ⟨⟨h.sameStmt hn rfl,hc⟩,trivial⟩

end Carried

theorem stmt_assign_value (r : Prover) (p : Pos) {t e : Expr} (h : t.isName = false) :
    (stmt r (.assign p t e)).value = [.assign p (expr r t).value (expr r e).value] := by
  cases t <;> first | rfl | cases h

theorem stmt_loop_value (r : Prover) (p : Pos) (e : Expr) (b : Block) :
    (stmt r (.loop p e b)).value =
      if neverTrue r [] (expr r e).value then []
      else [.loop p (expr r e).value (block r b).value] := by
  rw [stmt]
  simp only [Tally.value_bind]
  split <;> rfl

theorem chain_branch_value (r : Prover) (facts : List Guard.Formula) (p : Pos) (e : Expr) (b : Block)
    (c : Chain) :
    (chain r facts (.branch p e b c)).value =
      if neverTrue r facts (expr r e).value then (chain r facts c).value
      else if alwaysTrue r facts (expr r e).value then .otherwise (block r b).value
      else .branch p (expr r e).value (block r b).value
        (chain r (failedGuard facts (expr r e).value) c).value := by
  rw [chain]
  simp only [Tally.value_bind]
  split
  · rfl
  · simp only [Tally.value_bind]
    split <;> rfl

theorem block_stub (r : Prover) (b : Block) : (block r b).value.stub = b.stub := by
  cases b
  rfl

/-- Only a tree that cannot be read assigns to something that is no place. -/
theorem Carried.assign (h : Carried S v Q) {r : Prover} {p : Pos} {t e : Expr} (hname : t.isName = false)
    (hplace : Build.isPlace t = false) (hn : Q.stmt l (.assign p t e)) (ht : (expr r t).value.Every Q l)
    (he : (expr r e).value.Every Q l) : (Stmt.assign p (expr r t).value (expr r e).value).Every Q l := by
  by_cases hs : S.strict
  · have hsound := h.typedStmt hn hs
    have htrue : Build.isPlace t = true := by cases t <;> first | exact hsound.1 | cases hname
    exact absurd (hplace.symm.trans htrue) Bool.false_ne_true
  · by_cases hname' : (expr r t).value.isName = true
    · obtain ⟨n,x,sym,hx⟩ := Expr.eq_name_of_isName hname'
      rw [hx]
      exact ⟨h.lax hs l _,he⟩
    · exact (Stmt.every_assign (Bool.not_eq_true _ ▸ hname')).mpr ⟨h.lax hs l _,ht,he⟩

/-- An expression obeys a rule after optimising and has kept its type. -/
def Kept (S : Site) (Q : Rule) (r : Prover) (l : Bool) (e : Expr) : Prop :=
  (expr r e).value.Every Q l ∧ (S.strict → (expr r e).value.type = e.type)

theorem exprs_kept (h : Carried S v Q) {r : Prover} {es : List Expr} (hes : ∀ e ∈ es, Kept S Q r l e) :
    Expr.EveryIn Q l (exprs r es).value ∧ (exprs r es).value.map (Expr.stub v) = es.map (Expr.stub v) := by
  refine parts_walk es hes ⟨trivial,rfl⟩ fun _ _ he hes => ?_
  exact ⟨⟨he.1,hes.1⟩,congrArg₂ List.cons (h.stub he.2) hes.2⟩

theorem fields_kept (h : Carried S v Q) {r : Prover} {fs : List FieldInit} (hfs : ∀ f ∈ fs, Kept S Q r l f.value) :
    FieldInit.EveryIn Q l (fields r fs).value ∧
      (fields r fs).value.map (FieldInit.stub v) = fs.map (FieldInit.stub v) := by
  refine parts_walk fs hfs ⟨trivial,rfl⟩ fun (.mk p x _) _ he hfs => ?_
  exact ⟨⟨he.1,hfs.1⟩,congrArg₂ List.cons (congrArg (FieldInit.mk p x) (h.stub he.2)) hfs.2⟩

theorem arms_kept (h : Carried S v Q) {r : Prover} {as : List Arm} (has : ∀ a ∈ as, Kept S Q r l a.body) :
    Arm.EveryIn Q l (arms r as).value ∧ (arms r as).value.map (Arm.stub v) = as.map (Arm.stub v) := by
  refine parts_walk as has ⟨trivial,rfl⟩ fun (.mk p x _) _ he has => ?_
  exact ⟨⟨he.1,has.1⟩,congrArg₂ List.cons (congrArg (Arm.mk p x) (h.stub he.2)) has.2⟩

theorem carried_walk (h : Carried S v Q) (r : Prover) : Walk Q (Kept S Q r)
    (fun l s => Stmt.EveryIn Q l (stmt r s).value) (fun l ss => Stmt.EveryIn Q l (stmts r ss).value)
    (fun l b => (block r b).value.Every Q l) (fun l c => ∀ facts, (chain r facts c).value.Every Q l) where
  int he := ⟨he,fun _ => rfl⟩
  bool he := ⟨he,fun _ => rfl⟩
  text he := ⟨he,fun _ => rfl⟩
  noneLit he := ⟨he,fun _ => rfl⟩
  enum he := ⟨he,fun _ => rfl⟩
  name he := h.name he
  unary hn he := h.unary hn.1 he.1 he.2
  binary {_ n op _ _} hn ha hb :=
    h.binary (h.same hn.1 (congrArg₂ (Expr.binary n op) (h.stub ha.2) (h.stub hb.2))) ha.1 hb.1
  call {_ n f _} hn hes := ⟨⟨h.same hn.1 (congrArg (Expr.call n f) (exprs_kept h hes).2),(exprs_kept h hes).1⟩,
    fun _ => rfl⟩
  method {_ n _ m _ b} hn he hes := ⟨⟨h.same hn.1
    (congrArg₂ (Expr.method n · m · b) (h.stub he.2) (exprs_kept h hes).2),he.1,(exprs_kept h hes).1⟩,fun _ => rfl⟩
  array {_ n _} hn hes := ⟨⟨h.same hn.1 (congrArg (Expr.array n) (exprs_kept h hes).2),(exprs_kept h hes).1⟩,
    fun _ => rfl⟩
  index {_ n _ _} hn ha hi :=
    ⟨⟨h.same hn.1 (congrArg₂ (Expr.index n) (h.stub ha.2) (h.stub hi.2)),ha.1,hi.1⟩,fun _ => rfl⟩
  field {_ n _ f} hn he := ⟨⟨h.same hn.1 (congrArg (Expr.field n · f) (h.stub he.2)),he.1⟩,fun _ => rfl⟩
  record {_ n x _} hn hfs := ⟨⟨h.same hn.1 (congrArg (Expr.record n x) (fields_kept h hfs).2),(fields_kept h hfs).1⟩,
    fun _ => rfl⟩
  wrap {_ n w _} hn he := ⟨⟨h.same hn.1 (congrArg (Expr.wrap n w) (h.stub he.2)),he.1⟩,fun _ => rfl⟩
  select {_ n _ _} hn he has := ⟨⟨h.same hn.1
    (congrArg₂ (Expr.select n) (h.stub he.2) (arms_kept h has).2),he.1,(arms_kept h has).1⟩,fun _ => rfl⟩
  block hn hss := ⟨⟨h.same hn.1 rfl,hss⟩,fun _ => rfl⟩
  tail {_ n _ _ d} hn hss he :=
    ⟨⟨h.same hn.1 (congrArg (fun e => Expr.block n [] (some e) d) (h.stub he.2)),hss,he.1⟩,fun _ => rfl⟩
  bind {_ p x d _ i} hn he := ⟨⟨h.sameStmt hn.1 (congrArg (Stmt.bind p x d · i) (h.stub he.2)),he.1⟩,trivial⟩
  assignName {_ p n x sym _} hn he :=
    ⟨⟨h.sameStmt hn.1 (congrArg (Stmt.assign p (.name n x sym)) (h.stub he.2)),he.1⟩,trivial⟩
  assignField {_ p n _ f _} hn ht he := ⟨⟨h.sameStmt hn.1
    (congrArg₂ (fun t e => Stmt.assign p (.field n t f) e) (h.stub ht.2) (h.stub he.2)),
    ⟨h.same hn.2.1.1 (congrArg (Expr.field n · f) (h.stub ht.2)),ht.1⟩,he.1⟩,trivial⟩
  assignIndex {_ p n _ _ _} hn ht hi he := by
    have hindex := congrArg₂ (Expr.index n) (h.stub ht.2) (h.stub hi.2)
    exact ⟨⟨h.sameStmt hn.1 (congrArg₂ (Stmt.assign p) hindex (h.stub he.2)),⟨h.same hn.2.1.1 hindex,ht.1,hi.1⟩,he.1⟩,
      trivial⟩
  assignOther {_ p t _} hn hplace ht he := by
    have hname : t.isName = false := by cases t <;> first | rfl | cases hplace
    obtain ⟨hn,-,-⟩ := (Stmt.every_assign hname).mp hn
    rw [stmt_assign_value r p hname]
    exact ⟨h.assign hname hplace hn ht.1 he.1,trivial⟩
  ret hn := ⟨hn,trivial⟩
  leave hn := ⟨hn,trivial⟩
  next hn := ⟨hn,trivial⟩
  retValue {_ p _} hn he :=
    ⟨⟨h.sameStmt hn.1 (congrArg (fun e => Stmt.ret p (some e)) (h.stub he.2)),he.1⟩,trivial⟩
  expr {_ p _} hn he := ⟨⟨h.sameStmt hn.1 (congrArg (Stmt.expr p) (h.stub he.2)),he.1⟩,trivial⟩
  cond hn hc := h.ofChain hn.1 (hc [])
  loop {_ p _ b} hn he hb := by
    rw [stmt_loop_value]
    split
    · trivial
    · exact ⟨⟨h.sameStmt hn.1 (congrArg₂ (Stmt.loop p) (h.stub he.2) (block_stub r b)),he.1,hb⟩,trivial⟩
  each {_ p x _ b i} hn he hb :=
    ⟨⟨h.sameStmt hn.1 (congrArg₂ (Stmt.each p x · · i) (h.stub he.2) (block_stub r b)),he.1,hb⟩,trivial⟩
  nil := trivial
  cons _ hs hss := (Stmt.everyIn_append _ _ _ _).mpr ⟨hs,hss⟩
  body hss := hss
  stop _ := trivial
  otherwise hb _ := hb
  branch hn he hb hc facts := by
    rw [chain_branch_value]
    split
    · exact hc _
    · split
      · exact hb
      · have hg := hn.1
        rw [← h.guard,← h.stub he.2,h.guard] at hg
        exact ⟨hg,he.1,hb,hc _⟩

theorem args_stubs (es : List Expr) : (es.map (Expr.stub id)).map (·.type) = es.map (·.type) := by
  rw [List.map_map]
  rfl

theorem sound_shape (e : Expr) : Sound S (e.shape id) ↔ Sound S e := by
  cases e with
  | call | array => simp only [Expr.shape, Sound, Args, args_stubs]
  | method => simp only [Expr.shape, Sound, Args, List.map_cons, args_stubs]; rfl
  | record => simp only [Expr.shape, Sound, List.forall_mem_map]; rfl
  | select => simp only [Expr.shape, Sound, List.forall_mem_map]; rfl
  | block n ss tail d => cases tail <;> rfl
  | _ => rfl

theorem stmtSound_shape (l : Bool) (s : Stmt) : StmtSound S l (s.shape id) ↔ StmtSound S l s := by
  cases s with
  | assign p t e => cases t <;> rfl
  | ret p e => cases e <;> rfl
  | _ => rfl

theorem plain_shape (e : Expr) : Plain S (e.shape v) ↔ Plain S e := by
  cases e <;> rfl

theorem noted_shape (e : Expr) : Noted (e.shape v) ↔ Noted e := by
  rw [Noted,Expr.type_shape]
  rfl

theorem rule_ofShapes (S : Site) : (rule S).OfShapes id where
  expr e := and_congr (plain_shape e) (imp_congr_right fun _ => and_congr (noted_shape e) (sound_shape e))
  stmt l s := imp_congr_right fun _ => stmtSound_shape l s
  guard _ := Iff.rfl

theorem block_keeps (hs : S.strict) (h : Q.OfShapes id) (hlit : ∀ (x : Value) type pos, Q.expr (x.literal type pos))
    (r : Prover) {b : Block} (hrule : b.Every (rule S) l) (hb : b.Every Q l) : (block r b).value.Every Q l := by
  have hcarried : Carried S id ((rule S).both Q) :=
    ⟨(rule_ofShapes S).both h,fun ht => ht hs,And.left,And.left,fun hn => absurd hs hn,fun he => ⟨he,hlit _ _ _⟩⟩
  have hboth := (carried_walk hcarried r).onBlock b (hrule.join (Rule.join_both _ _) hb)
  exact hboth.join (Rule.both_right _ _) hboth

theorem exists_carried (S : Site) : ∃ v, Carried S v (rule S) := by
  by_cases hs : S.strict
  · exact ⟨id,rule_ofShapes S,fun ht => ht hs,fun he => he,fun he => he,fun hn => absurd hs hn,fun hrule => hrule⟩
  · have hlax {P : Prop} : (S.strict → P) ↔ True := iff_true_intro fun h => absurd h hs
    refine ⟨fun _ => none,⟨fun e => ?_,fun _ _ => ?_,fun _ => ?_⟩,fun _ => rfl,fun he => he,fun he => he,
      fun _ _ _ h => absurd h hs,fun hrule => hrule⟩
    · exact and_congr (plain_shape e) (hlax.trans hlax.symm)
    · exact hlax.trans hlax.symm
    · exact hlax.trans hlax.symm

theorem expr_kept (r : Prover) (e : Expr) (l : Bool) (he : e.Every (rule S) l) :
    (expr r e).value.Every (rule S) l ∧ (S.strict → (expr r e).value.type = e.type) := by
  obtain ⟨v,h⟩ := exists_carried S
  exact (carried_walk h r).onExpr e he

theorem block_kept (r : Prover) (b : Block) (l : Bool) (hb : b.Every (rule S) l) :
    (block r b).value.Every (rule S) l := by
  obtain ⟨v,h⟩ := exists_carried S
  exact (carried_walk h r).onBlock b hb

end Covenant.Optimize
