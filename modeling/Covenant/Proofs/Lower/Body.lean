import Covenant.Proofs.Lower.Expression
import Covenant.Proofs.Tree.Walk

/-! The code of matches and statements, and from it that of whole bodies. -/

namespace Covenant.Lower

open Wasm Typing

variable {G : List FuncType} {g : List Global} {S : Site} {c : Context} {l : Bool} {e : Expr}
variable {t : Ty} {subject : Nat} {n : Note} {b : Block} {p : PatternForm}

theorem unused_typed (E : BodyScope) (L : List (List ValType)) (e : Expr) :
    Typed E L (unused (pushes c e)) (left c e) [] := by
  rw [unused,left]
  split
  · exact .drop _
  · exact .nil

theorem pushes_inside (n : Nat) (e : Expr) : pushes (c.inside n) e = pushes c e := by
  cases e with
  | block _ _ tail =>
    cases tail with
    | none => rfl
    | some e => exact pushes_inside n e
  | call _ f => cases f <;> rfl
  | select n => obtain ⟨_,_ | t⟩ := n <;> rfl
  | _ => rfl

theorem fits_reference (h : PatternFits S.env t p) (hp : p.isCatchAll = false) (hb : ∃ b, p.binder? = some b) :
    t.valType = .i32 := by
  obtain ⟨b,hb⟩ := hb
  cases p with
  | bind => cases hp
  | some | ok | err => cases t <;> first | rfl | cases h
  | _ => cases hb

theorem bindPattern_lowers (hc : Linked G c S) (h : PatternSound S t p) :
    Lowers (bindPattern c subject p) fun T code =>
      (scope G g S T).locals[subject]? = some t.valType → ∀ L, Typed (scope G g S T) L code [] [] := by
  unfold bindPattern
  split
  · rename_i x slot hb
    obtain ⟨i,hi,hslot⟩ := h.2 _ hb
    cases hi
    split
    · rename_i hall
      have hfits : (Check.patternFits p t).2 = t := by
        cases p with
        | bind => rfl
        | wild => cases hb
        | _ => cases hall
      rw [hfits] at hslot
      exact .pure fun T hs L => .cons (.get hs) (.set (locals_slot hslot))
    · rename_i hall
      have hval := fits_reference h.1 (by simpa using hall) ⟨_,hb⟩
      rw [hc.slots,hslot]
      refine .known (.pure fun T hs L => ?_)
      rw [hval] at hs
      exact .cons (.get hs) (.cons (.load rfl _ _) (.set (locals_slot hslot)))
  · exact .pure fun _ _ _ => .nil

theorem patternTest_lowers (h : PatternFits S.env t p) :
    Lowers (patternTest c subject p) fun T code =>
      (scope G g S T).locals[subject]? = some t.valType → Leaves G g S c [.i32] T code := by
  cases p with
  | int v =>
    rw [Ty.valType_of_isNumeric h.2]
    exact .pure fun T hs L _ => .cons (.get hs) (Typed.cons (Typed.frame (.i64 v) [.i64]) (.num .i64Eq))
  | bool b =>
    have ht : t = .boolean := of_decide_eq_true h
    subst ht
    cases b with
    | true => exact .pure fun T hs L _ => .get hs
    | false => exact .pure fun T hs L _ => .cons (.get hs) (.num .i32Eqz)
  | text s =>
    have ht : t = .string := of_decide_eq_true h
    subst ht
    exact .bind (intern_lowers s) fun a => .pure fun T _ hs L _ =>
      .cons (.get hs) (Typed.cons (Typed.frame (.i32 a) [.i32]) (.routine .equal))
  | enum owner v =>
    obtain ⟨d,tag,-,-,rfl⟩ := h
    exact .bind (.orGap _ _) fun d => .pure fun T _ hs L _ =>
      .cons (.get hs) (Typed.cons (Typed.frame (.i64 _) [.i64]) (.num .i64Eq))
  | some | ok =>
    cases t <;> cases h
    exact .pure fun T hs L _ => .cons (.get hs) (.cons (.load rfl .i64 _)
      (Typed.cons (Typed.frame (.i64 1) [.i64]) (.num .i64Eq)))
  | none | err =>
    cases t <;> cases h
    exact .pure fun T hs L _ => .cons (.get hs) (.cons (.load rfl .i64 _) (.num .i64Eqz))
  | wild | bind => exact .pure fun T _ L _ => .i32 1

/-- What lies in a match: each body leaves what the match does, or something that nothing uses. -/
theorem arm_lowers {out : BlockType} {pushed : Bool} (hp : pushed = pushes c e)
    (he : ExprLowers G g S c e)
    (hfit : ∀ t, out = some t → Lowers (expr c e) (Leaves G g S c [t])) :
    Lowers (expr c e) fun T code =>
      Leaves G g S c out.toList T (code ++ unused (out = none && pushed)) := by
  subst hp
  cases out with
  | none => exact he.weaken fun T code hcode => hcode.1.then fun L => unused_typed _ L e
  | some t => exact (hfit t rfl).weaken fun T code hcode => hcode.then fun L => .nil

theorem arms_lower {out : BlockType} {as : List Arm} (hc : Linked G c S)
    (hp : ∀ a ∈ as, PatternSound S t a.pattern.form) (he : ∀ a ∈ as, ∀ c, Linked G c S → ExprLowers G g S c a.body)
    (hfit : ∀ a ∈ as, ∀ c, Linked G c S → ∀ t, out = some t →
      Lowers (expr c a.body) (Leaves G g S c [t])) :
    Lowers (arms c subject out as) fun T code =>
      (scope G g S T).locals[subject]? = some t.valType → Leaves G g S c out.toList T code := by
  induction as generalizing c with
  | nil => exact .pure fun T _ L _ => Stops.trap _ _
  | cons a as ih =>
    obtain ⟨pos,p,e⟩ := a
    rw [List.forall_mem_cons] at hp he hfit
    rw [arms]
    split
    · have hbody := arm_lowers rfl (he.1 c hc) (hfit.1 c hc)
      refine .bind (bindPattern_lowers (g := g) hc hp.1) fun bound => .bind hbody fun code =>
        .pure fun T hcode hbound hs => ?_
      rw [List.append_assoc]
      exact fun L hL => (hbound hs L).append (hcode L hL)
    · have hbody := arm_lowers (pushes_inside 1 e).symm (he.1 _ (hc.inside 1)) (hfit.1 _ (hc.inside 1))
      refine .bind (patternTest_lowers (G := G) (g := g) hp.1.1) fun test =>
        .bind (bindPattern_lowers (g := g) hc hp.1) fun bound =>
        .bind hbody fun code => .bind (ih (hc.inside 1) hp.2 he.2 hfit.2) fun rest =>
        .pure fun T hrest hcode hbound htest hs L hL => ?_
      refine (htest hs L hL).append (.cond ?_ (hrest hs _ (hL.inside _)))
      rw [List.append_assoc]
      exact (hbound hs _).append (hcode _ (hL.inside _))

theorem select_lowers {as : List Arm} (hc : Linked G c S) (he : e.Every (rule S) l) (h : Sound S (.select n e as))
    (hs : (settled S).expr (.select n e as)) (ih : ExprLowers G g S c e)
    (has : ∀ a ∈ as, a.body.Every (rule S) l ∧ ∀ c, Linked G c S → ExprLowers G g S c a.body) :
    ExprLowers G g S c (.select n e as) := by
  obtain ⟨t,r,ht,hmatch,hn,hfits⟩ := h
  have hvalue := ih.value hc he ht (by rintro rfl; cases hmatch) (by rintro rfl; cases hmatch)
  obtain ⟨pos,type⟩ := n
  cases hn
  show Lowers (orGap .type e.type >>= _) _
  rw [ht]
  refine .known (.bind (temp_lowers hc.slots G g t.valType) fun subject => .bind hvalue fun code => ?_)
  by_cases hpushes : pushes c (.select ⟨pos,some r⟩ e as) = true
  · have hr : r ≠ .void ∧ r ≠ .hole := by simpa [pushes] using hpushes
    simp only [hpushes, if_true, Option.map_some, reduceCtorEq, decide_false, Bool.false_and,
      Bool.false_eq_true, if_false]
    have hbodies : ∀ a ∈ as, ∀ c, Linked G c S → ∀ v, some r.valType = some v →
        Lowers (expr c a.body) (Leaves G g S c [v]) := by
      rintro a ha c' hc' v ⟨⟩
      obtain ⟨-,u,hu,hagrees⟩ := hfits a ha
      refine ((has a ha).2 c' hc').fit hc' (has a ha).1 hu ?_ (hs r rfl hr.1 hr.2 a ha) fun _ huh => ?_
      · rintro rfl
        rcases hagrees with hh | ⟨-,-,hvoid⟩
        · cases hh
        · exact hr.1 (hvoid.mp rfl)
      · rcases hagrees with hh | ⟨-,hval,-⟩
        · exact absurd hh huh
        · exact hval
    refine .bind (arms_lower hc (fun a ha => (hfits a ha).1) (fun a ha => (has a ha).2) hbodies)
      fun chosen => .pure fun T hchosen hcode hsubject => ⟨?_,?_⟩
    · rw [left_of_type hpushes rfl,List.append_nil]
      exact hcode.keep hsubject (hchosen hsubject)
    · intro hstops
      simp [Expr.stops, hr.2] at hstops
  · simp only [Bool.not_eq_true] at hpushes
    simp only [hpushes, Bool.false_eq_true, if_false, decide_true, Bool.true_and]
    refine .bind (arms_lower hc (fun a ha => (hfits a ha).1) (fun a ha => (has a ha).2)
      fun _ _ _ _ _ h => by cases h)
      fun chosen => .pure fun T hchosen hcode hsubject => ?_
    have hall := hcode.keep hsubject (hchosen hsubject)
    refine ⟨?_,fun hstops => ?_⟩
    · rw [left_of_stops hpushes]
      refine hall.then fun L => ?_
      split
      · exact Stops.trap _ _
      · exact .nil
    · have hdiv : allDiverge as = true := by
        simp only [Expr.stops, Bool.and_eq_true] at hstops
        exact hstops.2
      rw [if_pos hdiv]
      exact fun L hL => .prepend (hall L hL) .trap

/-- Code that leaves nothing, and stops if it is said to. -/
def StmtCode (G : List FuncType) (g : List Global) (S : Site) (c : Context) (stops : Bool)
    (T : List ValType) (code : List Instr) : Prop :=
  Leaves G g S c [] T code ∧ (stops = true → ∀ L, c.Labels L → Stops (scope G g S T) L code)

def StmtLowers (G : List FuncType) (g : List Global) (S : Site) (c : Context) (s : Stmt) : Prop :=
  Lowers (stmt c s) (StmtCode G g S c s.stops)

variable {T : List ValType} {p : Pos}

theorem StmtCode.of_leaves {code : List Instr} (h : Leaves G g S c [] T code) :
    StmtCode G g S c false T code := ⟨h,nofun⟩

theorem StmtCode.of_stops {code : List Instr}
    (h : ∀ L, c.Labels L → Stops (scope G g S T) L code) : StmtCode G g S c true T code :=
  ⟨fun L hL => h L hL _ _,fun _ => h⟩

theorem keep_lowers {i : Nat} (hc : Linked G c S) (he : e.Every (rule S) l) (ih : ExprLowers G g S c e)
    (hi : S.slots[i]? = some t) (ht : t.isSolid = true) (hg : Gives e t) (hs : Settles t e) :
    Lowers (expr c e) fun T code => StmtCode G g S c e.stops T (code ++ [Instr.set i]) := by
  have hvalue := ih.use hc he (Ty.ne_error_of_isSolid ht) hg hs
  intro s code s' hrun
  obtain ⟨hpre,hcode⟩ := ih s code s' hrun
  obtain ⟨-,hval⟩ := hvalue s code s' hrun
  refine ⟨hpre,fun T hT => ⟨(hval T hT).then fun L => .set (locals_slot hi),fun hstops L hL => ?_⟩⟩
  exact .append ((hcode T hT).2 hstops L hL) (.set (locals_slot hi))

theorem exprStmt_lowers {p : Pos} (ih : ExprLowers G g S c e) : StmtLowers G g S c (.expr p e) :=
  .bind ih fun _ => .pure fun _ hcode =>
    ⟨hcode.1.then fun L => unused_typed _ L e,
      fun hstops L hL => .append (hcode.2 hstops L hL) (unused_typed _ L e)⟩

theorem ret_lowers (hc : Linked G c S) (he : e.Every (rule S) l) (ih : ExprLowers G g S c e)
    (h : StmtSound S l (.ret p (some e))) (hs : (settled S).stmt l (.ret p (some e))) :
    StmtLowers G g S c (.ret p (some e)) := by
  obtain ⟨t,ht,hg⟩ := h
  refine .bind (ih.use hc he (hc.result t ht) hg (hs t ht)) fun code => .pure fun T hcode => ?_
  refine .of_stops fun L hL => .ret ?_
  show Typed _ L code [] (S.result.toList.map Ty.valType)
  rw [ht]
  exact hcode L hL

theorem assignField_lowers {a : Expr} {f : String} (hc : Linked G c S) (ht : (Expr.field n a f).Every (rule S) l)
    (he : e.Every (rule S) l) (iha : ExprLowers G g S c a) (ih : ExprLowers G g S c e)
    (h : StmtSound S l (.assign p (.field n a f) e)) (hs : (settled S).stmt l (.assign p (.field n a f) e)) :
    StmtLowers G g S c (.assign p (.field n a f) e) := by
  obtain ⟨-,u,hu,hg⟩ := h
  obtain ⟨r,d,fd,hat,-,-,-⟩ := (ht.1.2 hc.strict).2
  have hn : n.type = some u := hu
  have hx := iha.value hc ht.2 hat (by simp) (by simp)
  have hy := ih.use hc he (ne_error_of_every ht hc.strict hu) hg (hs u hu)
  refine .bind hx fun x => .bind hy fun y => .bind (fieldOffset_lowers _ _) fun o => ?_
  rw [hn]
  exact .known (.pure fun T _ hy hx => .of_leaves ((hx.append hy).then fun L => .store rfl u.valType _))

theorem assignIndex_lowers {a i : Expr} (hc : Linked G c S) (ht : (Expr.index n a i).Every (rule S) l)
    (he : e.Every (rule S) l) (iha : ExprLowers G g S c a) (ihi : ExprLowers G g S c i) (ih : ExprLowers G g S c e)
    (h : StmtSound S l (.assign p (.index n a i) e)) (hs : (settled S).stmt l (.assign p (.index n a i) e)) :
    StmtLowers G g S c (.assign p (.index n a i) e) := by
  obtain ⟨-,u,hu,hg⟩ := h
  obtain ⟨t,v,hat,hiv,hnum,-⟩ := (ht.1.2 hc.strict).2
  have hn : n.type = some u := hu
  have hx := elementAddress_lowers hc ht.2.1 ht.2.2 iha ihi hat hiv hnum
  have hy := ih.use hc he (ne_error_of_every ht hc.strict hu) hg (hs u hu)
  refine .bind hx fun x => .bind hy fun y => ?_
  rw [hn]
  exact .known (.pure fun T hy hx => .of_leaves ((hx.append hy).then fun L => .store rfl u.valType _))

def StmtsLower (G : List FuncType) (g : List Global) (S : Site) (c : Context) (ss : List Stmt) : Prop :=
  Lowers (stmts c ss) (StmtCode G g S c (Stmt.anyStops ss))

def BlockLowers (G : List FuncType) (g : List Global) (S : Site) (c : Context) (b : Block) : Prop :=
  Lowers (block c b) (Leaves G g S c [])

def ChainLowers (G : List FuncType) (g : List Global) (S : Site) (c : Context) (ch : Chain) : Prop :=
  Lowers (chain c ch) fun T o => ∀ code, o = some code → Leaves G g S c [] T code

theorem loop_lowers (hc : Linked G c S) (he : e.Every (rule S) l) (ihe : ExprLowers G g S (c.inside 2) e)
    (ihb : BlockLowers G g S c.insideLoop b) (h : Gives e .boolean) (hs : Settles .boolean e) :
    StmtLowers G g S c (.loop p e b) :=
  .bind (ihe.use (hc.inside 2) he (by simp) h hs) fun test => .bind ihb fun body =>
    .pure fun T hbody htest => .of_leaves fun L hL =>
      whileCode_typed (htest _ (hL.inside_two [] [])) (hbody _ hL.insideLoop)

theorem each_lowers {x : String} {slot : Option Nat} (hc : Linked G c S) (he : e.Every (rule S) l)
    (ihe : ExprLowers G g S c e) (ihb : BlockLowers G g S c.insideLoop b) (h : StmtSound S l (.each p x e b slot)) :
    StmtLowers G g S c (.each p x e b slot) := by
  obtain ⟨i,t,rfl,hi,ht,-⟩ := h
  refine .known ?_
  rw [hc.slots,hi]
  refine .known (.bind (temp_lowers hc.slots G g .i32) fun a =>
    .bind (temp_lowers hc.slots G g .i32) fun j =>
    .bind (ihe.value hc he ht (by simp) (by simp)) fun array => .bind ihb fun body =>
    .pure fun T hbody harray hj ha => .of_leaves fun L hL => ?_)
  exact (harray L hL).append
    (forCode_typed rfl ha hj (locals_slot hi) (hbody _ hL.insideLoop))

theorem branch_lowers {rest : Chain} (hc : Linked G c S) (he : e.Every (rule S) l) (ihe : ExprLowers G g S c e)
    (ihb : BlockLowers G g S (c.inside 1) b) (ihr : ChainLowers G g S (c.inside 1) rest) (h : Gives e .boolean)
    (hs : Settles .boolean e) : ChainLowers G g S c (.branch p e b rest) := by
  refine .bind (ihe.use hc he (by simp) h hs) fun test => .bind ihb fun yes => .bind ihr fun no =>
    .pure fun T hno hyes htest code hcode => ?_
  cases hcode
  intro L hL
  refine (htest L hL).append ?_
  cases no with
  | none => exact .when (hyes _ (hL.inside []))
  | some no => exact .cond (b := none) (hyes _ (hL.inside [])) (hno no rfl _ (hL.inside []))

theorem jump_stops {k : LoopLevels} {n : Nat} (hk : c.loop = some k) (hn : n = k.leave ∨ n = k.next) :
    StmtCode G g S c true T [.op (.br (c.distance n))] :=
  .of_stops fun _ hL => .br (hL.jumps k hk n hn).2

theorem block_expr_lowers {ss : List Stmt} {d : Bool} (hn : n.type = e.type) (hss : StmtsLower G g S c ss)
    (he : ExprLowers G g S c e) : ExprLowers G g S c (.block n ss (some e) d) := by
  refine .bind hss fun code => .bind he fun last => .pure fun T hlast hcode => ⟨?_,fun hstops L hL => ?_⟩
  · have hleft : left c (.block n ss (some e) d) = left c e := by
      show (if pushes c e then [(n.type.getD .void).valType] else []) = _
      rw [hn]
      rfl
    rw [hleft]
    exact fun L hL => (hcode.1 L hL).append (hlast.1 L hL)
  · exact .prepend (hcode.1 L hL) (hlast.2 hstops L hL)

theorem stmts_cons_lower {s : Stmt} {ss : List Stmt} (hs : StmtLowers G g S c s)
    (hss : StmtsLower G g S c ss) : StmtsLower G g S c (s :: ss) := by
  refine .bind hs fun x => .bind hss fun xs => .pure fun T hxs hx => ⟨?_,fun hstops L hL => ?_⟩
  · exact fun L hL => (hx.1 L hL).append (hxs.1 L hL)
  · rcases (Bool.or_eq_true _ _).mp hstops with h | h
    · exact .append (hx.2 h L hL) (hxs.1 L hL)
    · exact .prepend (hx.1 L hL) (hxs.2 h L hL)

theorem lowers_walk : Walk (rule S)
    (fun l e => e.Every (settled S) l → ∀ c, Linked G c S → ExprLowers G g S c e)
    (fun l s => s.Every (settled S) l → ∀ c, Linked G c S → StmtLowers G g S c s)
    (fun l ss => Stmt.EveryIn (settled S) l ss → ∀ c, Linked G c S → StmtsLower G g S c ss)
    (fun l b => b.Every (settled S) l → ∀ c, Linked G c S → BlockLowers G g S c b)
    (fun l ch => ch.Every (settled S) l → ∀ c, Linked G c S → ChainLowers G g S c ch) where
  int h _ _ hc := int_lowers hc h
  bool h _ _ hc := bool_lowers hc h
  text h _ _ hc := text_lowers hc h
  name h _ _ hc := name_lowers hc h
  noneLit h _ _ hc := noneLit_lowers hc h
  enum h _ _ hc := enum_lowers hc h
  unary h he hs c hc := unary_lowers hc h.2 (h.1.2 hc.strict).2 (he hs.2 c hc)
  binary h ha hb hs c hc := binary_lowers hc h.2.1 h.2.2 (h.1.2 hc.strict).2 (ha hs.2.1 c hc) (hb hs.2.2 c hc)
    (hb hs.2.2 _ (hc.inside 1))
  call {_ _ f _} h hes hs c hc := by
    have hall e he := And.intro (Expr.every_of_mem h.2 e he) (hes e he (Expr.every_of_mem hs.2 e he) c hc)
    cases f with
    | user => exact userCall_lowers hc (h.1.2 hc.strict).2 hs.1 hall
    | host => exact hostCall_lowers hc (h.1.2 hc.strict).2 hs.1 hall
    | builtin =>
      obtain ⟨ts,hargs,r,hr,hn⟩ := (h.1.2 hc.strict).2
      exact (builtin_lowers hc hargs hr hs.1 hall).weaken fun _ _ hcode => .of_leaves rfl rfl hn hcode
    | unresolved =>
      obtain ⟨_,_,hfalse⟩ := (h.1.2 hc.strict).2
      exact hfalse.elim
  method {_ _ e _ args _} h he hes hs c hc := by
    obtain ⟨op,ts,r,rfl,hargs,hr,hn⟩ := (h.1.2 hc.strict).2
    have hall : ∀ e' ∈ e :: args, e'.Every (rule S) _ ∧ ExprLowers G g S c e' := List.forall_mem_cons.mpr
      ⟨⟨h.2.1,he hs.2.1 c hc⟩,fun e he => ⟨Expr.every_of_mem h.2.2 e he,hes e he (Expr.every_of_mem hs.2.2 e he) c hc⟩⟩
    exact (builtin_lowers hc hargs hr hs.1 hall).weaken fun _ _ hcode => .of_leaves rfl rfl hn hcode
  array h hes hs c hc := array_lowers hc (h.1.2 hc.strict).2
    (fun e he => ⟨Expr.every_of_mem h.2 e he,hes e he (Expr.every_of_mem hs.2 e he) c hc⟩) hs.1
  index h ha hi hs c hc := index_lowers hc h.2.1 h.2.2 (ha hs.2.1 c hc) (hi hs.2.2 c hc) (h.1.2 hc.strict).2
  field h he hs c hc := field_lowers hc h.2 (he hs.2 c hc) (h.1.2 hc.strict).2
  record h hfs hs c hc := record_lowers hc (h.1.2 hc.strict).2 hs.1 fun f hf =>
    ⟨FieldInit.every_of_mem h.2 f hf,hfs f hf (FieldInit.every_of_mem hs.2 f hf) c hc⟩
  wrap h he hs c hc := wrap_lowers hc h.2 (he hs.2 c hc) (h.1.2 hc.strict).2 hs.1
  select h he has hs c hc := select_lowers hc h.2.1 (h.1.2 hc.strict).2 hs.1 (he hs.2.1 c hc) fun a ha =>
    ⟨Arm.every_of_mem h.2.2 a ha,has a ha (Arm.every_of_mem hs.2.2 a ha)⟩
  block _ hss hs := hss hs.2
  tail h hss he hs c hc := block_expr_lowers (h.1.2 hc.strict).2 (hss hs.2.1 c hc) (he hs.2.2 c hc)
  bind h he hs c hc := by
    obtain ⟨i,t,rfl,hi,ht,hg⟩ := h.1 hc.strict
    have hkeep := keep_lowers hc h.2 (he hs.2 c hc) hi ht hg (hs.1 i t rfl hi)
    exact .bind hkeep fun code => .pure fun T hcode => hcode
  assignName h he hs c hc := by
    obtain ⟨s,rfl,⟨_,i,hi,hslot⟩,ht,hn,hg⟩ := h.1 hc.strict
    have hkeep := keep_lowers hc h.2 (he hs.2 c hc) hslot ht hg (hs.1 s.type hn)
    rw [StmtLowers,stmt,Option.bind_some,hi]
    exact .bind hkeep fun code => .pure fun T hcode => hcode
  assignField h ht he hs c hc :=
    assignField_lowers hc h.2.1 h.2.2 (ht hs.2.1.2 c hc) (he hs.2.2 c hc) (h.1 hc.strict) hs.1
  assignIndex h ht hi he hs c hc := assignIndex_lowers hc h.2.1 h.2.2 (ht hs.2.1.2.1 c hc) (hi hs.2.1.2.2 c hc)
    (he hs.2.2 c hc) (h.1 hc.strict) hs.1
  assignOther {_ _ t _} _ hplace _ _ _ _ _ := by
    cases t with
    | name | field | index => cases hplace
    | _ => exact .throw _
  ret h _ _ hc := .pure fun T => .of_stops fun L _ => by
    have hnone : S.result = none := h hc.strict
    have hnil : Typed (scope G g S T) L [] [] (S.result.toList.map Ty.valType) := by
      rw [hnone]
      exact .nil
    exact Stops.ret hnil
  retValue h he hs c hc := ret_lowers hc h.2 (he hs.2 c hc) (h.1 hc.strict) hs.1
  expr _ he hs c hc := exprStmt_lowers (he hs.2 c hc)
  cond _ hch hs c hc := .bind (hch hs.2 c hc) fun o => .pure fun T ho => .of_leaves (by
    cases o with
    | none => exact fun L _ => .nil
    | some code => exact ho code rfl)
  loop h he hb hs _ hc := loop_lowers hc h.2.1 (he hs.2.1 _ (hc.inside 2)) (hb hs.2.2 _ hc.insideLoop)
    (h.1 hc.strict) hs.1
  each h he hb hs c hc := each_lowers hc h.2.1 (he hs.2.1 c hc) (hb hs.2.2 _ hc.insideLoop) (h.1 hc.strict)
  leave _ _ _ _ := by
    rw [StmtLowers,stmt]
    split
    · exact .pure fun T => jump_stops ‹_› (.inl rfl)
    · exact .throw _
  next _ _ _ _ := by
    rw [StmtLowers,stmt]
    split
    · exact .pure fun T => jump_stops ‹_› (.inr rfl)
    · exact .throw _
  nil _ _ _ := .pure fun _ => .of_leaves fun _ _ => .nil
  cons _ hx hxs hs c hc := stmts_cons_lower (hx hs.1 c hc) (hxs hs.2 c hc)
  body hss hs c hc := (hss hs c hc).weaken fun _ _ hcode => hcode.1
  stop _ _ _ := .pure fun _ => nofun
  otherwise hb hs c hc := .bind (hb hs c hc) fun code => .pure fun T hcode code' heq => by
    cases heq
    exact hcode
  branch h he hb hrest hs c hc := branch_lowers hc h.2.1 (he hs.2.1 c hc) (hb hs.2.2.1 _ (hc.inside 1))
    (hrest hs.2.2.2 _ (hc.inside 1)) (h.1 hc.strict) hs.1

end Covenant.Lower
