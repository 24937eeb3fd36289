import Covenant.Proofs.Optimizer.Program

/-! Optimised code is in a normal form: optimising it again finds nothing to do, and nothing is left in it
that could be folded. -/

namespace Covenant

open Guard (Formula)
open Typing (Site rule Gives)

theorem Tally.eq_pure_of_map {α β : Type} {f : α → β} (hf : ∀ a b, f a = f b → a = b) {m : Tally α} {a : α}
    (h : (do return f (← m)) = (pure (f a) : Tally β)) : m = pure a := by
  obtain ⟨v,s⟩ := m
  have hvalue : v = a := hf v a (congrArg Tally.value h)
  have hcount : s.add .zero = .zero := congrArg Tally.savings h
  rw [Savings.add_zero] at hcount
  rw [hvalue,hcount]
  rfl

namespace Optimize

variable {r : Prover} {n : Note} {a b e : Expr} {l : Bool}

theorem unary_cases (n : Note) (op : UnaryOp) (e : Expr) :
    (∃ v : Value, unary n op e = .folded (v.literal n.type n.pos)) ∨
      unary n op e = pure (.unary n op e) ∧ e.literal?.bind (Value.foldUnary op) = none := by
  unfold unary
  cases e.literal?.bind (Value.foldUnary op) with
  | some v => exact .inl ⟨v,rfl⟩
  | none => exact .inr ⟨rfl,rfl⟩

theorem shortCircuit_cases (n : Note) (op : BinaryOp) (a b : Expr) :
    (shortCircuit n op a b).value = a ∨ (shortCircuit n op a b).value = b ∨
      shortCircuit n op a b = pure (.binary n op a b) ∧ (op = .and ∨ op = .or → ∀ m c, a ≠ .bool m c) := by
  unfold shortCircuit
  split
  · rename_i c
    cases c <;> simp
  · rename_i c
    cases c <;> simp
  · rename_i hand hor
    refine .inr (.inr ⟨rfl,?_⟩)
    rintro (rfl | rfl) m c rfl
    · exact hand m c rfl rfl
    · exact hor m c rfl rfl

theorem binary_cases (n : Note) (op : BinaryOp) (a b : Expr) :
    (∃ v : Value, binary n op a b = .folded (v.literal n.type n.pos)) ∨
      binary n op a b = shortCircuit n op a b ∧
        ∀ v u, a.literal? = some v → b.literal? = some u → Value.foldBinary op v u = none := by
  unfold binary
  cases ha : a.literal? with
  | none => exact .inr ⟨rfl,nofun⟩
  | some v =>
    cases hb : b.literal? with
    | none => exact .inr ⟨rfl,nofun⟩
    | some u =>
      dsimp only
      cases hf : Value.foldBinary op v u with
      | some z => exact .inl ⟨z,rfl⟩
      | none =>
        refine .inr ⟨rfl,?_⟩
        rintro _ _ ⟨⟩ ⟨⟩
        exact hf

def IsKnown : Option Symbol → Prop
  | some ⟨_, _, _, .constant, _, some _⟩ => True
  | _ => False

theorem name_cases (n : Note) (x : String) (sym : Option Symbol) :
    (∃ (v : Value) (t : Ty), name n x sym = .folded (v.literal (some t) n.pos)) ∨
      name n x sym = pure (.name n x sym) ∧ ¬IsKnown sym := by
  unfold name
  split
  · exact .inl ⟨_,_,rfl⟩
  · rename_i hsym
    refine .inr ⟨rfl,fun hk => ?_⟩
    unfold IsKnown at hk
    split at hk
    · exact hsym _ _ _ _ _ rfl
    · exact hk

theorem literal_stable (r : Prover) (v : Value) (type : Option Ty) (pos : Pos) :
    expr r (v.literal type pos) = pure (v.literal type pos) := by
  cases v <;> rfl

theorem name_stable (r : Prover) (n : Note) (x : String) (sym : Option Symbol) :
    expr r (name n x sym).value = pure (name n x sym).value := by
  rcases name_cases n x sym with ⟨v,t,h⟩ | ⟨h,-⟩
  · rw [h]
    exact literal_stable r v _ _
  · rw [h]
    exact h

theorem unary_stable (op : UnaryOp) (h : expr r e = pure e) :
    expr r (unary n op e).value = pure (unary n op e).value := by
  rcases unary_cases n op e with ⟨v,hv⟩ | ⟨hv,-⟩
  · rw [hv]
    exact literal_stable r v _ _
  · rw [hv,Tally.value_pure,expr,h,pure_bind,hv]

theorem binary_stable (op : BinaryOp) (ha : expr r a = pure a) (hb : expr r b = pure b) :
    expr r (binary n op a b).value = pure (binary n op a b).value := by
  rcases binary_cases n op a b with ⟨v,hv⟩ | ⟨hv,-⟩
  · rw [hv]
    exact literal_stable r v _ _
  · rcases shortCircuit_cases n op a b with hs | hs | ⟨hs,-⟩
    · rw [hv,hs,ha]
    · rw [hv,hs,hb]
    · rw [hv,hs,Tally.value_pure,expr,ha,pure_bind,hb,pure_bind,hv,hs]

theorem stmts_append (r : Prover) (ss ts : List Stmt) :
    stmts r (ss ++ ts) = do return (← stmts r ss) ++ (← stmts r ts) := by
  induction ss with
  | nil => simp [stmts]
  | cons s ss ih => simp only [List.cons_append, stmts, ih, bind_assoc, pure_bind, List.append_assoc]

theorem stmts_singleton {s : Stmt} (h : stmt r s = pure [s]) : stmts r [s] = pure [s] := by
  simp [stmts, h]

theorem ofChain_stable (pos : Pos) {c : Chain} (h : chain r [] c = pure c) :
    stmts r (ofChain pos c) = pure (ofChain pos c) := by
  cases c with
  | stop => rfl
  | otherwise body =>
    obtain ⟨p,ss⟩ := body
    rw [chain] at h
    have hblock : block r (.mk p ss) = pure (.mk p ss) :=
      Tally.eq_pure_of_map (fun _ _ heq => Chain.otherwise.inj heq) h
    rw [block] at hblock
    exact Tally.eq_pure_of_map (fun _ _ heq => (Block.mk.inj heq).2) hblock
  | branch p e body rest =>
    refine stmts_singleton ?_
    rw [stmt,h,pure_bind]
    rfl

theorem assign_stable (p : Pos) {t : Expr} (ht : expr r t = pure t) (he : expr r e = pure e) :
    stmts r [.assign p t e] = pure [.assign p t e] := by
  refine stmts_singleton ?_
  by_cases hname : t.isName = true
  · obtain ⟨n,x,sym,rfl⟩ := Expr.eq_name_of_isName hname
    rw [stmt,he,pure_bind]
  · rw [stmt,ht,pure_bind,he,pure_bind]
    rintro n x sym rfl
    exact hname rfl

section

variable (r : Prover)

mutual

/-- Optimising an expression twice is optimising it once, and the second time nothing is counted. -/
theorem expr_stable : ∀ e : Expr, expr r (expr r e).value = pure (expr r e).value
  | .int .. | .bool .. | .text .. | .noneLit _ | .enum .. => rfl
  | .name n x sym => name_stable r n x sym
  | .unary n op e => unary_stable op (expr_stable e)
  | .binary n op a b => binary_stable op (expr_stable a) (expr_stable b)
  | .call _ _ es | .array _ es => by simp [expr, exprs_stable es]
  | .method _ e _ es _ => by simp [expr, expr_stable e, exprs_stable es]
  | .index _ a i => by simp [expr, expr_stable a, expr_stable i]
  | .field _ e _ | .wrap _ _ e => by simp [expr, expr_stable e]
  | .record _ _ fs => by simp [expr, fields_stable fs]
  | .select _ e as => by simp [expr, arms_stable as, expr_stable e]
  | .block _ ss none _ => by simp [expr, stmts_stable ss]
  | .block _ ss (some e) _ => by simp [expr, expr_stable e, stmts_stable ss]

theorem exprs_stable : ∀ es : List Expr, exprs r (exprs r es).value = pure (exprs r es).value
  | [] => rfl
  | e :: es => by simp [exprs, expr_stable e, exprs_stable es]

theorem fields_stable : ∀ fs : List FieldInit, fields r (fields r fs).value = pure (fields r fs).value
  | [] => rfl
  | .mk _ _ e :: fs => by simp [fields, expr_stable e, fields_stable fs]

theorem arms_stable : ∀ as : List Arm, arms r (arms r as).value = pure (arms r as).value
  | [] => rfl
  | .mk _ _ e :: as => by simp [arms, expr_stable e, arms_stable as]

theorem stmt_stable : ∀ s : Stmt, stmts r (stmt r s).value = pure (stmt r s).value
  | .bind _ _ _ e _ | .ret _ (some e) | .expr _ e => stmts_singleton (by rw [stmt,expr_stable e,pure_bind])
  | .assign p t e => by
    by_cases hname : t.isName = true
    · obtain ⟨n,x,sym,rfl⟩ := Expr.eq_name_of_isName hname
      exact stmts_singleton (by rw [stmt,expr_stable e,pure_bind])
    · rw [stmt_assign_value r p (by simpa using hname)]
      exact assign_stable p (expr_stable t) (expr_stable e)
  | .ret p none => rfl
  | .cond p c => ofChain_stable p (chain_stable [] c)
  | .loop p e b => by
    rw [stmt_loop_value]
    split
    · rfl
    · rename_i hnever
      refine stmts_singleton ?_
      rw [stmt,expr_stable e,pure_bind,if_neg hnever,block_stable b,pure_bind]
  | .each p x e b slot => stmts_singleton (by rw [stmt,expr_stable e,pure_bind,block_stable b,pure_bind])
  | .leave _ | .next _ => rfl

theorem stmts_stable : ∀ ss : List Stmt, stmts r (stmts r ss).value = pure (stmts r ss).value
  | [] => rfl
  | s :: ss => by simp [stmts, stmts_append, stmt_stable s, stmts_stable ss]

theorem block_stable : ∀ b : Block, block r (block r b).value = pure (block r b).value
  | .mk _ ss => by simp [block, stmts_stable ss]

/-- The facts at a branch that stays are those of the branches that stay before it, so the second pass
meets each guard with the facts of the first. -/
theorem chain_stable :
    ∀ (facts : List Formula) (c : Chain), chain r facts (chain r facts c).value = pure (chain r facts c).value
  | _, .stop => rfl
  | _, .otherwise b => by simp [chain, block_stable b]
  | facts, .branch p e b rest => by
    rw [chain_branch_value]
    split
    · exact chain_stable facts rest
    · rename_i hnever
      split
      · rw [chain,block_stable b,pure_bind]
      · rename_i halways
        rw [chain,expr_stable e,pure_bind,if_neg hnever,block_stable b,pure_bind,if_neg halways,
          chain_stable _ rest,pure_bind]

end

end

def reduced : Rule where
  expr
    | .name _ _ sym => ¬IsKnown sym
    | .unary _ op e => e.literal?.bind (Value.foldUnary op) = none
    | .binary _ op a b =>
      (∀ v u, a.literal? = some v → b.literal? = some u → Value.foldBinary op v u = none) ∧
        (op = .and ∨ op = .or → ∀ m c, a ≠ .bool m c)
    | _ => True
  stmt _ _ := True
  guard e := ∀ m c, e ≠ .bool m c

theorem literal_reduced (v : Value) (type : Option Ty) (pos : Pos) : (v.literal type pos).Every reduced l := by
  cases v <;> exact trivial

theorem unary_reduced (n : Note) (op : UnaryOp) (h : e.Every reduced l) :
    (unary n op e).value.Every reduced l := by
  rcases unary_cases n op e with ⟨v,hv⟩ | ⟨hv,hfold⟩
  · rw [hv]
    exact literal_reduced v _ _
  · rw [hv]
    exact ⟨hfold,h⟩

theorem binary_reduced (n : Note) (op : BinaryOp) (ha : a.Every reduced l) (hb : b.Every reduced l) :
    (binary n op a b).value.Every reduced l := by
  rcases binary_cases n op a b with ⟨v,hv⟩ | ⟨hv,hfold⟩
  · rw [hv]
    exact literal_reduced v _ _
  · rcases shortCircuit_cases n op a b with hs | hs | ⟨hs,hleft⟩
    · rw [hv,hs]
      exact ha
    · rw [hv,hs]
      exact hb
    · rw [hv,hs]
      exact ⟨⟨hfold,hleft⟩,ha,hb⟩

theorem name_reduced (n : Note) (x : String) (sym : Option Symbol) :
    (name n x sym).value.Every reduced l := by
  rcases name_cases n x sym with ⟨v,t,hv⟩ | ⟨hv,hsym⟩
  · rw [hv]
    exact literal_reduced v _ _
  · rw [hv]
    exact hsym

theorem ofChain_reduced (pos : Pos) {c : Chain} (h : c.Every reduced l) :
    Stmt.EveryIn reduced l (ofChain pos c) := by
  cases c with
  | stop => trivial
  | otherwise b =>
    cases b
    exact h
  | branch p e b rest => exact ⟨⟨trivial,h⟩,trivial⟩

theorem ne_bool_of_undecided {facts : List Formula} (hnever : ¬neverTrue r facts e = true)
    (halways : ¬alwaysTrue r facts e = true) (m : Note) (c : Bool) : e ≠ .bool m c := by
  rintro rfl
  cases c with
  | false => exact hnever rfl
  | true => exact halways rfl

section

variable (r : Prover)

mutual

theorem expr_reduced (l : Bool) : ∀ e : Expr, (expr r e).value.Every reduced l
  | .int .. | .bool .. | .text .. | .noneLit _ | .enum .. => trivial
  | .name n x sym => name_reduced n x sym
  | .unary n op e => unary_reduced n op (expr_reduced l e)
  | .binary n op a b => binary_reduced n op (expr_reduced l a) (expr_reduced l b)
  | .call _ _ es | .array _ es => ⟨trivial,exprs_reduced l es⟩
  | .method _ e _ args _ => ⟨trivial,expr_reduced l e,exprs_reduced l args⟩
  | .index _ t i => ⟨trivial,expr_reduced l t,expr_reduced l i⟩
  | .field _ e _ | .wrap _ _ e => ⟨trivial,expr_reduced l e⟩
  | .record _ _ fs => ⟨trivial,fields_reduced l fs⟩
  | .select _ e as => ⟨trivial,expr_reduced l e,arms_reduced l as⟩
  | .block _ ss none _ => ⟨trivial,stmts_reduced l ss⟩
  | .block _ ss (some e) _ => ⟨trivial,stmts_reduced l ss,expr_reduced l e⟩

theorem exprs_reduced (l : Bool) : ∀ es : List Expr, Expr.EveryIn reduced l (exprs r es).value
  | [] => trivial
  | e :: es => ⟨expr_reduced l e,exprs_reduced l es⟩

theorem fields_reduced (l : Bool) :
    ∀ fs : List FieldInit, FieldInit.EveryIn reduced l (fields r fs).value
  | [] => trivial
  | .mk _ _ e :: fs => ⟨expr_reduced l e,fields_reduced l fs⟩

theorem arms_reduced (l : Bool) : ∀ as : List Arm, Arm.EveryIn reduced l (arms r as).value
  | [] => trivial
  | .mk _ _ e :: as => ⟨expr_reduced l e,arms_reduced l as⟩

theorem stmt_reduced (l : Bool) : ∀ s : Stmt, Stmt.EveryIn reduced l (stmt r s).value
  | .bind _ _ _ e _ | .ret _ (some e) | .expr _ e => ⟨⟨trivial,expr_reduced l e⟩,trivial⟩
  | .assign p t e => by
    by_cases hname : t.isName = true
    · obtain ⟨n,x,sym,rfl⟩ := Expr.eq_name_of_isName hname
      exact ⟨⟨trivial,expr_reduced l e⟩,trivial⟩
    · rw [stmt_assign_value r p (by simpa using hname)]
      refine ⟨?_,trivial⟩
      by_cases hname' : (expr r t).value.isName = true
      · obtain ⟨n,x,sym,hx⟩ := Expr.eq_name_of_isName hname'
        rw [hx]
        exact ⟨trivial,expr_reduced l e⟩
      · exact (Stmt.every_assign (by simpa using hname')).mpr ⟨trivial,expr_reduced l t,expr_reduced l e⟩
  | .ret _ none | .leave _ | .next _ => ⟨trivial,trivial⟩
  | .cond p c => ofChain_reduced p (chain_reduced l [] c)
  | .loop p e b => by
    rw [stmt_loop_value]
    split
    · trivial
    · exact ⟨⟨trivial,expr_reduced l e,block_reduced true b⟩,trivial⟩
  | .each _ _ e b _ => ⟨⟨trivial,expr_reduced l e,block_reduced true b⟩,trivial⟩

theorem stmts_reduced (l : Bool) : ∀ ss : List Stmt, Stmt.EveryIn reduced l (stmts r ss).value
  | [] => trivial
  | s :: ss => (Stmt.everyIn_append _ _ _ _).mpr ⟨stmt_reduced l s,stmts_reduced l ss⟩

theorem block_reduced (l : Bool) : ∀ b : Block, (block r b).value.Every reduced l
  | .mk _ ss => stmts_reduced l ss

theorem chain_reduced (l : Bool) :
    ∀ (facts : List Formula) (c : Chain), (chain r facts c).value.Every reduced l
  | _, .stop => trivial
  | _, .otherwise b => block_reduced l b
  | facts, .branch p e b rest => by
    rw [chain_branch_value]
    split
    · exact chain_reduced l facts rest
    · rename_i hnever
      split
      · exact block_reduced l b
      · rename_i halways
        exact ⟨ne_bool_of_undecided hnever halways,expr_reduced l e,block_reduced l b,chain_reduced l _ rest⟩

end

end

/-- The normal form: no name of a constant, neither to be read nor to be written to, no operator that can
be folded, no literal on the left of `&&` or `||`, and no literal guard of an `if`. -/
def normal : Rule where
  expr
    | .name _ _ sym => ∀ s, sym = some s → s.kind ≠ .constant
    | .unary _ op e => ∀ v, e.literal? = some v → Value.foldUnary op v = none
    | .binary _ op a b =>
      (∀ v u, a.literal? = some v → b.literal? = some u → Value.foldBinary op v u = none) ∧
        (op = .and ∨ op = .or → a.literal? = none)
    | _ => True
  stmt _ x := ∀ p n y s e, x = .assign p (.name n y (some s)) e → s.kind ≠ .constant
  guard e := e.literal? = none

theorem literal?_of_gives {S : Site} (hs : S.strict) (he : (rule S).expr e) (hg : Gives e .boolean)
    (h : ∀ m c, e ≠ .bool m c) : e.literal? = none := by
  obtain ⟨t,ht,-,hfit⟩ := hg
  cases e with
  | int n v =>
    obtain ⟨u,hu,hnum⟩ := (he.2 hs).2
    cases hu.symm.trans ht
    cases t <;> first | (cases hfit; done) | cases hnum
  | text n v =>
    cases (he.2 hs).2.symm.trans ht
    cases hfit
  | bool n c => exact absurd rfl (h n c)
  | _ => rfl

def both (S : Site) : Rule where
  expr e := (rule S).expr e ∧ reduced.expr e
  stmt l x := (rule S).stmt l x ∧ reduced.stmt l x
  guard e := (rule S).guard e ∧ reduced.guard e

theorem both_join (S : Site) : (rule S).Join reduced (both S) :=
  ⟨fun _ h h' => ⟨h,h'⟩,fun _ _ h h' => ⟨h,h'⟩,fun _ h h' => ⟨h,h'⟩⟩

theorem name_normal {S : Site} (hs : S.strict) {n : Note} {x : String} {sym : Option Symbol}
    (h : (both S).expr (.name n x sym)) : normal.expr (.name n x sym) := by
  obtain ⟨⟨⟨s,rfl,-,hsym⟩,-⟩,hred⟩ := h
  rintro _ ⟨⟩
  rcases hsym with hvar | hconst
  · exact hvar.1
  · obtain ⟨y,t,free,kind,slot,value⟩ := s
    obtain ⟨rfl,-,-,-,hvalue⟩ := hconst
    obtain ⟨v,rfl,-⟩ := hvalue hs
    exact absurd trivial hred

theorem binary_normal {S : Site} (hs : S.strict) {n : Note} {op : BinaryOp}
    (h : (Expr.binary n op a b).Every (both S) l) : normal.expr (.binary n op a b) := by
  obtain ⟨⟨hrule,hfold,hleft⟩,ha,hb⟩ := h
  refine ⟨hfold,fun hop => ?_⟩
  obtain ⟨s,t,u,hsa,htb,htype,-⟩ := (hrule.2 hs).2
  have herr {e : Expr} {t : Ty} (he : e.Every (both S) l) (ht : e.type = some t) : t ≠ .error := by
    obtain ⟨t',ht',hsolid⟩ := (he.head.1.2 hs).1
    cases ht.symm.trans ht'
    rcases hsolid with rfl | hsolid
    · simp
    · exact Ty.ne_error_of_isSolid hsolid
  have htakes := BinaryOp.takes_of_type? htype (herr ha hsa) (herr hb htb)
  have hbool : s = .boolean := by rcases hop with rfl | rfl <;> exact htakes.1
  exact literal?_of_gives hs ha.head.1 ⟨.boolean,hbool ▸ hsa,by simp,rfl⟩ (hleft hop)

theorem both_entails {S : Site} (hs : S.strict) : (both S).Entails normal where
  expr {e l} h := by
    cases e with
    | name n x sym => exact name_normal hs h
    | unary n op a =>
      intro v hv
      have hfold : a.literal?.bind (Value.foldUnary op) = none := h.1.2
      simpa [hv] using hfold
    | binary n op a b => exact binary_normal hs h
    | _ => trivial
  stmt {x l} h := by
    rintro p n y s e rfl
    obtain ⟨_,⟨⟩,hvar,-⟩ := h.1.1 hs
    exact hvar.1
  guard h he := literal?_of_gives hs he.head.1 (h.1 hs) h.2

end Optimize

open Optimize

namespace Program

theorem mapM_eq_pure {α : Type} {f : α → Tally α} {xs : List α} (h : ∀ x ∈ xs, f x = pure x) :
    xs.mapM f = pure xs := by
  induction xs with
  | nil => rfl
  | cons x xs ih =>
    have hcons := List.forall_mem_cons.mp h
    rw [List.mapM_cons,hcons.1,pure_bind,ih hcons.2,pure_bind]

theorem item_stable (r : Prover) (i : Item) : item r (item r i).value = pure (item r i).value := by
  cases i with
  | function d =>
    show Item.function <$> function r (function r d).value = pure (.function (function r d).value)
    have hfunction : function r (function r d).value = pure (function r d).value := by
      show (do
        let body ← block r (block r d.body).value
        return { d with body }) = pure { d with body := (block r d.body).value }
      rw [block_stable,pure_bind]
    rw [hfunction,map_pure]
  | _ => rfl

theorem optimizeWith_stable (r : Prover) (p : Program) :
    (p.optimizeWith r).value.optimizeWith r = pure (p.optimizeWith r).value := by
  have hitems : (p.items.mapM (item r)).value.mapM (item r) = pure (p.items.mapM (item r)).value := by
    refine mapM_eq_pure fun i hi => ?_
    rw [items_optimizeWith] at hi
    obtain ⟨j,-,rfl⟩ := List.mem_map.mp hi
    exact item_stable r j
  show (do
    let items ← (p.items.mapM (item r)).value.mapM (item r)
    return { p with items }) = pure { p with items := (p.items.mapM (item r)).value }
  rw [hitems,pure_bind]

/-- Optimising an accepted program twice gives what optimising it once gives, with nothing folded and
nothing removed the second time, whatever the prover refutes; and every function is in normal form. -/
theorem optimize_reaches_normal_form (r : Prover) (policy : Policy) (p : Program) (hwritten : p.Written)
    (haccepted : (p.check policy).accepted = true) :
    let once := ((p.check policy).program.optimizeWith r).value
    (once.optimizeWith r).value = once ∧ (once.optimizeWith r).savings = ⟨0, 0⟩ ∧
      ∀ d ∈ once.functions, d.body.Every normal false := by
  obtain ⟨htyped,-⟩ := Program.check_typed haccepted
  have hstable := optimizeWith_stable r (p.check policy).program
  refine ⟨by rw [hstable,Tally.value_pure],by rw [hstable]; rfl,fun d hd => ?_⟩
  rw [functions_optimizeWith] at hd
  obtain ⟨f,hf,rfl⟩ := List.mem_map.mp hd
  have hkept := block_kept r f.body false (htyped.functions f hf).body
  exact (hkept.join (both_join _) (block_reduced r false f.body)).entail (both_entails hwritten)

end Program

/-- Two foldable guards, the first of which fails and the second of which holds, inside a loop. -/
def nested : Program :=
  let pos : Pos := .unknown
  let note : Note := ⟨pos, none⟩
  let limit : Expr := .name note "LIMIT" none
  let x : Expr := .name note "x" none
  let answer (e : Expr) : Block := .mk pos [.ret pos (some e)]
  ⟨pos, [.constant ⟨pos, "LIMIT", .integer, .int note 5⟩,
    .function ⟨pos, "run", [⟨pos, "x", .integer⟩], some .integer, .mk pos
      [.loop pos (.binary note .and (.bool note true) (.binary note .lt x limit)) (.mk pos
        [.cond pos (.branch pos (.binary note .gt limit (.int note 9)) (answer x)
          (.branch pos (.binary note .eq limit (.int note 5)) (answer (.binary note .add x (.unary note .neg limit)))
            .stop))]),
        .ret pos (some (.binary note .div limit (.int note 0)))], []⟩], none⟩

theorem nested_written : nested.Written where
  functions := by
    rintro f (_ | ⟨_,⟨⟩⟩)
    exact ⟨⟨by decide,by decide⟩,
      by simp [Block.Every, Stmt.EveryIn, Stmt.Every, Chain.Every, Expr.Every, written]⟩
  records := by rintro r ⟨⟩
  constants := by
    rintro c (_ | ⟨_,⟨⟩⟩)
    exact ⟨rfl,trivial⟩

theorem optimize_reaches_normal_form_nested :
    let once := ((nested.check .warn).program.optimizeWith idle).value
    (nested.check .warn).accepted = true ∧
      ((nested.check .warn).program.optimizeWith idle).savings = ⟨9, 1⟩ ∧
      (once.optimizeWith idle).value = once ∧ ∀ d ∈ once.functions, d.body.Every normal false := by
  obtain ⟨hvalue,-,hnormal⟩ := Program.optimize_reaches_normal_form idle .warn nested nested_written (by decide)
  exact ⟨by decide,by decide,hvalue,hnormal⟩

end Covenant
