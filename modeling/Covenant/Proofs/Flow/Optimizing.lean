import Covenant.Proofs.Flow.Basic
import Covenant.Proofs.Optimizer.Typed

/-! Optimising takes ways of going on away and adds none, whatever a prover says: a branch or loop is
removed only where its guard may fail, and a guard only where it has no way out of its own. -/

namespace Covenant.Optimize

open Covenant.Flow (andThen_mono choice_mono)

variable {r : Prover} {k : Exit}

theorem mayBe_total (e : Expr) : e.mayBe true ∨ e.mayBe false := by
  cases e with
  | bool n b => cases b <;> simp [Expr.mayBe]
  | _ => exact .inl trivial

theorem flow_literal (v : Value) (type : Option Ty) (pos : Pos) :
    (v.literal type pos).flow = .only .done := by
  cases v <;> rfl

variable {e a b : Expr}

theorem flow_of_literal? {v : Value} (h : e.literal? = some v) : e.flow = .only .done := by
  cases e <;> first | rfl | cases h

variable {op : BinaryOp} {n : Note}

theorem binary_done (ha : a.flow .done) (hb : b.flow .done) :
    (Expr.binary n op a b).flow .done := by
  by_cases hand : op = .and
  · rw [hand]
    exact .inr ⟨ha,(mayBe_total a).imp (fun h => ⟨h,hb⟩) fun h => ⟨h,rfl⟩⟩
  · by_cases hor : op = .or
    · rw [hor]
      exact .inr ⟨ha,(mayBe_total a).imp (fun h => ⟨h,rfl⟩) fun h => ⟨h,hb⟩⟩
    · rw [Expr.flow_strict hand hor]
      exact .inr ⟨ha,hb⟩

theorem flow_ofExpr? : ∀ (e : Expr) (m : Guard.Meaning), Guard.Meaning.ofExpr? e = some m → e.flow .done
  | .int _ _, _, _ | .bool _ _, _, _ | .enum _ _ _ _, _, _ | .name _ _ _, _, _ => rfl
  | .unary _ _ e, _, h => by
    rw [Guard.Meaning.ofExpr?] at h
    cases he : Guard.Meaning.ofExpr? e with
    | none => simp [he] at h
    | some m => exact flow_ofExpr? e m he
  | .binary _ _ a b, _, h => by
    rw [Guard.Meaning.ofExpr?] at h
    cases ha : Guard.Meaning.ofExpr? a with
    | none => simp [ha] at h
    | some x =>
      cases hb : Guard.Meaning.ofExpr? b with
      | none => simp [ha, hb] at h
      | some y => exact binary_done (flow_ofExpr? a x ha) (flow_ofExpr? b y hb)
  | .text _ _, _, h | .call _ _ _, _, h | .method _ _ _ _ _, _, h | .array _ _, _, h
  | .index _ _ _, _, h | .field _ _ _, _, h | .record _ _ _, _, h | .wrap _ _ _, _, h | .noneLit _, _, h
  | .select _ _ _, _, h | .block _ _ _ _, _, h => by cases h

theorem flow_of_formula? {f : Guard.Formula} (h : Guard.formula? e = some f) : e.flow .done := by
  unfold Guard.formula? at h
  split at h
  · rename_i hm
    exact flow_ofExpr? e _ hm
  · cases h

theorem flow_of_decided {v : Bool}
    (h : (∃ n, e = .bool n v) ∨ (∀ n b, e ≠ .bool n b) ∧ ∃ f, Guard.formula? e = some f) :
    e.mayBe v ∧ e.flow .done := by
  rcases h with ⟨n,rfl⟩ | ⟨hlit,f,hf⟩
  · exact ⟨rfl,rfl⟩
  · refine ⟨?_,flow_of_formula? hf⟩
    cases e with
    | bool n b => exact absurd rfl (hlit n b)
    | _ => trivial

theorem flow_of_neverTrue {facts : List Guard.Formula} (h : neverTrue r facts e = true) :
    e.mayBe false ∧ e.flow .done := by
  refine flow_of_decided ?_
  unfold neverTrue at h
  split at h
  · rename_i n b
    exact .inl ⟨n,by simpa using h⟩
  · split at h
    · exact .inr ⟨‹_›,_,‹_›⟩
    · cases h

theorem flow_of_alwaysTrue {facts : List Guard.Formula} (h : alwaysTrue r facts e = true) :
    e.mayBe true ∧ e.flow .done := by
  refine flow_of_decided ?_
  unfold alwaysTrue at h
  split at h
  · rename_i n b
    exact .inl ⟨n,by simpa using h⟩
  · split at h
    · exact .inr ⟨‹_›,_,‹_›⟩
    · cases h

theorem unary_flow {n : Note} {op : UnaryOp} (h : (unary n op e).value.flow k) : e.flow k := by
  unfold unary at h
  split at h
  · rename_i hv
    rw [Tally.value_folded,flow_literal] at h
    obtain ⟨a,ha,-⟩ := Option.bind_eq_some_iff.mp hv
    rw [flow_of_literal? ha]
    exact h
  · exact h

theorem shortCircuit_flow
    (h : (shortCircuit n op a b).value.flow k) : (Expr.binary n op a b).flow k := by
  unfold shortCircuit at h
  split at h
  · rename_i x
    cases x
    · exact .inr ⟨rfl,.inr ⟨rfl,h⟩⟩
    · exact .inr ⟨rfl,.inl ⟨rfl,h⟩⟩
  · rename_i x
    cases x
    · exact .inr ⟨rfl,.inr ⟨rfl,h⟩⟩
    · exact .inr ⟨rfl,.inl ⟨rfl,h⟩⟩
  · exact h

theorem binary_flow (h : (binary n op a b).value.flow k) : (Expr.binary n op a b).flow k := by
  unfold binary at h
  split at h
  · rename_i x y hx hy
    split at h
    · rw [Tally.value_folded,flow_literal] at h
      cases h
      refine binary_done ?_ ?_
      · rw [flow_of_literal? hx]
        rfl
      · rw [flow_of_literal? hy]
        rfl
    · exact shortCircuit_flow h
  · exact shortCircuit_flow h

theorem binary_mono {a' b' : Expr} (ha : ∀ k, a'.flow k → a.flow k)
    (hb : ∀ k, b'.flow k → b.flow k) (hmay : ∀ v, a'.mayBe v → a.mayBe v)
    (h : (Expr.binary n op a' b').flow k) : (Expr.binary n op a b).flow k := by
  by_cases hand : op = .and
  · rw [hand] at h ⊢
    exact andThen_mono ha (fun _ => choice_mono (hmay _) (hmay _) hb fun _ => id) h
  · by_cases hor : op = .or
    · rw [hor] at h ⊢
      exact andThen_mono ha (fun _ => choice_mono (hmay _) (hmay _) (fun _ => id) hb) h
    · rw [Expr.flow_strict hand hor] at h ⊢
      exact andThen_mono ha hb h

theorem name_flow {x : String} {sym : Option Symbol} (h : (name n x sym).value.flow k) : k = .done := by
  unfold name at h
  split at h
  · rw [Tally.value_folded,flow_literal] at h
    exact h
  · exact h

theorem expr_mayBe {v : Bool} (h : (expr r e).value.mayBe v) : e.mayBe v := by
  cases e with
  | bool n b => exact h
  | _ => trivial

theorem flow_ofChain (pos : Pos) (c : Chain) : Stmt.flowIn (ofChain pos c) = c.flow := by
  cases c with
  | stop => rfl
  | otherwise b =>
    cases b
    rfl
  | branch => exact Stmt.flowIn_singleton _

theorem stmt_flow {x : Stmt} (h : Stmt.flowIn [x] k) : x.flow k := (congrFun (Stmt.flowIn_singleton x) k).mp h

theorem exprs_flow {es : List Expr} (h : ∀ e ∈ es, ∀ k, (expr r e).value.flow k → e.flow k) :
    ∀ k, Expr.flowIn (exprs r es).value k → Expr.flowIn es k :=
  parts_walk es h (fun _ => id) fun _ _ he hes _ => andThen_mono he hes

/-- Control goes nowhere in the optimised code where it would not go before. -/
theorem flow_walk (r : Prover) : Walk .any (fun _ e => ∀ k, (expr r e).value.flow k → e.flow k)
    (fun _ x => ∀ k, Stmt.flowIn (stmt r x).value k → x.flow k)
    (fun _ xs => ∀ k, Stmt.flowIn (stmts r xs).value k → Stmt.flowIn xs k)
    (fun _ b => ∀ k, (block r b).value.flow k → b.flow k)
    (fun _ c => ∀ facts k, (chain r facts c).value.flow k → c.flow k) where
  int _ _ := id
  bool _ _ := id
  text _ _ := id
  name _ _ := name_flow
  unary _ he k h := he k (unary_flow h)
  binary _ ha hb _ h := binary_mono ha hb (fun _ => expr_mayBe) (binary_flow h)
  call _ hes := exprs_flow hes
  method _ he hes _ := andThen_mono he (exprs_flow hes)
  array _ hes := exprs_flow hes
  index _ ha hi _ := andThen_mono ha hi
  field _ he := he
  record {_ _ _ fs} _ hfs := by
    have hfields : ∀ k, FieldInit.flowIn (fields r fs).value k → FieldInit.flowIn fs k :=
      parts_walk fs hfs (fun _ => id) fun (.mk ..) _ hf hfs _ => andThen_mono hf hfs
    exact hfields
  wrap _ he := he
  noneLit _ _ := id
  enum _ _ := id
  select {_ _ _ as} _ he has _ := by
    have harms : ∀ k, Arm.flowOf (arms r as).value k → Arm.flowOf as k :=
      parts_walk as has (fun _ => id) fun (.mk ..) _ ha has k => Or.imp (ha k) (has k)
    exact andThen_mono he harms
  block _ hss := hss
  tail _ hss he _ := andThen_mono hss he
  bind _ he k h := he k (stmt_flow h)
  assignName _ he _ h := andThen_mono (fun _ => id) he (stmt_flow h)
  assignField _ ht he _ h := andThen_mono ht he (stmt_flow h)
  assignIndex _ ht hi he _ h := andThen_mono (fun _ => andThen_mono ht hi) he (stmt_flow h)
  assignOther {_ p t _} _ hplace ht he k h := by
    rw [stmt_assign_value r p (by cases t <;> first | rfl | cases hplace),Stmt.flowIn_singleton] at h
    exact andThen_mono ht he h
  ret _ _ := stmt_flow
  retValue _ he _ h := andThen_mono he (fun _ => id) (stmt_flow h)
  expr _ he k h := he k (stmt_flow h)
  cond {_ p c} _ hc k h := hc [] k ((congrFun (flow_ofChain p _) k).mp h)
  loop _ he hb k h := by
    rw [stmt_loop_value] at h
    split at h
    · rename_i hnever
      obtain ⟨hfail,hdone⟩ := flow_of_neverTrue hnever
      cases h
      exact .stop (he _ hdone) (expr_mayBe hfail)
    · exact Flow.Rounds.mono expr_mayBe expr_mayBe he hb (stmt_flow h)
  each _ he hb _ h := andThen_mono he (fun _ => .mono id id (fun _ => id) hb) (stmt_flow h)
  leave _ _ := stmt_flow
  next _ _ := stmt_flow
  nil _ := id
  cons _ hs hss k h := andThen_mono hs hss ((congrFun (Stmt.flowIn_append _ _) k).mp h)
  body hss := hss
  stop _ _ := id
  otherwise hb _ := hb
  branch _ he hb hc _ k h := by
    rw [chain_branch_value] at h
    split at h
    · rename_i hnever
      obtain ⟨hfail,hdone⟩ := flow_of_neverTrue hnever
      exact .inr ⟨he _ hdone,.inr ⟨expr_mayBe hfail,hc _ k h⟩⟩
    · split at h
      · rename_i halways
        obtain ⟨hholds,hdone⟩ := flow_of_alwaysTrue halways
        exact .inr ⟨he _ hdone,.inl ⟨expr_mayBe hholds,hb k h⟩⟩
      · exact andThen_mono he (fun _ => choice_mono expr_mayBe expr_mayBe hb (hc _)) h

theorem block_flow (r : Prover) (b : Block) : ∀ k, (block r b).value.flow k → b.flow k :=
  (flow_walk r).onBlock b (b.every_any false)

end Covenant.Optimize
