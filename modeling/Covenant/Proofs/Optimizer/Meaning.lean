import Covenant.Proofs.Meaning.Folding
import Covenant.Proofs.Optimizer.Guards
import Covenant.Proofs.Optimizer.Typed

/-! Optimising keeps the meaning of code. Folding is exact because literals and constants fit a word. A
branch goes only if its guard has a formula, so that nothing is lost with it. -/

namespace Covenant

def chains : Gather Chain where
  stmt
    | .cond _ c => [c]
    | _ => []

abbrev Expr.chains (e : Expr) : List Chain := e.gather Covenant.chains

/-- The `if` statements inside a body. -/
abbrev Block.chains (b : Block) : List Chain := b.gather Covenant.chains

/-- The code of an `if` obeys a rule, inside a loop or outside of one. -/
def Chain.Obeys (R : Rule) (c : Chain) : Prop := ∃ l, c.Every R l

theorem chains_obey {R : Rule} {l : Bool} {s : Stmt} (h : s.Every R l) : AllIn (Chain.Obeys R) (chains.stmt s) := by
  cases s with
  | cond => exact List.forall_mem_singleton.mpr ⟨l,h.2⟩
  | _ => exact nofun

namespace Meaning

variable {α : Type} {w : World}

def pick (w : World) (k : Option Block → Eval α) : Chain → Eval α
  | .stop => k none
  | .otherwise b => k (some b)
  | .branch _ e b rest => do
    if ← truth (expr w e) then k (some b) else pick w k rest

def runBody (w : World) : Option Block → Eval Unit
  | none => pure ()
  | some b => block w b

theorem chain_eq_pick (w : World) (c : Chain) : chain w c = pick w (runBody w) c := by
  cases c with
  | stop | otherwise => rfl
  | branch _ e b rest =>
    exact congrArg (fun x => truth (expr w e) >>= fun c => if c = true then block w b else x)
      (chain_eq_pick w rest)

theorem stmts_singleton (w : World) (s : Stmt) : stmts w [s] = stmt w s :=
  Eval.andThen_pure _

theorem stmts_append (w : World) (ss ts : List Stmt) :
    stmts w (ss ++ ts) = stmts w ss >>= fun _ => stmts w ts := by
  induction ss with
  | nil => rfl
  | cons s ss ih =>
    show (stmt w s >>= fun _ => stmts w (ss ++ ts)) = (stmt w s >>= fun _ => stmts w ss) >>= _
    rw [ih,bind_assoc]

theorem whileLoop_of_false {test : Eval Bool} (h : ∀ s, test s = .done false s) (body : Eval Unit)
    (n : Nat) : whileLoop test body n = pure () := by
  funext s
  cases n <;> rw [whileLoop,Eval.bind_apply,Eval.andThen,h] <;> rfl

end Meaning

namespace Optimize

open Guard (Formula)
open Meaning (World State Eval Val Outcome pick runBody)
open Typing (Site rule)

variable {α : Type} {r : Prover} {w : World} {S : Site} {l : Bool}

def asks (r : Prover) : Chain → Bool
  | .branch _ e _ rest => (Guard.formula? (expr r e).value).isSome || asks r rest
  | _ => false

/-- The guards of a chain that have no formula leave alone what earlier guards have told, as far as
later ones still make use of it. -/
def Steady (r : Prover) : List Formula → Chain → Prop
  | facts, .branch _ e _ rest =>
    if neverTrue r facts (expr r e).value then Steady r facts rest
    else if alwaysTrue r facts (expr r e).value then True
    else
      (Guard.formula? (expr r e).value = none → asks r rest = true →
        ∀ f ∈ facts, ∀ i ∈ f.slots, (expr r e).value.Every (untouched i) false) ∧
      Steady r (failedGuard facts (expr r e).value) rest
  | _, _ => True

variable {facts : List Formula} {e : Expr} {v : Value}

theorem formula?_of_neverTrue (h : neverTrue r facts e = true) :
    (Guard.formula? e).isSome = true := by
  unfold neverTrue at h
  split at h
  · rfl
  · split at h
    · rename_i hf
      rw [hf]
      rfl
    · cases h

theorem formula?_of_alwaysTrue (h : alwaysTrue r facts e = true) :
    (Guard.formula? e).isSome = true := by
  unfold alwaysTrue at h
  split at h
  · rfl
  · split at h
    · rename_i hf
      rw [hf]
      rfl
    · cases h

theorem holds_failedGuard {g : Expr} {s t : State} {more : Bool}
    (hw : w.types = S.slots) (hapart : w.Apart) (hg : g.Every (rule S) l)
    (hsteady : Guard.formula? g = none → more = true →
      ∀ f ∈ facts, ∀ i ∈ f.slots, g.Every (untouched i) false)
    (hs : ((Guard.formula? g).isSome || more) = true → Holds facts s)
    (hrun : Meaning.truth (Meaning.expr w g) s = .done false t) (hmore : more = true) :
    Holds (failedGuard facts g) t := by
  unfold failedGuard
  cases hf : Guard.formula? g with
  | some f =>
    rw [Meaning.truth_formula? hw hg hf] at hrun
    obtain ⟨hfalse,rfl⟩ := Outcome.done.inj hrun
    have hfacts := hs (by simp [hf])
    simpa [Holds, Formula.eval, hfalse] using hfacts
  | none =>
    have hfacts := hs (by simp [hmore])
    refine hfacts.of_plain fun f hfm i hi => ?_
    have hholds := (Meaning.expr_holds hapart (hsteady hf hmore f hfm i hi)).truth s
    rw [hrun] at hholds
    exact hholds.1

/-- What a prover may use before a chain: the facts hold, unless no guard asks for them. -/
def Ready (r : Prover) (facts : List Formula) (c : Chain) (s : State) : Prop :=
  ¬ r.Idle → Steady r facts c ∧ (asks r c = true → Holds facts s)

theorem pick_branch {k k' : Option Block → Eval α} {p : Pos} {b : Block} {rest : Chain}
    (hr : r.Sound) (hw : w.types = S.slots) (hapart : w.Apart)
    (hg : (expr r e).value.Every (rule S) l)
    (he : Meaning.expr w (expr r e).value = Meaning.expr w e)
    (hb : k' (some (block r b).value) = k (some b))
    (hrest : ∀ facts s, Ready r facts rest s →
      pick w k' (chain r facts rest).value s = pick w k rest s)
    (facts : List Formula) (s : State) (hs : Ready r facts (.branch p e b rest) s) :
    pick w k' (chain r facts (.branch p e b rest)).value s = pick w k (.branch p e b rest) s := by
  -- the two sides run the same guard, and differ in what follows
  have hright : pick w k (.branch p e b rest) s = (Meaning.truth (Meaning.expr w (expr r e).value) >>=
      fun c => if c = true then k (some b) else pick w k rest) s := by
    rw [he]
    rfl
  have hholds (h : (Guard.formula? (expr r e).value).isSome = true) :
      ¬ r.Idle → Holds facts s := fun hr => (hs hr).2 (by simp [asks, h])
  rw [chain_branch_value,hright]
  by_cases hnever : neverTrue r facts (expr r e).value = true
  · rw [if_pos hnever]
    have hfalse := truth_of_neverTrue hr hw hg (hholds (formula?_of_neverTrue hnever)) hnever
    rw [Eval.bind_apply,Eval.andThen,hfalse]
    refine hrest facts s fun hi => ⟨?_,fun ha => (hs hi).2 (by simp [asks, ha])⟩
    have hsteady := (hs hi).1
    rwa [Steady,if_pos hnever] at hsteady
  · rw [if_neg hnever]
    by_cases halways : alwaysTrue r facts (expr r e).value = true
    · rw [if_pos halways]
      have htrue := truth_of_alwaysTrue hr hw hg (hholds (formula?_of_alwaysTrue halways)) halways
      rw [Eval.bind_apply,Eval.andThen,htrue]
      exact congrFun hb s
    · rw [if_neg halways]
      show (Meaning.truth (Meaning.expr w (expr r e).value) >>= fun c =>
        if c = true then k' _ else pick w k' _) s = _
      rw [Eval.bind_apply,Eval.bind_apply,Eval.andThen,Eval.andThen]
      cases hrun : Meaning.truth (Meaning.expr w (expr r e).value) s with
      | done c t =>
        cases c with
        | true => exact congrFun hb t
        | false =>
          refine hrest _ t fun hi => ?_
          have hsteady := (hs hi).1
          rw [Steady,if_neg hnever,if_neg halways] at hsteady
          refine ⟨hsteady.2,fun ha => ?_⟩
          exact holds_failedGuard hw hapart hg hsteady.1 (hs hi).2 hrun ha
      | jump | trap | stuck | late => rfl

theorem expr_literal (w : World) (v : Value) (type : Option Ty) (pos : Pos) :
    Meaning.expr w (v.literal type pos) = pure (some (.ofValue v)) := by
  cases v <;> rfl

theorem expr_of_literal? (h : e.literal? = some v) :
    Meaning.expr w e = pure (some (.ofValue v)) := by
  cases e <;> simp only [Expr.literal?, Option.some.injEq, reduceCtorEq] at h <;> subst h <;> rfl

theorem expr_foldUnary {n : Note} {op : UnaryOp} {a : Value}
    (he : Meaning.expr w e = pure (some (.ofValue a))) (hv : Value.foldUnary op a = some v) :
    Meaning.expr w (.unary n op e) = pure (some (.ofValue v)) := by
  show (Meaning.need (Meaning.expr w e) >>= fun x => Meaning.unary op x >>= fun y => pure (some y)) = _
  rw [he]
  show (Meaning.unary op (.ofValue a) >>= fun y => pure (some y)) = _
  rw [Meaning.unary_foldUnary hv]
  rfl

theorem unary_same (w : World) (n : Note) (op : UnaryOp) (e : Expr) :
    Meaning.expr w (unary n op e).value = Meaning.expr w (.unary n op e) := by
  unfold unary
  cases hf : e.literal?.bind (Value.foldUnary op) with
  | none => rfl
  | some v =>
    obtain ⟨a,ha,hv⟩ := Option.bind_eq_some_iff.mp hf
    rw [expr_foldUnary (expr_of_literal? ha) hv]
    exact expr_literal w v _ _

theorem shortCircuit_same (w : World) (n : Note) (op : BinaryOp) (a b : Expr) :
    Meaning.expr w (shortCircuit n op a b).value = Meaning.expr w (.binary n op a b) := by
  unfold shortCircuit
  split
  · rename_i x
    cases x <;> rfl
  · rename_i x
    cases x <;> rfl
  · rfl

theorem expr_foldBinary {n : Note} {op : BinaryOp} {a b : Expr} {x y : Value}
    (hax : Meaning.expr w a = pure (some (.ofValue x))) (hby : Meaning.expr w b = pure (some (.ofValue y)))
    (hx : x.InRange) (hy : y.InRange) (hv : Value.foldBinary op x y = some v) :
    Meaning.expr w (.binary n op a b) = pure (some (.ofValue v)) := by
  by_cases hop : op = .and ∨ op = .or
  · rcases hop with rfl | rfl <;> cases x <;> cases y <;>
      simp only [Value.foldBinary, Value.foldInt, Value.foldText, Value.foldBool, Option.some.injEq,
        reduceCtorEq] at hv
    · rename_i c d
      subst hv
      show (Meaning.truth (Meaning.expr w a) >>= fun c => if c = true then Meaning.expr w b else _) = _
      rw [hax,hby]
      cases c <;> rfl
    · rename_i c d
      subst hv
      show (Meaning.truth (Meaning.expr w a) >>= fun c => if c = true then _ else Meaning.expr w b) = _
      rw [hax,hby]
      cases c <;> rfl
  · rw [not_or] at hop
    have hrun : Meaning.expr w (.binary n op a b) = (Meaning.need (Meaning.expr w a) >>= fun x =>
        Meaning.need (Meaning.expr w b) >>= fun y => Meaning.binary op x y >>= fun z =>
          pure (some z)) := by
      cases op <;> first | rfl | exact absurd rfl hop.1 | exact absurd rfl hop.2
    rw [hrun,hax,hby]
    show (Meaning.binary op (.ofValue x) (.ofValue y) >>= fun z => pure (some z)) = _
    rw [Meaning.binary_foldBinary hx hy hop.1 hop.2 hv]
    rfl

theorem binary_same (w : World) (n : Note) (op : BinaryOp) {a b : Expr} (hsized : S.env.Sized)
    (ha : a.Every (rule S) l) (hb : b.Every (rule S) l) :
    Meaning.expr w (binary n op a b).value = Meaning.expr w (.binary n op a b) := by
  unfold binary
  split
  · rename_i x y hx hy
    split
    · rename_i v hv
      rw [expr_foldBinary (expr_of_literal? hx) (expr_of_literal? hy) (literal?_inRange ha.head hx hsized)
        (literal?_inRange hb.head hy hsized) hv]
      exact expr_literal w v _ _
    · exact shortCircuit_same w n op a b
  · exact shortCircuit_same w n op a b

theorem name_same (w : World) (n : Note) (x : String) (sym : Option Symbol) :
    Meaning.expr w (name n x sym).value = Meaning.expr w (.name n x sym) := by
  unfold name
  split
  · exact expr_literal w _ _ _
  · rfl

theorem exprs_length (r : Prover) (es : List Expr) : (exprs r es).value.length = es.length := by
  induction es with
  | nil => rfl
  | cons e es ih => exact congrArg (· + 1) ih

theorem stmts_ofChain (w : World) (p : Pos) (c : Chain) :
    Meaning.stmts w (ofChain p c) = Meaning.chain w c := by
  cases c with
  | stop => rfl
  | otherwise b => obtain ⟨q,ss⟩ := b; rfl
  | branch q e b rest => exact Meaning.stmts_singleton w _

structure Fits (r : Prover) (w : World) (S : Site) : Prop where
  prover : r.Sound
  types : w.types = S.slots
  apart : w.Apart
  strict : S.strict
  sized : S.env.Sized

/-- A prover that refutes something needs the chains to be steady. -/
def AllSteady (r : Prover) (cs : List Chain) : Prop :=
  ¬ r.Idle → ∀ c ∈ cs, Steady r [] c

namespace AllSteady

variable {cs ds : List Chain}

theorem left (h : AllSteady r (cs ++ ds)) : AllSteady r cs :=
  fun hr c hc => h hr c (List.mem_append_left _ hc)

theorem right (h : AllSteady r (cs ++ ds)) : AllSteady r ds :=
  fun hr c hc => h hr c (List.mem_append_right _ hc)

end AllSteady

def Same (w : World) (r : Prover) (e : Expr) : Prop :=
  AllSteady r e.chains → Meaning.expr w (expr r e).value = Meaning.expr w e

theorem exprs_same {es : List Expr} (hes : ∀ e ∈ es, Same w r e) : AllSteady r (Expr.gatherIn chains es) →
    Meaning.exprs w (exprs r es).value = Meaning.exprs w es := by
  refine parts_walk es hes (fun _ => rfl) fun e es he hes hs => ?_
  show Meaning.exprs w ((expr r e).value :: (exprs r es).value) = _
  simp only [Meaning.exprs, he hs.left, hes hs.right]

theorem elements_same {es : List Expr} (hes : ∀ e ∈ es, Same w r e) : AllSteady r (Expr.gatherIn chains es) →
    ∀ a i, Meaning.elements w a i (exprs r es).value = Meaning.elements w a i es := by
  refine parts_walk es hes (fun _ _ _ => rfl) fun e es he hes hs a i => ?_
  show Meaning.elements w a i ((expr r e).value :: (exprs r es).value) = _
  simp only [Meaning.elements, he hs.left, hes hs.right]

theorem fields_same {fs : List FieldInit} (hfs : ∀ f ∈ fs, Same w r f.value) :
    AllSteady r (FieldInit.gatherIn chains fs) →
      ∀ a, Meaning.fields w a (fields r fs).value = Meaning.fields w a fs := by
  refine parts_walk fs hfs (fun _ _ => rfl) ?_
  rintro ⟨p,x,e⟩ fs (he : Same w r e) hfs hs a
  show Meaning.fields w a (.mk p x (expr r e).value :: (fields r fs).value) = _
  simp only [Meaning.fields, he hs.left, hfs hs.right]

theorem arms_same {as : List Arm} (has : ∀ a ∈ as, Same w r a.body) : AllSteady r (Arm.gatherIn chains as) →
    ∀ v, Meaning.arms w v (arms r as).value = Meaning.arms w v as := by
  refine parts_walk as has (fun _ _ => rfl) ?_
  rintro ⟨q,p,e⟩ as (he : Same w r e) has hs v
  show Meaning.arms w v (.mk q p (expr r e).value :: (arms r as).value) = _
  simp only [Meaning.arms, he hs.left, has hs.right]

theorem same_walk (h : Fits r w S) : Walk (rule S) (fun _ => Same w r)
    (fun _ s => AllSteady r (s.gather chains) → Meaning.stmts w (stmt r s).value = Meaning.stmt w s)
    (fun _ ss => AllSteady r (Stmt.gatherIn chains ss) → Meaning.stmts w (stmts r ss).value = Meaning.stmts w ss)
    (fun _ b => AllSteady r b.chains → Meaning.block w (block r b).value = Meaning.block w b)
    (fun _ c => AllSteady r (c.gather chains) → ∀ facts s, Ready r facts c s →
      pick w (runBody w) (chain r facts c).value s = pick w (runBody w) c s) where
  int _ _ := rfl
  bool _ _ := rfl
  text _ _ := rfl
  noneLit _ _ := rfl
  enum _ _ := rfl
  name {_ n x sym} _ _ := name_same w n x sym
  unary {_ n op _} _ he hs := by
    refine (unary_same w n op _).trans ?_
    simp only [Meaning.expr, he hs]
  binary {l n op a b} hn ha hb hs := by
    refine (binary_same w n op h.sized (expr_kept r a l hn.2.1).1 (expr_kept r b l hn.2.2).1).trans ?_
    cases op <;> simp only [Meaning.expr, ha hs.right.left, hb hs.right.right]
  call {_ n f es} _ hes hs := by
    show Meaning.expr w (.call n f (exprs r es).value) = _
    simp only [Meaning.expr, exprs_same hes hs]
  method {_ n e m es b} _ he hes hs := by
    show Meaning.expr w (.method n (expr r e).value m (exprs r es).value b) = _
    simp only [Meaning.expr, he hs.right.left, exprs_same hes hs.right.right]
  array {_ n es} _ hes hs := by
    show Meaning.expr w (.array n (exprs r es).value) = _
    simp only [Meaning.expr, exprs_length, elements_same hes hs]
  index {_ n t i} _ ht hi hs := by
    show Meaning.expr w (.index n (expr r t).value (expr r i).value) = _
    simp only [Meaning.expr, ht hs.right.left, hi hs.right.right]
  field {_ n e f} _ he hs := by
    show Meaning.expr w (.field n (expr r e).value f) = _
    simp only [Meaning.expr, he hs]
  record {_ n x fs} _ hfs hs := by
    show Meaning.expr w (.record n x (fields r fs).value) = _
    simp only [Meaning.expr, fields_same hfs hs]
  wrap {_ n k e} _ he hs := by
    show Meaning.expr w (.wrap n k (expr r e).value) = _
    simp only [Meaning.expr, he hs]
  select {_ n e as} _ he has hs := by
    show Meaning.expr w (.select n (expr r e).value (arms r as).value) = _
    simp only [Meaning.expr, he hs.right.left, arms_same has hs.right.right]
  block {_ n ss d} _ hss hs := by
    show Meaning.expr w (.block n (stmts r ss).value none d) = _
    simp only [Meaning.expr, hss hs]
  tail {_ n ss e d} _ hss he hs := by
    show Meaning.expr w (.block n (stmts r ss).value (some (expr r e).value) d) = _
    simp only [Meaning.expr, hss hs.right.left, he hs.right.right]
  bind {_ p x d e slot} _ he hs := by
    refine (Meaning.stmts_singleton w (.bind p x d (expr r e).value slot)).trans ?_
    simp only [Meaning.stmt, he hs]
  assignName {_ p n x sym e} _ he hs := by
    refine (Meaning.stmts_singleton w (.assign p (.name n x sym) (expr r e).value)).trans ?_
    simp only [Meaning.stmt, he hs]
  assignField {_ p n t f e} _ ht he hs := by
    refine (Meaning.stmts_singleton w (.assign p (.field n (expr r t).value f) (expr r e).value)).trans ?_
    simp only [Meaning.stmt, ht hs.right.left.right, he hs.right.right]
  assignIndex {_ p n t i e} _ ht hi he hs := by
    refine (Meaning.stmts_singleton w
      (.assign p (.index n (expr r t).value (expr r i).value) (expr r e).value)).trans ?_
    simp only [Meaning.stmt, ht hs.right.left.right.left, hi hs.right.left.right.right, he hs.right.right]
  assignOther {_ _ t _} hn hplace _ _ _ := by
    cases t with
    | name | field | index => cases hplace
    | _ => exact absurd (hn.1 h.strict).1 Bool.false_ne_true
  ret _ _ := Meaning.stmts_singleton w _
  retValue {_ p e} _ he hs := by
    refine (Meaning.stmts_singleton w (.ret p (some (expr r e).value))).trans ?_
    simp only [Meaning.stmt, he hs]
  expr {_ p e} _ he hs := by
    refine (Meaning.stmts_singleton w (.expr p (expr r e).value)).trans ?_
    simp only [Meaning.stmt, he hs]
  cond {_ p c} _ hc hs := by
    refine (stmts_ofChain w p (chain r [] c).value).trans ?_
    rw [Meaning.chain_eq_pick]
    refine .trans ?_ (Meaning.chain_eq_pick w c).symm
    funext s
    exact hc (fun hr d hd => hs hr d (.tail _ hd)) [] s fun hr => ⟨hs hr c (.head _),fun _ => rfl⟩
  loop {l _ e _} hn he hb hs := by
    rw [stmt_loop_value]
    by_cases hnever : neverTrue r [] (expr r e).value = true
    · rw [if_pos hnever]
      refine (Meaning.whileLoop_of_false (fun s => ?_) _ _).symm
      have hnone : ¬ r.Idle → Holds [] s := fun _ => rfl
      rw [← he hs.right.left]
      exact truth_of_neverTrue h.prover h.types (expr_kept r e l hn.2.1).1 hnone hnever
    · rw [if_neg hnever,Meaning.stmts_singleton]
      simp only [Meaning.stmt, he hs.right.left, hb hs.right.right]
  each {_ p x e b slot} _ he hb hs := by
    refine (Meaning.stmts_singleton w (.each p x (expr r e).value (block r b).value slot)).trans ?_
    simp only [Meaning.stmt, he hs.right.left, hb hs.right.right]
  leave _ _ := Meaning.stmts_singleton w _
  next _ _ := Meaning.stmts_singleton w _
  nil _ := rfl
  cons {_ s ss} _ hs hss hst := by
    refine (Meaning.stmts_append w (stmt r s).value (stmts r ss).value).trans ?_
    rw [hs hst.left,hss hst.right]
    rfl
  body hss := hss
  stop _ _ _ _ := rfl
  otherwise hb hs _ s _ := congrFun (hb hs) s
  branch {l _ e _ _} hn he hb hc hs facts s hready :=
    pick_branch h.prover h.types h.apart (expr_kept r e l hn.2.1).1 (he hs.left) (hb hs.right.left)
      (hc hs.right.right) facts s hready

end Optimize

end Covenant
