import Covenant.Optimize.Program
import Covenant.Proofs.Meaning.Frame
import Covenant.Proofs.Typing.Rules

/-! What the formula of a guard says about its run, and what follows when a prover refutes it. -/

namespace Covenant

namespace Guard

def Term.slots : Term → List Nat
  | const _ => []
  | var i => [i]
  | neg t => t.slots
  | add s t | sub s t | mul s t => s.slots ++ t.slots

def Formula.slots : Formula → List Nat
  | const _ => []
  | var i => [i]
  | not f => f.slots
  | and f g | or f g | iff f g => f.slots ++ g.slots
  | eq s t | lt s t | le s t => s.slots ++ t.slots

theorem Term.eval_congr {v u : Valuation} {t : Term} (h : ∀ i ∈ t.slots, v.word i = u.word i) :
    t.eval v = t.eval u := by
  induction t with
  | const => rfl
  | var i => exact h i (.head _)
  | neg t ih => rw [eval,eval,ih h]
  | add s t ihs iht | sub s t ihs iht | mul s t ihs iht =>
    rw [slots,List.forall_mem_append] at h
    rw [eval,eval,ihs h.1,iht h.2]

theorem Formula.eval_congr {v u : Valuation} {f : Formula}
    (h : ∀ i ∈ f.slots, v.word i = u.word i ∧ v.truth i = u.truth i) : f.eval v = f.eval u := by
  induction f with
  | const => rfl
  | var i => exact (h i (.head _)).2
  | not f ih => rw [eval,eval,ih h]
  | and f g ihf ihg | or f g ihf ihg | iff f g ihf ihg =>
    rw [slots,List.forall_mem_append] at h
    rw [eval,eval,ihf h.1,ihg h.2]
  | eq s t | lt s t | le s t =>
    rw [slots,List.forall_mem_append] at h
    rw [eval,eval,Term.eval_congr fun i hi => (h.1 i hi).1,Term.eval_congr fun i hi => (h.2 i hi).1]

end Guard

namespace Meaning

open Guard (Formula Valuation)
open Typing (Site rule)

def valueOf (v : Valuation) : Guard.Meaning → Val
  | .word t => .int (t.eval v)
  | .truth f => .bool (f.eval v)

def looks (m : Guard.Meaning) : Eval (Option Val) := fun s =>
  .done (some (valueOf s.slots.plain m)) s

variable {w : World} {S : Site}

theorem name_ofSlot? {t : Ty} {i : Nat} {m : Guard.Meaning} (hslot : w.types[i]? = some t)
    (h : Guard.Meaning.ofSlot? t i = some m) :
    (do return some (← readSlot w.types (some i))) = looks m := by
  funext s
  have hread : s.slots.read (.ofType t) i = some (valueOf s.slots.plain m) := by
    revert h
    cases t <;> simp only [Guard.Meaning.ofSlot?, Option.some.injEq, reduceCtorEq,
      false_implies] <;> rintro rfl <;> rfl
  have hrun : readSlot w.types (some i) s = .done (valueOf s.slots.plain m) s := by
    show (Eval.orStuck w.types[i]? >>= fun t => Eval.get >>= fun s =>
      Eval.orStuck (s.slots.read (.ofType t) i)) s = _
    rw [hslot]
    show Eval.orStuck (s.slots.read (.ofType t) i) s = _
    rw [hread]
    rfl
  rw [Eval.bind_apply,Eval.andThen,hrun]
  rfl

theorem unary_unary? {op : UnaryOp} {k m : Guard.Meaning} (h : Guard.Meaning.unary? op k = some m) :
    (do return some (← unary op (← need (looks k)))) = looks m := by
  cases op <;> cases k <;> cases h
  · funext s
    exact congrArg (fun x => Outcome.done (some (Val.int x)) s) (BitVec.zero_sub _)
  · rfl

theorem binary_binary? {op : BinaryOp} {k l m : Guard.Meaning} (hand : op ≠ .and) (hor : op ≠ .or)
    (h : Guard.Meaning.binary? op k l = some m) :
    (do
      let a ← need (looks k)
      let b ← need (looks l)
      return some (← binary op a b)) = looks m := by
  cases op <;> first | exact absurd rfl hand | exact absurd rfl hor | skip
  all_goals cases k <;> cases l <;> cases h <;> rfl

theorem and_looks (f g : Formula) :
    (do if ← truth (looks (.truth f)) then looks (.truth g) else return some (.bool false)) =
      looks (.truth (.and f g)) := by
  funext s
  show (if f.eval s.slots.plain = true then looks (.truth g) else pure (some (.bool false))) s = _
  cases hf : f.eval s.slots.plain <;> simp [looks, valueOf, Formula.eval, hf]

theorem or_looks (f g : Formula) :
    (do if ← truth (looks (.truth f)) then return some (.bool true) else looks (.truth g)) =
      looks (.truth (.or f g)) := by
  funext s
  show (if f.eval s.slots.plain = true then pure (some (.bool true)) else looks (.truth g)) s = _
  cases hf : f.eval s.slots.plain <;> simp [looks, valueOf, Formula.eval, hf]

theorem expr_ofExpr? (hw : w.types = S.slots) : ∀ (e : Expr) (l : Bool) (m : Guard.Meaning),
    e.Every (rule S) l → Guard.Meaning.ofExpr? e = some m → expr w e = looks m
  | .int _ _, _, _, _, h | .bool _ _, _, _, _, h => by cases h; rfl
  | .enum _ _ _ tag, _, _, _, h => by
    cases tag with
    | none => cases h
    | some tag => cases h; rfl
  | .name n x sym, _, m, he, h => by
    obtain ⟨s,rfl,ht,hs⟩ := he.1
    obtain ⟨x',t,c,k,slot,v⟩ := s
    obtain ⟨p,type⟩ := n
    cases ht
    cases slot with
    | none => cases h
    | some i =>
      rcases hs with hvar | hconst
      · obtain ⟨hk,j,hj,htype⟩ := hvar
        cases hj
        cases k with
        | constant => exact absurd rfl hk
        | _ => exact name_ofSlot? (hw ▸ htype) h
      · cases hconst.2.2.1
  | .unary _ op e, l, m, he, h => by
    rw [Guard.Meaning.ofExpr?] at h
    cases hk : Guard.Meaning.ofExpr? e with
    | none => simp only [hk, reduceCtorEq] at h
    | some k =>
      simp only [hk] at h
      rw [← unary_unary? h,← expr_ofExpr? hw e l k he.2 hk]
      rfl
  | .binary _ op a b, l, m, he, h => by
    rw [Guard.Meaning.ofExpr?] at h
    cases hk : Guard.Meaning.ofExpr? a with
    | none => simp only [hk, reduceCtorEq] at h
    | some k =>
      cases hj : Guard.Meaning.ofExpr? b with
      | none => simp only [hk, hj, reduceCtorEq] at h
      | some j =>
        simp only [hk, hj] at h
        have ha := expr_ofExpr? hw a l k he.2.1 hk
        have hb := expr_ofExpr? hw b l j he.2.2 hj
        by_cases hand : op = .and
        · subst hand
          cases k <;> cases j <;> cases h
          rw [← and_looks,← ha,← hb]
          rfl
        · by_cases hor : op = .or
          · subst hor
            cases k <;> cases j <;> cases h
            rw [← or_looks,← ha,← hb]
            rfl
          · rw [← binary_binary? hand hor h,← ha,← hb]
            cases op <;> first | rfl | exact absurd rfl hand | exact absurd rfl hor
  | .text _ _, _, _, _, h | .call _ _ _, _, _, _, h | .method _ _ _ _ _, _, _, _, h
  | .array _ _, _, _, _, h | .index _ _ _, _, _, _, h | .field _ _ _, _, _, _, h
  | .record _ _ _, _, _, _, h | .wrap _ _ _, _, _, _, h | .noneLit _, _, _, _, h
  | .select _ _ _, _, _, _, h | .block _ _ _ _, _, _, _, h => by cases h

theorem truth_formula? (hw : w.types = S.slots) {e : Expr} {l : Bool} {f : Formula}
    (he : e.Every (rule S) l) (hf : Guard.formula? e = some f) (s : State) :
    truth (expr w e) s = .done (f.eval s.slots.plain) s := by
  rw [Guard.formula?] at hf
  split at hf
  · rename_i hm
    cases hf
    rw [expr_ofExpr? hw e l _ he hm]
    rfl
  · cases hf

end Meaning

namespace Optimize

open Guard (Formula)
open Meaning (World State truth)
open Typing (Site rule)

def Prover.Sound (r : Prover) : Prop :=
  ∀ f, r f = true → f.Unsat

def Prover.Idle (r : Prover) : Prop :=
  ∀ f, r f = false

def Holds (facts : List Formula) (s : State) : Prop :=
  facts.all (·.eval s.slots.plain) = true

variable {r : Prover} {facts : List Formula} {s : State} {w : World} {S : Site} {e : Expr} {l : Bool}

/-- What is refuted together with facts that hold is false. A prover that refutes nothing needs no
facts. -/
theorem eval_of_refuted {f : Formula} (hr : r.Sound) (hs : ¬ r.Idle → Holds facts s)
    (h : r (.conj (facts ++ [f])) = true) : f.eval s.slots.plain = false := by
  have hfacts : Holds facts s := hs fun hidle => by simp [hidle _] at h
  have hunsat := hr _ h s.slots.plain
  rw [Formula.eval_conj,List.all_append,hfacts] at hunsat
  simpa using hunsat

theorem truth_of_neverTrue (hr : r.Sound) (hw : w.types = S.slots) (he : e.Every (rule S) l)
    (hs : ¬ r.Idle → Holds facts s) (h : neverTrue r facts e = true) :
    truth (Meaning.expr w e) s = .done false s := by
  unfold neverTrue at h
  split at h
  · rename_i b
    cases b with
    | false => rfl
    | true => cases h
  · split at h
    · rename_i f hf
      rw [Meaning.truth_formula? hw he hf,eval_of_refuted hr hs h]
    · cases h

theorem truth_of_alwaysTrue (hr : r.Sound) (hw : w.types = S.slots) (he : e.Every (rule S) l)
    (hs : ¬ r.Idle → Holds facts s) (h : alwaysTrue r facts e = true) :
    truth (Meaning.expr w e) s = .done true s := by
  unfold alwaysTrue at h
  split at h
  · rename_i b
    cases b with
    | false => cases h
    | true => rfl
  · split at h
    · rename_i f hf
      have hnot := eval_of_refuted hr hs h
      rw [Formula.eval,Bool.not_eq_false'] at hnot
      rw [Meaning.truth_formula? hw he hf,hnot]
    · cases h

theorem Holds.of_plain {t : State} (h : Holds facts s)
    (hslots : ∀ f ∈ facts, ∀ i ∈ f.slots, t.plain i = s.plain i) : Holds facts t := by
  refine List.all_eq_true.mpr fun f hf => ?_
  rw [← List.all_eq_true.mp h f hf]
  exact Formula.eval_congr fun i hi => Prod.ext_iff.mp (hslots f hf i hi)

end Optimize

end Covenant
