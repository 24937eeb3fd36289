import Covenant.Proofs.Flow.Strays
import Covenant.Proofs.Lower.Jumps
import Covenant.Proofs.Optimizer.Constants
import Covenant.Proofs.Scalar.Folding

/-! Integers of 64 bits, from the text to the code. A literal may be written one too large, for the sake of a minus
sign in front of it; no number of an accepted program is out of range, and so none in its code is. -/

namespace Covenant

open Wasm Typing Lower
open Scoping (constantSymbols)

namespace Build

/-- Minus signs in front of an expression, the outermost first, each with the places of its node. -/
def signed : List (Pos × Pos) → Tree → Tree
  | [], t => t
  | (p, s) :: signs, t => .node .negOp p s [signed signs t]

def signedLiteral (signs : List (Pos × Pos)) (place : Pos × Pos) (t : Token) : Tree :=
  signed signs (.node .intLit place.1 place.2 [.leaf t])

def negated (n : Nat) : Nat → Int
  | 0 => n
  | k + 1 => wrapWord (-negated n k)

theorem ofTree_signedLiteral (signs : List (Pos × Pos)) (place : Pos × Pos) (t : Token) :
    ofTree (signedLiteral signs place t) =
      if number t ≤ 2 ^ 63 then .ok (.expr (.int (untyped ((signs.map (·.1)).headD t.pos)) (negated (number t) signs.length)))
      else .error ⟨.integerRange, t.pos, some t.text, []⟩ := by
  induction signs with
  | nil =>
    show expression .intLit place.1 [.token t] = _
    rw [expression]
    rfl
  | cons sign signs ih =>
    show (do
      let parts ← (do
        let p ← ofTree (signedLiteral signs place t)
        return [p])
      phrase .negOp sign.1 parts) = _
    rw [ih]
    split <;> rfl

theorem negated_modEq (n k : Nat) : negated n k ≡ (-1) ^ k * n [ZMOD 2 ^ 64] := by
  induction k with
  | zero => simp [negated, Int.ModEq.refl]
  | succ k ih =>
    calc negated n (k + 1) ≡ -negated n k [ZMOD 2 ^ 64] := wrapWord_modEq _
      _ ≡ -((-1) ^ k * n) [ZMOD 2 ^ 64] := ih.neg
      _ = (-1) ^ (k + 1) * n := by rw [pow_succ,mul_neg_one,neg_mul]

theorem inWordRange_negated {n : Nat} (hn : n ≤ 2 ^ 63) (k : Nat) :
    inWordRange (negated n k) = true ↔ ¬ (n = 2 ^ 63 ∧ k = 0) := by
  cases k with
  | zero =>
    rw [negated,inWordRange_iff]
    simp only [minWord, maxWord, and_true]
    omega
  | succ k => simp [negated, wrapWord_inRange]

/-- A tree is a part of another one, or that tree itself. -/
inductive Within (t : Tree) : Tree → Prop
  | here : Within t t
  | node {form : Form} {pos start : Pos} {u : Tree} {children : List Tree} (h : Within t u) (hu : u ∈ children) :
    Within t (.node form pos start children)
  | many {start : Pos} {u : Tree} {children : List Tree} (h : Within t u) (hu : u ∈ children) :
    Within t (.many start children)

theorem ofTrees_refused {u : Tree} {ts : List Tree} {e : SyntaxError} (h : ofTree u = .error e) (hu : u ∈ ts) :
    ∃ e', ofTrees ts = .error e' := by
  induction ts with
  | nil => cases hu
  | cons t ts ih =>
    rw [ofTrees]
    cases ht : ofTree t with
    | error e' => exact ⟨e',rfl⟩
    | ok q =>
      rcases List.mem_cons.mp hu with rfl | hu
      · rw [h] at ht
        cases ht
      · obtain ⟨e',he'⟩ := ih hu
        exact ⟨e',by rw [he']; rfl⟩

theorem ofTree_refused {t u : Tree} {e : SyntaxError} (h : ofTree t = .error e) (hu : Within t u) :
    ∃ e', ofTree u = .error e' := by
  induction hu with
  | here => exact ⟨e,h⟩
  | node _ hmem ih =>
    obtain ⟨_,hu⟩ := ih
    obtain ⟨e',he'⟩ := ofTrees_refused hu hmem
    exact ⟨e',by rw [ofTree,he']; rfl⟩
  | many => exact ⟨_,rfl⟩

end Build

structure Program.Ranged (p : Program) : Prop where
  functions : ∀ d ∈ p.functions, d.body.Every ranged false
  constants : ∀ c ∈ p.constants, c.value.Every ranged false

theorem ranged_join {S : Site} (hs : S.strict) (hsized : S.env.Sized) : (rule S).Join (rule S) ranged where
  expr _ h _ := ranged_of_rule hs hsized h
  stmt _ _ _ _ := trivial
  guard _ _ _ := trivial

namespace Program

variable {o : Options} {p : Program}

theorem Typed.ranged {policy : Policy} {strict : Prop} (h : p.Typed strict policy) (hs : strict)
    (hsized : (p.env policy).Sized) : ∀ d ∈ p.functions, d.body.Every Covenant.ranged false := fun d hd =>
  (h.functions d hd).body.join (ranged_join hs hsized) (h.functions d hd).body

theorem constants_ranged {policy : Policy} (hwritten : p.Written)
    (hsized : ∀ d ∈ p.enums, d.variants.length ≤ maxWord.toNat) (haccepted : (p.check policy).accepted = true) :
    (∀ c ∈ (p.check policy).program.constants, c.value.Every ranged false) ∧
      ∀ y ∈ constantSymbols (p.check policy).program.constants, ∀ v, y.value = some v → v.InRange := by
  obtain ⟨env,d,hstages⟩ := check_stages haccepted
  have henv : env.Sized := by rw [hstages.env_eq]; exact hsized
  have hproper := hstages.proper hwritten
  have hsteps := hstages.constantSteps
  obtain ⟨-,hrules⟩ := hsteps.keeps (Q := fun _ c => c.value.Every ranged false)
    (fun c hc _ _ _ hstep hs => by
      obtain ⟨hnext,-,hrule⟩ := hstep.sound (fun _ => hproper) (fun _ => hwritten.constants c hc) hs
      exact ⟨hnext,(hrule trivial).1.join (ranged_join trivial henv) (hrule trivial).1⟩)
    (Check.initial_fresh True env)
  obtain ⟨hfresh,hglobals,-⟩ := hsteps.constants hproper henv hwritten.constants (Check.initial_fresh True env)
    Optimize.idle
  rw [← hstages.checked_constants] at hrules hglobals
  refine ⟨fun c hc => ?_,fun y hy v hv => ?_⟩
  · obtain ⟨_,_,h⟩ := Check.exists_of_forall₂ hrules c hc
    exact h
  · exact (hfresh.1.globals y (hglobals ▸ hy)).1.2.2.2.1 henv v hv

theorem constants_optimizeWith (r : Optimize.Prover) (p : Program) :
    (p.optimizeWith r).value.constants = p.constants :=
  (filterMap_optimizeWith fun i => by cases i <;> rfl).trans (List.map_id _)

theorem prepared_constants {z : Optimize.Solver} : (p.prepared z o).constants = (p.check o.shadowing).program.constants := by
  rw [prepared]
  split
  · exact constants_optimizeWith ..
  · rfl

theorem routine_longs (r : Routine) {v : Int} (h : .op (.i64Const v) ∈ Instr.piecesOf r.code) :
    inWordRange v = true := by
  have hall : isSmall r.code = true := by cases r <;> decide
  exact List.all_eq_true.mp hall _ h

theorem module_longs {image : Image} (h : p.lower o = .ok image)
    (hsmall : ∀ d ∈ p.functions, ∀ pool b pool', function (context o p) d pool = .ok (b, pool') →
      isSmall b.code = true) :
    ∀ f ∈ image.module.functions, ∀ v, .op (.i64Const v) ∈ f.code → inWordRange v = true := by
  obtain ⟨entry,own,pool,-,hown,-,hmodule,-⟩ := lower_spec h
  have hbuilt := assemble_built o (programImports p) entry.index (own ++ (neededRoutines own).map routineBody) pool
  rw [← hmodule] at hbuilt
  intro f hf v hv
  obtain ⟨b,hb,himpl⟩ := Check.exists_of_forall₂ hbuilt.functions.flip f hf
  rw [himpl.code] at hv
  rcases List.mem_append.mp hb with hb | hb
  · obtain ⟨d,hd,q,q',hfunction⟩ := Check.exists_of_forall₂ (bodies_spec hown) b hb
    exact List.all_eq_true.mp (hsmall d hd q b q' hfunction) _ hv
  · obtain ⟨r,-,rfl⟩ := List.mem_map.mp hb
    exact routine_longs r hv

open Build in
/-- Integers stay in the range of 64 bits. In an accepted program, which is annotated and otherwise left as it is,
all literals, all numbers in patterns and all values of constants are in range; so are those of the program after
optimising, and all 64-bit numbers in its code. A literal is refused when it is read if it is greater than the
least integer is small. If it is just as great and has no sign, checking tells it where it stands in the first
constant of some name, or in the first function of a name that is not reserved, and nowhere else. Otherwise it is the
number that is written, modulo the size of a word. -/
theorem integers_in_range (z : Optimize.Solver) (o : Options) (p : Program) :
    (p.Written → (∀ d ∈ p.enums, d.variants.length ≤ maxWord.toNat) → (p.check o.shadowing).accepted = true →
      ((p.check o.shadowing).program.bare = p.bare ∧ (p.check o.shadowing).program.Ranged ∧
        ∀ y ∈ constantSymbols (p.check o.shadowing).program.constants, ∀ v, y.value = some v → v.InRange) ∧
      (p.prepared z o).Ranged ∧
      ∀ image, (p.prepared z o).lower o = .ok image →
        ∀ f ∈ image.module.functions, ∀ v, .op (.i64Const v) ∈ f.code → inWordRange v = true) ∧
    (¬ p.Strays → ∀ pos, ⟨.literalRange, pos⟩ ∈ (p.check o.shadowing).errors ↔
      p.ConstantMark (.range pos) ∨ p.FunctionMark (.range pos)) ∧
    ∀ signs place t,
      (2 ^ 63 < number t → ofTree (signedLiteral signs place t) = .error ⟨.integerRange, t.pos, some t.text, []⟩ ∧
        ∀ tree, Within (signedLiteral signs place t) tree → ∃ e, ofTree tree = .error e) ∧
      (number t ≤ 2 ^ 63 → ∃ n v, ofTree (signedLiteral signs place t) = .ok (.expr (.int n v)) ∧
        (Expr.int n v).gather marks = (if number t = 2 ^ 63 ∧ signs = [] then [.range n.pos] else []) ∧
        (¬ (number t = 2 ^ 63 ∧ signs = []) → v = wrapWord ((-1) ^ signs.length * number t))) := by
  refine ⟨fun hwritten hsized haccepted => ?_,fun h => check_ranges o.shadowing h,fun signs place t => ?_⟩
  · obtain ⟨htyped,henums⟩ := Program.check_typed haccepted
    obtain ⟨hconstants,hvalues⟩ := constants_ranged hwritten hsized haccepted
    have hchecked : ((p.check o.shadowing).program.env o.shadowing).Sized := by
      show ∀ d ∈ (p.check o.shadowing).program.enums, _
      rwa [henums]
    have hprepared := prepared_sized (z := z) hsized haccepted
    refine ⟨⟨Program.check_bare haccepted,⟨htyped.ranged hwritten hchecked,hconstants⟩,hvalues⟩,
      ⟨(typed_of_accepted haccepted).ranged hwritten hprepared,prepared_constants ▸ hconstants⟩,
      fun image himage => module_longs himage fun d hd pool b pool' hb => ?_⟩
    exact ((prepared_rounded hwritten haccepted hd pool).2 b pool' hb).small hprepared
  · have hread := ofTree_signedLiteral signs place t
    refine ⟨fun h => ?_,fun h => ?_⟩
    · rw [if_neg (Nat.not_le.mpr h)] at hread
      exact ⟨hread,fun tree => ofTree_refused hread⟩
    · rw [if_pos h] at hread
      have hrange := inWordRange_negated h signs.length
      rw [List.length_eq_zero_iff] at hrange
      refine ⟨_,_,hread,?_,fun hother => eq_wrapWord (hrange.mpr hother) (negated_modEq _ _)⟩
      simp only [Expr.gather, marks, List.append_nil]
      by_cases hgreat : number t = 2 ^ 63 ∧ signs = []
      · rw [if_pos hgreat,if_neg fun hin => hrange.mp hin hgreat]
      · rw [if_neg hgreat,if_pos (hrange.mpr hgreat)]

/-- `fn run() -> Integer { return v; }` -/
def returner (v : Int) : FunctionDecl :=
  ⟨.unknown, "run", [], some .integer, .mk .unknown [.ret .unknown (some (.int ⟨.unknown, none⟩ v))], []⟩

def returning (vs : List Int) : Program := ⟨.unknown, vs.map (.function <| returner ·), none⟩

/-- Two signs in front of the least integer give it back. Without a sign, it is told. -/
theorem integers_in_range_chained : (chained.check .warn).accepted = true ∧ (chained.prepared unaided .default).Ranged ∧
    ⟨.literalRange, .unknown⟩ ∈ ((returning [9223372036854775808]).check .warn).errors ∧
    ∃ n, Build.ofTree (Build.signedLiteral [(.start, .start), (.start, .start)] (.start, .start)
      ⟨.int, "9223372036854775808", .start⟩) = .ok (.expr (.int n minWord)) := by
  obtain ⟨hranges,-,hliterals⟩ := integers_in_range unaided .default chained
  obtain ⟨-,htold,-⟩ := integers_in_range unaided .default (returning [9223372036854775808])
  have hstays : ¬ (returning [9223372036854775808]).Strays := nofun
  have hliteral := hliterals [(.start, .start), (.start, .start)] (.start, .start)
    ⟨.int, "9223372036854775808", .start⟩
  obtain ⟨n,v,hread,-,hvalue⟩ := hliteral.2 (by decide)
  obtain rfl : v = minWord := (hvalue (by decide)).trans (by decide)
  exact ⟨by decide,(hranges chained_written (by decide) (by decide)).2.1,
    (htold hstays .unknown).mpr (.inr ⟨returner 9223372036854775808,rfl,by decide,by decide⟩),n,hread⟩

/-- In a second function of the same name, it is not. -/
theorem returning_twice_errors :
    (∃ f ∈ (returning [1, 9223372036854775808]).functions, .range .unknown ∈ f.body.gather marks) ∧
      ((returning [1, 9223372036854775808]).check .warn).errors = [⟨.functionRedefined "run", .unknown⟩] :=
  ⟨⟨returner 9223372036854775808,.tail _ (.head _),by decide⟩,by decide⟩

end Program

end Covenant
