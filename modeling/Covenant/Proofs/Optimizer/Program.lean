import Covenant.Optimize.Program
import Covenant.Proofs.Optimizer.Meaning
import Covenant.Proofs.Typing.Functions

/-! Optimising a whole program. Its functions are optimised one by one, and a call to one of them does
what it did before. -/

namespace Covenant

open Meaning (World Host Heap Val Eval Observed)
open Optimize (Prover)

namespace Program

variable {r : Prover} {p : Program}

theorem items_optimizeWith (r : Prover) (is : List Item) :
    (is.mapM (Optimize.item r)).value = is.map fun i => (Optimize.item r i).value := by
  induction is with
  | nil => rfl
  | cons i is ih =>
    rw [List.mapM_cons,Tally.value_bind,Tally.value_bind,ih]
    rfl

theorem filterMap_optimizeWith {α : Type} {f : Item → Option α} {g : α → α}
    (h : ∀ i, f (Optimize.item r i).value = (f i).map g) :
    (p.optimizeWith r).value.items.filterMap f = (p.items.filterMap f).map g := by
  show List.filterMap f (p.items.mapM (Optimize.item r)).value = _
  rw [items_optimizeWith,List.filterMap_map,List.map_filterMap]
  exact congrArg (List.filterMap · p.items) (funext h)

theorem functions_optimizeWith (r : Prover) (p : Program) :
    (p.optimizeWith r).value.functions = p.functions.map fun d => (Optimize.function r d).value :=
  filterMap_optimizeWith fun i => by cases i <;> rfl

theorem records_optimizeWith (r : Prover) (p : Program) :
    (p.optimizeWith r).value.records = p.records :=
  (filterMap_optimizeWith fun i => by cases i <;> rfl).trans (List.map_id _)

theorem enums_optimizeWith (r : Prover) (p : Program) :
    (p.optimizeWith r).value.enums = p.enums :=
  (filterMap_optimizeWith fun i => by cases i <;> rfl).trans (List.map_id _)

theorem find?_optimizeWith (r : Prover) (p : Program) (f : String) :
    (p.optimizeWith r).value.functions.find? (·.name = f) =
      (p.functions.find? (·.name = f)).map fun d => (Optimize.function r d).value := by
  rw [functions_optimizeWith,List.find?_map]
  rfl

theorem fits_world (p : Program) (policy : Policy) {strict : Prop} (hr : r.Sound) (hstrict : strict)
    (hsized : (p.env policy).Sized) (d : FunctionDecl) (host : Host) (capacity limit n : Nat) :
    Optimize.Fits r (p.world host capacity d.slots limit (p.calls host capacity n))
      ⟨{ p.env policy with current := some ⟨d.name,d.result⟩ },d.slots,strict⟩ :=
  ⟨hr,rfl,fun _ _ _ => Meaning.calls_hold p host capacity n _ _,hstrict,hsized⟩

theorem calls_optimizeWith {policy : Policy} {strict : Prop} (hr : r.Sound)
    (ht : p.Typed strict policy) (hstrict : strict) (hsized : (p.env policy).Sized)
    (hsteady : ∀ d ∈ p.functions, Optimize.AllSteady r d.body.chains)
    (host : Host) (capacity n : Nat) :
    (p.optimizeWith r).value.calls host capacity n = p.calls host capacity n := by
  induction n with
  | zero => rfl
  | succ n ih =>
    funext f args
    rw [calls,calls,find?_optimizeWith]
    cases hd : p.functions.find? (·.name = f) with
    | none => rfl
    | some d =>
      have hmem := List.mem_of_find?_eq_some hd
      have hfits := fits_world p policy hr hstrict hsized d host capacity n n
      have hbody := (Optimize.same_walk hfits).onBlock d.body (ht.functions d hmem).body (hsteady d hmem)
      show Meaning.enter d _ args = Meaning.enter d _ args
      rw [ih,← hbody,world,records_optimizeWith,enums_optimizeWith]
      rfl

theorem run_optimize {z : Optimize.Solver} {o : Options} (hwritten : p.Written)
    (hsized : ∀ d ∈ p.enums, d.variants.length ≤ maxWord.toNat) (haccepted : (p.check o.shadowing).accepted = true)
    (hr : (o.prover z).Sound)
    (hsteady : ∀ d ∈ (p.check o.shadowing).program.functions, Optimize.AllSteady (o.prover z) d.body.chains)
    (host : Host) (capacity n : Nat) (f : String) (args : List Val) (heap : Heap) :
    ((p.check o.shadowing).program.optimize z o).value.run host capacity n f args heap =
      (p.check o.shadowing).program.run host capacity n f args heap := by
  obtain ⟨htyped,henums⟩ := Program.check_typed haccepted
  rw [run,run,optimize,calls_optimizeWith hr htyped hwritten (fun d hd => hsized d (henums ▸ hd)) hsteady]

/-- A function of the optimised program ends as the function it comes from ends, or runs on as that
one does, whatever it is given and whatever the host answers. -/
theorem optimize_preserves_runs (z : Optimize.Solver) (o : Options) (p : Program) (ho : o.proveDeadBranches = false)
    (hwritten : p.Written) (hsized : ∀ d ∈ p.enums, d.variants.length ≤ maxWord.toNat)
    (haccepted : (p.check o.shadowing).accepted = true)
    (host : Host) (capacity : Nat) (f : String) (args : List Val) (heap : Heap) :
    let original := (p.check o.shadowing).program
    let optimized := (original.optimize z o).value
    (∀ result, optimized.Yields host capacity f args heap result ↔
      original.Yields host capacity f args heap result) ∧
    (optimized.Diverges host capacity f args heap ↔ original.Diverges host capacity f args heap) := by
  have hidle : (o.prover z).Idle := by
    intro f
    rw [Options.prover,ho]
    rfl
  have hrun (n : Nat) := run_optimize hwritten hsized haccepted (fun f hf => by simp [hidle f] at hf)
    (fun _ _ h => absurd hidle h) host capacity n f args heap
  exact ⟨fun result => by simp only [Yields, hrun],by simp only [Diverges, hrun]⟩

end Program

/-- `const LIMIT: Integer = 5;` and a function that divides by zero unless `LIMIT` is small, and has a
loop that never runs. -/
def limited : Program :=
  let pos : Pos := .unknown
  let note : Note := ⟨pos, none⟩
  ⟨pos, [.constant ⟨pos, "LIMIT", .integer, .int note 5⟩,
    .function ⟨pos, "run", [⟨pos, "x", .integer⟩], some .integer, .mk pos
      [.cond pos (.branch pos (.binary note .gt (.name note "LIMIT" none) (.int note 9))
        (.mk pos [.ret pos (some (.binary note .div (.name note "x" none) (.int note 0)))])
        (.otherwise (.mk pos [.loop pos (.bool note false) (.mk pos []),
          .ret pos (some (.binary note .mul (.name note "x" none) (.name note "LIMIT" none)))])))], []⟩],
    none⟩

theorem limited_written : limited.Written where
  functions := by
    rintro f (_ | ⟨_,⟨⟩⟩)
    exact ⟨⟨by decide,by decide⟩,
      by simp [Block.Every, Stmt.EveryIn, Stmt.Every, Chain.Every, Expr.Every, written]⟩
  records := by rintro r ⟨⟩
  constants := by
    rintro c (_ | ⟨_,⟨⟩⟩)
    exact ⟨rfl,trivial⟩

def Options.withoutProofs : Options := { Options.default with proveDeadBranches := false }

def quietHost : Host := fun _ heap _ _ => .returns none heap

theorem optimize_preserves_runs_limited :
    let original := (limited.check .warn).program
    let optimized := (original.optimize unaided .withoutProofs).value
    (limited.check .warn).accepted = true ∧ (original.optimize unaided .withoutProofs).savings = ⟨3, 2⟩ ∧
      original.Yields quietHost 16 "run" [.int 3] [] (.returned (some (.int 15)) [] []) ∧
      optimized.Yields quietHost 16 "run" [.int 3] [] (.returned (some (.int 15)) [] []) := by
  have hrun : (limited.check .warn).program.Yields quietHost 16 "run" [.int 3] []
      (.returned (some (.int 15)) [] []) := ⟨1,rfl⟩
  refine ⟨by decide,by decide,hrun,?_⟩
  exact ((Program.optimize_preserves_runs unaided .withoutProofs limited rfl limited_written (by decide)
    (by decide) quietHost 16 "run" [.int 3] []).1 _).mpr hrun

end Covenant
