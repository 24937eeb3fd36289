import Covenant.Proofs.Lower.Validity
import Covenant.Proofs.Scalar.Statement

/-! The code of a function of the scalar core returns what the function returns, traps where it traps and
runs forever where it does. -/

namespace Covenant

namespace Scalar

open Lower (Context Instr)
open Machine (Number Comes Lasts Config step)
open Meaning (World Val Eval SlotKind State Outcome Slots Observed Heap)
open Typing (Site rule)

variable {arity : Nat} {start : Config} {s : State} {w : World}

def Passed : List Param → List Val → List Number → Prop
  | [], [], [] => True
  | p :: ps, v :: vs, x :: xs => Shows (.ofType p.type) v x ∧ Passed ps vs xs
  | _, _, _ => False

theorem Passed.length {ps : List Param} {vs : List Val} {xs : List Number} (h : Passed ps vs xs) :
    vs.length = ps.length ∧ xs.length = ps.length := by
  induction ps generalizing vs xs with
  | nil => cases vs <;> cases xs <;> first | exact ⟨rfl,rfl⟩ | cases h
  | cons p ps ih =>
    cases vs with
    | nil => cases h
    | cons v vs => cases xs with
      | nil => cases h
      | cons x xs =>
        obtain ⟨hv,hx⟩ := ih h.2
        simp [hv, hx]

def zeros (types : List Ty) : List Number := types.map fun t => .zero t.valType

theorem matches_zeros (types : List Ty) : Matches types .empty (zeros types) := by
  intro i t ht
  refine ⟨.zero t.valType,by simp [zeros, ht],fun v hv => ?_⟩
  cases hk : SlotKind.ofType t with
  | other => exact .other v _
  | word =>
    rw [hk] at hv
    cases hv
    cases t <;> first | exact .word 0 | cases hk
  | truth =>
    rw [hk] at hv
    cases hv
    cases t <;> first | exact .truth false | cases hk

theorem Shows.write {k : SlotKind} {v : Val} {x : Number} (h : Shows k v x) (slots : Slots) (i : Nat) :
    ∃ slots', slots.write k i v = some slots' := by
  cases h <;> exact ⟨_,rfl⟩

theorem fill_matches {ps : List Param} {types more : List Ty} {vs : List Val} {xs : List Number}
    {slots : Slots} (before : List Number) (htypes : types.drop before.length = ps.map (·.type) ++ more)
    (hpassed : Passed ps vs xs)
    (hm : Matches types slots (before ++ zeros (ps.map (·.type)) ++ zeros more)) :
    ∃ slots', slots.fill types before.length vs = some slots' ∧
      Matches types slots' (before ++ xs ++ zeros more) := by
  induction ps generalizing vs xs slots before with
  | nil =>
    obtain ⟨hv,hx⟩ := hpassed.length
    obtain rfl := List.length_eq_zero_iff.mp hv
    obtain rfl := List.length_eq_zero_iff.mp hx
    exact ⟨slots,rfl,hm⟩
  | cons p ps ih =>
    cases vs with
    | nil => cases hpassed
    | cons v vs => cases xs with
      | nil => cases hpassed
      | cons x xs =>
        have htype : types[before.length]? = some p.type := by
          rw [← List.head?_drop,htypes]
          rfl
        obtain ⟨slots',hwrite⟩ := hpassed.1.write slots before.length
        obtain ⟨-,hm'⟩ := hm.write htype hwrite hpassed.1
        have hset : (before ++ zeros ((p :: ps).map (·.type)) ++ zeros more).set before.length x =
            (before ++ [x]) ++ zeros (ps.map (·.type)) ++ zeros more := by
          simp [zeros]
        have hdrop : types.drop (before ++ [x]).length = ps.map (·.type) ++ more := by
          rw [List.length_append,← List.drop_drop,htypes]
          rfl
        rw [hset] at hm'
        obtain ⟨last,hfill,hlast⟩ := ih (before ++ [x]) hdrop hpassed.2 hm'
        refine ⟨last,?_,by simpa using hlast⟩
        rw [Slots.fill,htype]
        simpa [hwrite] using hfill

/-- From `start` the machine ends as a call does. -/
def Ends (arity : Nat) (s : State) (start : Config) (bound : Nat) : Outcome (Option Val) → Prop
  | .done v t => SameWorld s t ∧ ∃ xs, Answers v xs ∧ Comes arity start (.returned xs)
  | .trap _ t => SameWorld s t ∧ Comes arity start .trapped
  | .jump _ _ | .stuck => False
  | .late => Lasts arity bound start

/-- The place of the code of a body. If the function has a result, every path has returned before the
end. -/
def outermost (d : FunctionDecl) : Place := ⟨[], [], if d.result.isSome then [.trap] else []⟩

theorem enter_ends {d : FunctionDecl} {c : Context} {code : List Instr} {args : List Val} {slots : Slots}
    {locals : List Number} (hloop : c.loop = none)
    (hbody : Carries arity c w (Meaning.block w d.body) code) (hargs : args.length = d.params.length)
    (hfill : Slots.empty.fill d.slots 0 args = some slots) (hm : Matches w.types slots locals) :
    Ends arity s ((outermost d).at locals code) w.limit
      (Meaning.enter d (Meaning.block w d.body) args s) := by
  have hrun := hbody { s with slots } locals (outermost d) hm
  simp only [Meaning.enter, hargs, ne_eq, not_true_eq_false, if_false, hfill]
  cases hout : Meaning.block w d.body { s with slots } with
  | done a t =>
    rw [hout] at hrun
    obtain ⟨ht,last,-,hcomes⟩ := hrun
    cases hresult : d.result with
    | none =>
      have hend : Comes arity ((outermost d).at last []) (.returned []) :=
        .of_step (by simp [step, Place.at, outermost, hresult])
      exact ⟨ht,[],.nothing,hcomes.trans hend⟩
    | some r =>
      have hend : Comes arity ((outermost d).at last []) .trapped :=
        .of_step (by simp [step, Place.at, outermost, hresult, Instr.trap, Machine.op])
      exact ⟨ht,hcomes.trans hend⟩
  | jump j t =>
    rw [hout] at hrun
    cases j with
    | leave | next =>
      obtain ⟨-,l,-,-,hl,-⟩ := hrun
      cases hloop.symm.trans hl
    | ret v => exact hrun
  | trap k t =>
    rw [hout] at hrun
    exact hrun
  | stuck =>
    rw [hout] at hrun
    exact hrun
  | late =>
    rw [hout] at hrun
    exact hrun

section

variable {run : Nat → Outcome (Option Val)}

theorem runs_of_late (h : ∀ n, Ends arity s start (n - 1) (run n))
    (hlate : ∀ n, (run n).observed? = none) : Machine.Runs arity start := by
  refine Lasts.runs fun n => ?_
  have hn := h (n + 1)
  cases hout : run (n + 1) with
  | late =>
    rw [hout] at hn
    exact hn
  | done | trap | jump | stuck =>
    have hnone := hlate (n + 1)
    rw [hout] at hnone
    cases hnone

theorem run_of_comes {o : Machine.Status} (h : ∀ n, Ends arity s start (n - 1) (run n))
    (hcomes : Comes arity start o) (ho : ∀ c, o ≠ .running c) :
    ∃ n, (∃ v t xs, run n = .done v t ∧ SameWorld s t ∧ Answers v xs ∧ o = .returned xs) ∨
      (∃ k t, run n = .trap k t ∧ SameWorld s t ∧ o = .trapped) := by
  by_contra hnot
  refine hcomes.not_runs ho (runs_of_late h fun n => ?_)
  have hn := h n
  cases hout : run n with
  | late => rfl
  | done v t =>
    rw [hout] at hn
    obtain ⟨ht,xs,hv,hxs⟩ := hn
    exact absurd ⟨n,.inl ⟨v,t,xs,hout,ht,hv,hcomes.unique hxs ho nofun⟩⟩ hnot
  | trap k t =>
    rw [hout] at hn
    exact absurd ⟨n,.inr ⟨k,t,hout,hn.1,hcomes.unique hn.2 ho nofun⟩⟩ hnot
  | jump | stuck =>
    rw [hout] at hn
    exact hn.elim

theorem returned_iff (h : ∀ n, Ends arity s start (n - 1) (run n)) (v : Option Val) (heap : Heap)
    (trace : List Meaning.Event) :
    (∃ n, (run n).observed? = some (.returned v heap trace)) ↔
      heap = s.heap ∧ trace = s.trace ∧ ∃ xs, Answers v xs ∧ Comes arity start (.returned xs) := by
  constructor
  · rintro ⟨n,hn⟩
    have hends := h n
    cases hout : run n with
    | done u t =>
      rw [hout] at hn hends
      cases hn
      exact ⟨hends.1.1,hends.1.2,hends.2⟩
    | jump | trap | stuck | late =>
      rw [hout] at hn
      cases hn
  · rintro ⟨rfl,rfl,xs,hv,hxs⟩
    obtain ⟨n,⟨u,t,ys,hrun,ht,hu,hys⟩ | ⟨k,t,-,-,htrap⟩⟩ := run_of_comes h hxs nofun
    · cases hys
      refine ⟨n,?_⟩
      rw [hrun,hv.unique hu,← ht.1,← ht.2]
      rfl
    · cases htrap

theorem trapped_iff (h : ∀ n, Ends arity s start (n - 1) (run n)) :
    (∃ k heap trace n, (run n).observed? = some (.trapped k heap trace)) ↔
      Comes arity start .trapped := by
  constructor
  · rintro ⟨k,heap,trace,n,hn⟩
    have hends := h n
    cases hout : run n with
    | trap k t =>
      rw [hout] at hends
      exact hends.2
    | jump | done | stuck | late =>
      rw [hout] at hn
      cases hn
  · intro hcomes
    obtain ⟨n,⟨u,t,ys,-,-,-,hys⟩ | ⟨k,t,hrun,-,-⟩⟩ := run_of_comes h hcomes nofun
    · cases hys
    · exact ⟨k,t.heap,t.trace,n,by rw [hrun]; rfl⟩

theorem diverges_iff (h : ∀ n, Ends arity s start (n - 1) (run n)) :
    (∀ n, (run n).observed? = none) ↔ Machine.Runs arity start := by
  refine ⟨runs_of_late h,fun hruns n => ?_⟩
  have hn := h n
  cases hout : run n with
  | late => rfl
  | done v t =>
    rw [hout] at hn
    obtain ⟨-,xs,-,hxs⟩ := hn
    exact absurd hruns (hxs.not_runs nofun)
  | trap k t =>
    rw [hout] at hn
    exact absurd hruns (hn.2.not_runs nofun)
  | jump | stuck =>
    rw [hout] at hn
    exact hn.elim

end

theorem function_of_makes {c : Context} {d : FunctionDecl} {code : List Instr} {t : Lower.Target}
    (h : Makes (Lower.block { c with slots := d.slots, depth := 0, loop := none } d.body) code)
    (ht : c.target? d.name = some t) (pool : Memory.Pool) :
    Lower.function c d pool =
      .ok (⟨t.type, (d.slots.drop d.params.length).map Ty.valType, code ++ (outermost d).rest⟩, pool) := by
  have hrun := h ⟨pool,#[]⟩
  have htarget : ({ c with slots := d.slots, depth := 0, loop := none } : Context).target? d.name =
      some t := ht
  have hcode : code ++ (outermost d).rest = if d.result.isSome then code ++ [Instr.trap] else code := by
    rw [outermost]
    split <;> simp_all
  simp [Lower.function, StateT.run, hrun, htarget, bind, Except.bind, pure, Except.pure, hcode]

theorem body_lowered {S : Site} {c : Context} {b : Block} (hs : S.strict) (hx : b.isScalar = true)
    (h : b.Every (rule S) false) (hc : c.Nested false) :
    ∃ code, Makes (Lower.block c b) code ∧ ∀ w : World, w.types = S.slots →
      Carries S.result.toList.length c w (Meaning.block w b) code := by
  let w : World := ⟨[], [], 0, fun _ _ _ _ => .aborts, S.slots, 0, fun _ _ => Eval.late⟩
  obtain ⟨code,hmake,-⟩ := block_lowered (w := w) ⟨rfl,hs,rfl⟩ b false c hx h hc
  refine ⟨code,hmake,fun w hw => ?_⟩
  obtain ⟨code',hmake',hcarries⟩ := block_lowered ⟨hw,hs,rfl⟩ b false c hx h hc
  exact hmake.unique hmake' ▸ hcarries

theorem arguments_match {strict : Prop} {env : Check.Env} {d : FunctionDecl} {args : List Val}
    {nums : List Number} (hd : d.Typed strict env) (h : Passed d.params args nums) :
    ∃ slots, Slots.empty.fill d.slots 0 args = some slots ∧ Matches d.slots slots
      (nums ++ ((d.slots.drop d.params.length).map Ty.valType).map Number.zero) := by
  obtain ⟨more,hmore⟩ := hd.params
  have hdrop : d.slots.drop d.params.length = more := by
    rw [← hmore]
    exact List.drop_left' (List.length_map ..)
  have hempty : Matches d.slots .empty ([] ++ zeros (d.params.map (·.type)) ++ zeros more) := by
    rw [List.nil_append,zeros,zeros,← List.map_append,hmore]
    exact matches_zeros d.slots
  obtain ⟨slots,hfill,hm⟩ := fill_matches [] hmore.symm h hempty
  refine ⟨slots,hfill,?_⟩
  rw [hdrop,List.map_map]
  exact hm

end Scalar

open Lower (Context)
open Machine (Number Config Comes)
open Meaning (Host Heap Val Slots State World)

theorem Program.run_succ {q : Program} {d : FunctionDecl}
    (hd : q.functions.find? (·.name = d.name) = some d) (host : Host) (capacity n : Nat)
    (args : List Val) (heap : Heap) :
    q.run host capacity (n + 1) d.name args heap =
      Meaning.enter d (Meaning.block
        (q.world host capacity d.slots n (q.calls host capacity n)) d.body) args ⟨.empty, heap, []⟩ := by
  rw [Program.run,Program.calls,hd]

open Scalar in
/-- From a start the machine returns what a function of a program returns, traps where it traps and runs on where it
does. -/
def Program.Performs (q : Program) (host : Host) (capacity : Nat) (f : String) (args : List Val) (heap : Heap)
    (arity : Nat) (start : Config) : Prop :=
  (∀ v heap' trace, q.Yields host capacity f args heap (.returned v heap' trace) ↔
    heap' = heap ∧ trace = [] ∧ ∃ xs, Answers v xs ∧ Comes arity start (.returned xs)) ∧
  ((∃ k heap' trace, q.Yields host capacity f args heap (.trapped k heap' trace)) ↔ Comes arity start .trapped) ∧
  (q.Diverges host capacity f args heap ↔ Machine.Runs arity start)

open Scalar in
theorem Program.scalar_body_performs {q : Program} {strict : Prop} {policy : Policy} {o : Options}
    {d : FunctionDecl} (htyped : q.Typed strict policy) (hstrict : strict) (hd : d ∈ q.functions)
    (hscalar : d.body.isScalar = true) (pool : Memory.Pool) :
    ∃ b, Lower.function (Lower.context o q) d pool = .ok (b, pool) ∧
      ∀ (host : Host) (capacity : Nat) (heap : Heap) (args : List Val) (nums : List Number),
        Passed d.params args nums →
        let arity := b.type.results.length
        let start : Config := ⟨[], nums ++ b.locals.map Number.zero, [], b.code⟩
        q.Performs host capacity d.name args heap arity start ∧
        ∃ slots, Slots.empty.fill d.slots 0 args = some slots ∧ ∀ limit call rest t,
          Visits (q.world host capacity d.slots limit call) d.body.statements ⟨slots, heap, []⟩ rest t →
            Reaches arity d.slots start rest t := by
  have hfun := htyped.functions d hd
  have hfind := find?_of_nodup (f := (·.name)) htyped.functionNames hd
  obtain ⟨i,hi⟩ := List.mem_iff_getElem?.mp hd
  have htarget := Lower.target?_of_getElem? (c := Lower.context o q) htyped.functionNames rfl hi
  let c : Context := { Lower.context o q with slots := d.slots, depth := 0, loop := none }
  let S : Typing.Site := q.site policy strict d
  have hc : c.Nested false := .outermost rfl
  obtain ⟨code,hmake,hcarries⟩ := body_lowered (S := S) hstrict hscalar hfun.body hc
  refine ⟨_,function_of_makes hmake htarget pool,fun host capacity heap args nums hpassed => ?_⟩
  obtain ⟨slots,hfill,hm⟩ := arguments_match hfun hpassed
  have harity : (Lower.signature (d.params.map (·.type)) d.result).results.length =
      d.result.toList.length := List.length_map ..
  simp only [harity]
  have hends (n : Nat) : Ends d.result.toList.length ⟨.empty, heap, []⟩
      ((outermost d).at (nums ++ ((d.slots.drop d.params.length).map Ty.valType).map Number.zero) code)
      (n - 1) (q.run host capacity n d.name args heap) := by
    cases n with
    | zero => exact Machine.Lasts.zero _
    | succ n =>
      rw [Program.run_succ hfind]
      exact enter_ends rfl (hcarries _ rfl) hpassed.length.1 hfill hm
  refine ⟨⟨returned_iff hends,trapped_iff hends,diverges_iff hends⟩,slots,hfill,?_⟩
  intro limit call rest t hvisits
  have hfits : Fits d.result.toList.length (q.world host capacity d.slots limit call) S :=
    ⟨rfl,hstrict,rfl⟩
  exact block_reaches hfits hvisits (outermost d) hscalar hfun.body hc hmake hm

open Scalar in
/-- The body of a function of the scalar core is compiled without fault, and for all arguments its code
returns the value that the function returns, traps if and only if it traps and runs forever if and only
if it does. At every boundary between statements the local of each slot shows the value of its
variable. -/
theorem Program.scalar_body_correct (z : Optimize.Solver) (o : Options) (p : Program) (hwritten : p.Written)
    (haccepted : (p.check o.shadowing).accepted = true) (d : FunctionDecl)
    (hd : d ∈ (p.prepared z o).functions) (hscalar : d.body.isScalar = true) (pool : Memory.Pool) :
    ∃ b, Lower.function (Lower.context o (p.prepared z o)) d pool = .ok (b, pool) ∧
      ∀ (host : Host) (capacity : Nat) (heap : Heap) (args : List Val) (nums : List Number),
        Passed d.params args nums →
        let q := p.prepared z o
        let arity := b.type.results.length
        let start : Config := ⟨[], nums ++ b.locals.map Number.zero, [], b.code⟩
        (∀ v heap' trace, q.Yields host capacity d.name args heap (.returned v heap' trace) ↔
          heap' = heap ∧ trace = [] ∧ ∃ xs, Answers v xs ∧ Comes arity start (.returned xs)) ∧
        ((∃ k heap' trace, q.Yields host capacity d.name args heap (.trapped k heap' trace)) ↔
          Comes arity start .trapped) ∧
        (q.Diverges host capacity d.name args heap ↔ Machine.Runs arity start) ∧
        ∃ slots, Slots.empty.fill d.slots 0 args = some slots ∧ ∀ limit call rest t,
          Visits (q.world host capacity d.slots limit call) d.body.statements ⟨slots, heap, []⟩ rest t →
            Reaches arity d.slots start rest t := by
  obtain ⟨b,hb,hruns⟩ := scalar_body_performs (typed_of_accepted haccepted) hwritten hd hscalar pool
  refine ⟨b,hb,fun host capacity heap args nums hpassed => ?_⟩
  obtain ⟨⟨hreturned,htrapped,hdiverges⟩,hvisits⟩ := hruns host capacity heap args nums hpassed
  exact ⟨hreturned,htrapped,hdiverges,hvisits⟩

open Scalar in
/-- Optimised or not, the code does what the function does in the program that was accepted, whatever sound prover
has a part in it. -/
theorem Program.scalar_body_original {z : Optimize.Solver} {o : Options} {p : Program} (hwritten : p.Written)
    (hsized : ∀ d ∈ p.enums, d.variants.length ≤ maxWord.toNat) (haccepted : (p.check o.shadowing).accepted = true)
    (hr : (o.prover z).Sound)
    (hsteady : ∀ d ∈ (p.check o.shadowing).program.functions, Optimize.AllSteady (o.prover z) d.body.chains)
    {d : FunctionDecl} (hd : d ∈ (p.prepared z o).functions) (hscalar : d.body.isScalar = true)
    (pool : Memory.Pool) :
    ∃ b, Lower.function (Lower.context o (p.prepared z o)) d pool = .ok (b, pool) ∧
      ∀ (host : Host) (capacity : Nat) (heap : Heap) (args : List Val) (nums : List Number),
        Passed d.params args nums → (p.check o.shadowing).program.Performs host capacity d.name args heap
          b.type.results.length ⟨[], nums ++ b.locals.map Number.zero, [], b.code⟩ := by
  have hrun (host : Host) (capacity n : Nat) (args : List Val) (heap : Heap) :
      (p.prepared z o).run host capacity n d.name args heap =
        (p.check o.shadowing).program.run host capacity n d.name args heap := by
    rw [prepared]
    split
    · exact run_optimize hwritten hsized haccepted hr hsteady host capacity n d.name args heap
    · rfl
  obtain ⟨b,hb,hruns⟩ := scalar_body_performs (typed_of_accepted haccepted) hwritten hd hscalar pool
  refine ⟨b,hb,fun host capacity heap args nums hpassed => ?_⟩
  have hperforms := (hruns host capacity heap args nums hpassed).1
  simp only [Performs, Yields, Diverges, hrun] at hperforms
  exact hperforms

/-- `fn run(n: Integer) -> Integer { let s: Integer = 0; while true { if n <= 0 { break; } n = n - 1;
if n % 2 == 0 { continue; } s = s + n; } return s; }` -/
def summing : Program :=
  let pos : Pos := .unknown
  let note : Note := ⟨pos, none⟩
  let n : Expr := .name note "n" none
  let s : Expr := .name note "s" none
  ⟨pos, [.function ⟨pos, "run", [⟨pos, "n", .integer⟩], some .integer, .mk pos
    [.bind pos "s" (some .integer) (.int note 0) none,
      .loop pos (.bool note true) (.mk pos
        [.cond pos (.branch pos (.binary note .le n (.int note 0)) (.mk pos [.leave pos]) .stop),
          .assign pos n (.binary note .sub n (.int note 1)),
          .cond pos (.branch pos (.binary note .eq (.binary note .rem n (.int note 2)) (.int note 0))
            (.mk pos [.next pos]) .stop),
          .assign pos s (.binary note .add s n)]),
      .ret pos (some s)], []⟩], none⟩

theorem summing_written : summing.Written where
  functions := by
    rintro f (_ | ⟨_,⟨⟩⟩)
    exact ⟨⟨by decide,by decide⟩,
      by simp [Block.Every, Stmt.EveryIn, Stmt.Every, Chain.Every, Expr.Every, written, Ty.isProper,
        Build.isPlace]⟩
  records := by rintro r ⟨⟩
  constants := by rintro c ⟨⟩

open Scalar in
theorem scalar_body_correct_summing : (summing.check .warn).accepted = true ∧
    ∃ d b, d ∈ (summing.prepared unaided .withoutProofs).functions ∧ d.body.isScalar = true ∧
      Lower.function (Lower.context .withoutProofs (summing.prepared unaided .withoutProofs)) d .empty =
        .ok (b, .empty) ∧
      Comes b.type.results.length ⟨[], [.i64 2] ++ b.locals.map Number.zero, [], b.code⟩
        (.returned [.i64 1]) := by
  have haccepted : (summing.check .warn).accepted = true := by decide +kernel
  obtain ⟨d,hfunctions,hname,hscalar,hparams⟩ : ∃ d, (summing.prepared unaided .withoutProofs).functions = [d] ∧
      d.name = "run" ∧ d.body.isScalar = true ∧ d.params = [⟨.unknown, "n", .integer⟩] :=
    ⟨_,rfl,rfl,by decide,rfl⟩
  have hd : d ∈ (summing.prepared unaided .withoutProofs).functions := by simp [hfunctions]
  have hyields : (summing.prepared unaided .withoutProofs).Yields quietHost 16 "run" [.int 2] []
      (.returned (some (.int 1)) [] []) := ⟨4,by decide +kernel⟩
  obtain ⟨b,hb,hruns⟩ := Program.scalar_body_correct unaided .withoutProofs summing summing_written haccepted d hd
    hscalar .empty
  refine ⟨haccepted,d,b,hd,hscalar,hb,?_⟩
  have hpassed : Passed d.params [.int 2] [.i64 2] := by
    rw [hparams]
    exact ⟨.word _,trivial⟩
  obtain ⟨-,-,xs,hxs,hcomes⟩ := ((hruns quietHost 16 [] [.int 2] [.i64 2] hpassed).1 _ _ _).mp
    (hname ▸ hyields)
  cases hxs
  exact hcomes

end Covenant
