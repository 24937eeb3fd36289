import Covenant.Proofs.Lower.Outcome

/-! Branches in the code of functions. Every branch goes to a construct around it: the jumps of a loop body go to
the exit of the loop or to the end of the body. -/

namespace Covenant

open Lower

theorem Program.prepared_rounded {z : Optimize.Solver} {o : Options} {p : Program} (hwritten : p.Written)
    (haccepted : (p.check o.shadowing).accepted = true) {d : FunctionDecl} (hd : d ∈ (p.prepared z o).functions)
    (pool : Memory.Pool) :
    (∀ j pos, function (context o (p.prepared z o)) d pool ≠ .error (.jumpOutside j pos)) ∧
    ∀ b pool', function (context o (p.prepared z o)) d pool = .ok (b, pool') →
      Rounded (context o (p.prepared z o)) d b := by
  have hall := function_outcome (o := o) (typed_of_accepted haccepted) hwritten hd pool
  rw [Outcome] at hall
  split at hall
  · obtain ⟨r,hr,hrounded⟩ := hall
    rw [hr]
    refine ⟨fun j pos h => ?_,fun b pool' h => ?_⟩
    · cases h
    · cases h
      exact hrounded
  · rename_i f hfind
    obtain ⟨hazard,-,hfault⟩ := List.exists_of_findSome?_eq_some hfind
    rw [hall]
    refine ⟨fun j pos h => ?_,fun b pool' h => ?_⟩
    · cases h
      rcases hazard.fault?_eq_some hfault with h | ⟨t,h⟩ <;> cases h
    · cases h

/-- In the code of a function all constructs are closed and all branches go to constructs around them. Seen
from the bodies of its loops, the branches that leave them are the jumps in those bodies: `break` goes to
the exit block of the loop, and `continue` to the block of the body. -/
theorem Program.jumps_reach_loops (z : Optimize.Solver) (o : Options) (p : Program) (hwritten : p.Written)
    (haccepted : (p.check o.shadowing).accepted = true) (d : FunctionDecl)
    (hd : d ∈ (p.prepared z o).functions) (pool : Memory.Pool) :
    (∀ j pos, function (context o (p.prepared z o)) d pool ≠ .error (.jumpOutside j pos)) ∧
    (∀ c, Context.Within { context o (p.prepared z o) with slots := d.slots, depth := 0, loop := none } c →
      ∀ l, c.loop = some l → l.leave < c.depth ∧ l.next < c.depth) ∧
    ∀ b pool', function (context o (p.prepared z o)) d pool = .ok (b, pool') →
      scan [] (Instr.piecesOf b.code) = some [] ∧ Instr.outsOf b.code = [] ∧
        List.Forall₂ BodyCode d.body.loops (Instr.bodiesOf b.code) := by
  obtain ⟨hinside,hcode⟩ := prepared_rounded hwritten haccepted hd pool
  refine ⟨hinside,fun c hc => hc.levels rfl,fun b pool' hb => ?_⟩
  obtain ⟨houts,hbodies,-⟩ := hcode b pool' hb
  refine ⟨?_,houts,hbodies⟩
  have hscan := scan_piecesOf b.code [] [] (by simp [houts])
  rwa [List.append_nil] at hscan

/-- `while true { while match x { 1 => { break; }, _ => true } { continue; } } return 7;`, where the
`break` leaves the outer loop. -/
def leaving : List Stmt :=
  let pos : Pos := .unknown
  let note : Note := ⟨pos, none⟩
  .loop pos (.bool note true) (.mk pos [.loop pos
    (.select note (.name note "x" none)
      [.mk pos ⟨pos, .int 1⟩ (.block note [.leave pos] none false), .mk pos ⟨pos, .wild⟩ (.bool note true)])
    (.mk pos [.next pos])]) :: early

theorem choosing_leaving_written : (choosing leaving).Written where
  functions := by
    rintro f (_ | ⟨_,⟨⟩⟩)
    exact ⟨⟨by decide,by decide⟩,by simp [Block.Every, Stmt.EveryIn, Stmt.Every, Expr.Every, Arm.EveryIn,
      leaving, early, written]⟩
  records := by rintro r ⟨⟩
  constants := by rintro c ⟨⟩

theorem jumps_reach_loops_leaving : ((choosing leaving).check .warn).accepted = true ∧
    ∃ d b, d ∈ ((choosing leaving).prepared unaided .withoutProofs).functions ∧
      d.body.loops.map Block.jumps = [[.leave], [.next]] ∧
      function (context .withoutProofs ((choosing leaving).prepared unaided .withoutProofs)) d .empty =
        .ok (b, .empty) ∧
      scan [] (Instr.piecesOf b.code) = some [] ∧
      List.Forall₂ BodyCode d.body.loops (Instr.bodiesOf b.code) ∧
      (Instr.bodiesOf b.code).map Instr.outsOf = [[2], [0]] := by
  have haccepted : ((choosing leaving).check .warn).accepted = true := by decide
  obtain ⟨d,b,hd,hjumps,hb,houts⟩ : ∃ d b, d ∈ ((choosing leaving).prepared unaided .withoutProofs).functions ∧
      d.body.loops.map Block.jumps = [[.leave], [.next]] ∧
      function (context .withoutProofs ((choosing leaving).prepared unaided .withoutProofs)) d .empty =
        .ok (b, .empty) ∧ (Instr.bodiesOf b.code).map Instr.outsOf = [[2], [0]] :=
    ⟨_,_,.head _,rfl,rfl,rfl⟩
  obtain ⟨-,-,hcode⟩ := Program.jumps_reach_loops unaided .withoutProofs _ choosing_leaving_written haccepted d hd .empty
  obtain ⟨hscan,-,hbodies⟩ := hcode b .empty hb
  exact ⟨haccepted,d,b,hd,hjumps,hb,hscan,hbodies,houts⟩

end Covenant
