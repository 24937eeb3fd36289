import Covenant.Proofs.Optimizer.Program

/-! Which branch of an `if` runs. A prover takes the failed guards of a chain for granted when it looks at
a later one. That is right as long as no guard in between changes what they speak of; where one does, a
branch that would have run can be lost. -/

namespace Covenant

def Chain.guards : Chain → List Expr
  | .branch _ e _ rest => e :: rest.guards
  | _ => []

namespace Meaning

def chosen (w : World) (c : Chain) : Eval (Option Block) := pick w pure c

theorem pick_eq_chosen_bind {α : Type} (w : World) (k : Option Block → Eval α) (c : Chain) :
    pick w k c = chosen w c >>= k := by
  cases c with
  | stop | otherwise => rfl
  | branch _ e b rest =>
    show (truth (expr w e) >>= fun c => if c = true then k (some b) else pick w k rest) =
      (truth (expr w e) >>= fun c => if c = true then pure (some b) else chosen w rest) >>= k
    rw [bind_assoc,pick_eq_chosen_bind w k rest]
    congr 1
    funext c
    cases c <;> rfl

theorem chain_eq_chosen_bind (w : World) (c : Chain) : chain w c = chosen w c >>= runBody w := by
  rw [chain_eq_pick,pick_eq_chosen_bind]

end Meaning

namespace Optimize

open Guard (Formula)
open Meaning (World State Host pick runBody chosen)
open Typing (Site rule)

variable {r : Prover} {w : World} {S : Site}

theorem pick_same (h : Fits r w S) : ∀ (c : Chain) (l : Bool), c.Every (rule S) l →
    (∀ g ∈ c.guards, AllSteady r g.chains) → ∀ facts s, Ready r facts c s →
    pick w pure (chain r facts c).value s =
      pick w (fun b => pure (b.map fun b => (block r b).value)) c s
  | .stop, _, _, _, _, _, _ => rfl
  | .otherwise _, _, _, _, _, _, _ => rfl
  | .branch _ e _ rest, l, ⟨_,he,_,hrest⟩, hg, facts, s, hready => by
    have hguards := List.forall_mem_cons.mp hg
    exact pick_branch h.prover h.types h.apart (expr_kept r e l he).1
      ((same_walk h).onExpr e he hguards.1) rfl (pick_same h rest l hrest hguards.2) facts s hready

theorem chosen_chain (h : Fits r w S) {c : Chain} {l : Bool} (hc : c.Every (rule S) l)
    (hg : ∀ g ∈ c.guards, AllSteady r g.chains) (hs : ¬ r.Idle → Steady r [] c) :
    chosen w (chain r [] c).value = do return (← chosen w c).map fun b => (block r b).value := by
  funext s
  refine (pick_same h c l hc hg [] s fun hr => ⟨hs hr,fun _ => rfl⟩).trans ?_
  rw [Meaning.pick_eq_chosen_bind]

end Optimize

open Meaning Optimize

namespace Program

/-- The statements that take the place of an `if` go on to the same branch, or to none, in the same
state and with the same calls to the host, and trap where it traps: whatever the guards do, as long as
none of them changes what earlier guards have told. -/
theorem optimize_keeps_branch (r : Prover) (hr : r.Sound) (policy : Policy) (p : Program)
    (hwritten : p.Written) (hsized : ∀ d ∈ p.enums, d.variants.length ≤ maxWord.toNat)
    (haccepted : (p.check policy).accepted = true)
    (d : FunctionDecl) (hd : d ∈ (p.check policy).program.functions)
    (c : Chain) (hc : c ∈ d.body.chains) (hsteady : Steady r [] c)
    (hguards : ∀ c' ∈ c.guards.flatMap Expr.chains, Steady r [] c')
    (pos : Pos) (host : Host) (capacity limit n : Nat) :
    let w := (p.check policy).program.world host capacity d.slots limit
      ((p.check policy).program.calls host capacity n)
    Meaning.stmts w (Optimize.stmt r (.cond pos c)).value =
        chosen w (Optimize.chain r [] c).value >>= runBody w ∧
      chosen w (Optimize.chain r [] c).value =
        (do return (← chosen w c).map fun b => (Optimize.block r b).value) := by
  obtain ⟨htyped,henums⟩ := Program.check_typed haccepted
  have hfits := fits_world (p.check policy).program policy hr hwritten
    (fun d hd => hsized d (henums ▸ hd)) d host capacity limit n
  obtain ⟨l,hevery⟩ := (gather_walk nofun chains_obey nofun).onBlock d.body (htyped.functions d hd).body c hc
  have hsteadyGuards (g : Expr) (hg : g ∈ c.guards) : AllSteady r g.chains := fun _ c' hc' =>
    hguards c' (List.mem_flatMap.mpr ⟨g,hg,hc'⟩)
  refine ⟨?_,chosen_chain hfits hevery hsteadyGuards fun _ => hsteady⟩
  refine (stmts_ofChain _ pos (Optimize.chain r [] c).value).trans ?_
  exact chain_eq_chosen_bind _ _

end Program

def renewing (x : String) : Program :=
  let pos : Pos := .unknown
  let note : Note := ⟨pos, none⟩
  let answer (k : Int) : Stmt := .ret pos (some (.int note k))
  let positive : Expr := .binary note .gt (.name note "n" none) (.int note 0)
  let renewal : Expr := .block note [.assign pos (.name note x none) (.int note 5)]
    (some (.bool note false)) false
  ⟨pos, [.function ⟨pos, "run", [⟨pos, "n", .integer⟩, ⟨pos, "m", .integer⟩], some .integer, .mk pos
    [.cond pos (.branch pos positive (.mk pos [answer 1])
      (.branch pos (.select note (.name note "n" none) [.mk pos ⟨pos, .wild⟩ renewal]) (.mk pos [answer 2])
        (.branch pos positive (.mk pos [answer 3]) .stop))), answer 4], []⟩], none⟩

theorem renewing_written (x : String) : (renewing x).Written where
  functions := by
    rintro f (_ | ⟨_,⟨⟩⟩)
    exact ⟨⟨by simp [Ty.isProper],by simp [Ty.isProper]⟩,
      by simp [Block.Every, Stmt.EveryIn, Stmt.Every, Chain.Every, Expr.Every, Arm.EveryIn, written,
        Build.isPlace]⟩
  records := by rintro r ⟨⟩
  constants := by rintro c ⟨⟩

def positive : Guard.Formula := .lt (.const 0) (.var 0)

/-- Knows one thing: what has just been found false is not true. -/
def repeats : Prover := fun f => f = .conj [.not positive, positive]

theorem repeats_sound : repeats.Sound := by
  intro f hf v
  rw [of_decide_eq_true hf,Guard.Formula.eval_conj]
  simp [Guard.Formula.eval]

theorem optimize_keeps_branch_renewing :
    let q := ((renewing "m").check .warn).program
    ((renewing "m").check .warn).accepted = true ∧ (q.optimizeWith repeats).savings = ⟨0, 1⟩ ∧
      ∃ d ∈ q.functions, ∃ c ∈ d.body.chains, Steady repeats [] c ∧
        let w := q.world quietHost 16 d.slots 1 (q.calls quietHost 16 1)
        chosen w (Optimize.chain repeats [] c).value =
          (do return (← chosen w c).map fun b => (Optimize.block repeats b).value) := by
  have hsteady : ∃ d ∈ ((renewing "m").check .warn).program.functions, ∃ c ∈ d.body.chains,
      Steady repeats [] c ∧ c.guards.flatMap Expr.chains = [] := by
    refine ⟨_,.head _,_,.head _,?_,rfl⟩
    -- the guard in the middle writes to the second slot, the facts speak of the first
    rw [Steady,if_neg (by decide),if_neg (by decide)]
    refine ⟨fun h => (by cases h),?_⟩
    rw [Steady,if_neg (by decide),if_neg (by decide)]
    refine ⟨fun _ _ f hf i hi => ?_,?_⟩
    · obtain rfl := List.mem_singleton.mp hf
      obtain rfl := List.mem_singleton.mp hi
      have hassign : (some 1 : Option Nat) ≠ some 0 := by decide
      exact ⟨List.forall_mem_singleton.mpr fun h => (by cases h),trivial,
        ⟨trivial,⟨⟨hassign,trivial⟩,trivial⟩,trivial⟩,trivial⟩
    · rw [Steady,if_pos (by decide)]
      trivial
  obtain ⟨d,hd,c,hc,hs,hg⟩ := hsteady
  refine ⟨by decide,by decide,d,hd,c,hc,hs,?_⟩
  exact (Program.optimize_keeps_branch repeats repeats_sound .warn (renewing "m") (renewing_written "m")
    (by decide) (by decide) d hd c hc hs (by simp [hg]) .unknown quietHost 16 1 1).2

open Classical in
/-- Refutes all that has no solution. The first two formulas have one, and the third has none. -/
noncomputable def complete : Prover := fun f =>
  if f = .conj [positive] ∨ f = .conj [.not positive] then false
  else repeats f || decide f.Unsat

open Classical in
theorem complete_iff (f : Guard.Formula) : complete f = true ↔ f.Unsat := by
  unfold complete
  split
  · rename_i hf
    refine ⟨nofun,fun h => ?_⟩
    rcases hf with rfl | rfl
    · exact (h ⟨fun _ => 1,fun _ => false⟩).symm
    · exact (h ⟨fun _ => 0,fun _ => false⟩).symm
  · rw [Bool.or_eq_true,decide_eq_true_iff]
    exact ⟨fun h => h.elim (repeats_sound f) id,.inr⟩

/-- Where the guard in the middle sets the variable that the first one has asked for, the last branch
is lost, although the prover is never wrong. -/
theorem renewed_guard_loses_branch :
    ∃ r : Prover, (∀ f, r f = true ↔ f.Unsat) ∧
      let q := ((renewing "n").check .warn).program
      ((renewing "n").check .warn).accepted = true ∧
        q.Yields quietHost 16 "run" [.int 0, .int 0] [] (.returned (some (.int 3)) [] []) ∧
        (q.optimizeWith r).value.Yields quietHost 16 "run" [.int 0, .int 0] []
          (.returned (some (.int 4)) [] []) :=
  ⟨complete,complete_iff,by decide,⟨1,rfl⟩,⟨1,rfl⟩⟩

end Covenant
