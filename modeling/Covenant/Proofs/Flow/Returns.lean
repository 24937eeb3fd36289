import Covenant.Proofs.Flow.Checking
import Covenant.Proofs.Flow.Optimizing
import Covenant.Proofs.Optimizer.Program

/-! A function with a result returns a value, whatever way control takes through its body. -/

namespace Covenant

def FunctionDecl.Returns (d : FunctionDecl) : Prop :=
  d.result.isSome = true → ∀ k, d.body.flow k → k = .ret true

namespace Check

variable {env : Env} {s : State}

theorem Exits.returns {f : Flow} {l : List Bool} {r : Current} (hf : Exits env f [] l)
    (hcur : env.current = some r) (hr : r.result.isSome = true) (hdone : ¬ f .done) :
    ∀ k, f k → k = .ret true := by
  intro k hk
  have hallowed := hf.allowed k hk
  rw [hf.of_nil] at hallowed
  cases k with
  | done => exact absurd hk hdone
  | leave => cases hallowed
  | next => exact absurd rfl hallowed
  | ret b =>
    obtain ⟨g,hg,hb⟩ := hallowed
    cases hcur.symm.trans hg
    rw [← hb,hr]

theorem FunctionAccepted.returns {u : State} {f f' : FunctionDecl} (h : FunctionAccepted env s f f' u)
    (hs : s.loops = []) : f'.Returns := by
  obtain @⟨ss,ends,u,hss,hends⟩ := h
  intro hresult
  obtain ⟨hexits,hstop⟩ := hss.exits
  rw [hs] at hexits
  exact hexits.returns rfl hresult ((hstop (hends hresult)).resolve_left Bool.false_ne_true)

end Check

open Meaning (Host Heap Val Event Trap World)
open Optimize (Prover)

namespace Program

variable {p : Program}

theorem returns_of_accepted {policy : Policy} (h : (p.check policy).accepted = true) :
    ∀ d ∈ (p.check policy).program.functions, d.Returns := by
  refine check_each (K := fun _ _ => True) (P := fun _ d => d.Returns) h (fun env => ?_)
    fun env _ f s hs => ?_
  · exact Check.constants_grow p.items
  · intro hc
    obtain ⟨hcs,haccepted⟩ := Check.function_accepts f hc
    exact ⟨hcs,trivial,haccepted.returns (hs hcs).1⟩

theorem returns_optimizeWith (r : Prover) (h : ∀ d ∈ p.functions, d.Returns) :
    ∀ d ∈ (p.optimizeWith r).value.functions, d.Returns := by
  intro d hd
  rw [functions_optimizeWith] at hd
  obtain ⟨e,he,rfl⟩ := List.mem_map.mp hd
  exact fun hresult k hk => h e he hresult k (Optimize.block_flow r e.body k hk)

theorem calls_end (h : ∀ d ∈ p.functions, d.Returns) (host : Host) (capacity n : Nat) (f : String)
    (args : List Val) : (p.calls host capacity n f args).Ends .returning := by
  induction n generalizing f args with
  | zero => exact .late
  | succ n ih =>
    rw [calls]
    split
    · exact .stuck
    · rename_i d hd
      have hbody := Meaning.block_returns (w := p.world host capacity d.slots n (p.calls host capacity n)) ih d.body
      refine Meaning.enter_ends (fun s k t hrun => ?_) (fun hresult s a t hrun => ?_) args
      · have hs := hbody s
        rw [hrun] at hs
        exact hs.2
      · have hs := hbody s
        rw [hrun] at hs
        cases h d (List.mem_of_find?_eq_some hd) hresult _ hs.2

theorem trap_ne_noReturn (h : ∀ d ∈ p.functions, d.Returns) {host : Host} {capacity : Nat} {f : String}
    {args : List Val} {heap heap' : Heap} {t : Trap} {trace : List Event}
    (hrun : p.Yields host capacity f args heap (.trapped t heap' trace)) : t ≠ .noReturn := by
  obtain ⟨n,hn⟩ := hrun
  have hends := calls_end h host capacity n f args ⟨.empty, heap, []⟩
  rw [run] at hn
  cases hr : p.calls host capacity n f args ⟨.empty, heap, []⟩ with
  | trap k s =>
    rw [hr] at hn hends
    cases hn
    exact hends.2
  | done | jump | stuck | late =>
    rw [hr] at hn
    cases hn

/-- In an accepted program, and in what any optimiser makes of it, control leaves the body of a function
with a result only by returning a value. No run ends because a function has come to its end without one. -/
theorem functions_return (policy : Policy) (p : Program) (haccepted : (p.check policy).accepted = true)
    (r : Prover) :
    ∀ q ∈ [(p.check policy).program, ((p.check policy).program.optimizeWith r).value],
      (∀ d ∈ q.functions, d.result.isSome = true → ∀ k, d.body.flow k → k = .ret true) ∧
      ∀ (host : Host) (capacity : Nat) (f : String) (args : List Val) (heap heap' : Heap) (t : Trap)
        (trace : List Event), q.Yields host capacity f args heap (.trapped t heap' trace) → t ≠ .noReturn := by
  have hchecked := returns_of_accepted haccepted
  have hboth {q : Program} (hq : ∀ d ∈ q.functions, d.Returns) :
      (∀ d ∈ q.functions, d.Returns) ∧ ∀ (host : Host) (capacity : Nat) (f : String) (args : List Val)
        (heap heap' : Heap) (t : Trap) (trace : List Event),
        q.Yields host capacity f args heap (.trapped t heap' trace) → t ≠ .noReturn :=
    ⟨hq,fun _ _ _ _ _ _ _ _ => trap_ne_noReturn hq⟩
  intro q hq
  rcases List.mem_pair.mp hq with rfl | rfl
  · exact hboth hchecked
  · exact hboth (returns_optimizeWith r hchecked)

end Program

/-- `fn run(n: Integer) -> Integer { while true { match n { 0 => { return 7; }, _ => { n = n - 1; } }; } }` -/
def countdown : Program :=
  let pos : Pos := .unknown
  let note : Note := ⟨pos, none⟩
  let n : Expr := .name note "n" none
  ⟨pos, [.function ⟨pos, "run", [⟨pos, "n", .integer⟩], some .integer, .mk pos
    [.loop pos (.bool note true) (.mk pos [.expr pos (.select note n
      [.mk pos ⟨pos, .int 0⟩ (.block note [.ret pos (some (.int note 7))] none false),
        .mk pos ⟨pos, .wild⟩ (.block note [.assign pos n (.binary note .sub n (.int note 1))] none false)])])],
    []⟩], none⟩

theorem functions_return_countdown : (countdown.check .warn).accepted = true ∧
    ∃ d ∈ (countdown.check .warn).program.functions, d.result = some .integer ∧
      ∀ k, d.body.flow k → k = .ret true := by
  have haccepted : (countdown.check .warn).accepted = true := by decide
  obtain ⟨d,hd,hresult⟩ : ∃ d ∈ (countdown.check .warn).program.functions, d.result = some .integer :=
    ⟨_,.head _,rfl⟩
  obtain ⟨hreturns,-⟩ := Program.functions_return .warn countdown haccepted Optimize.idle _ (.head _)
  exact ⟨haccepted,d,hd,hresult,hreturns d hd (by rw [hresult]; rfl)⟩

end Covenant
