import Covenant.Proofs.Scoping.Checking
import Covenant.Proofs.Typing.Annotating
import Covenant.Proofs.Typing.Functions

/-! The names of an accepted program. Resolving the body of a function by itself, with only the constants and
the parameters in sight, gives each name the symbol and each variable the slot that it has. -/

namespace Covenant

open Scoping (Names)

/-- A function whose names are what a resolver makes of them, and whose slots are its variables in the order
of their declarations. -/
def FunctionDecl.Resolved (globals : List Symbol) (d : FunctionDecl) : Prop :=
  ∃ n : Names, Scoping.stmts (Scoping.params globals d.params) d.body.statements = some (d.body.statements, n) ∧
    (Scoping.params globals d.params).declared <+: n.declared ∧
    n.declared.map (·.slot) = (List.range d.slots.length).map some ∧ n.declared.map (·.type) = d.slots

namespace Check

variable {env : Env} {s : State} {n : Names}

theorem agrees_begin (c : Scope) : Agrees (c.beginFunction.push false) ⟨c.globals, []⟩ :=
  ⟨rfl,rfl,rfl,List.cons_ne_nil _ _⟩

theorem withParams_moves {c : Scope} (hn : Agrees c n) (ps : List Param) :
    Moves c n (withParams c ps) (ps.foldl (fun n p => n.declare p.name p.type .param true) n) := by
  induction ps generalizing c n with
  | nil => exact .here hn
  | cons p ps ih =>
    have hfirst := Moves.declare hn p.name p.type .param true
    exact hfirst.trans (ih hfirst.agrees)

theorem FunctionAccepted.resolved {globals : List Symbol} {u : State} {f f' : FunctionDecl}
    (h : FunctionAccepted env s f f' u) (hs : s.scope.globals = globals) :
    u.scope.globals = globals ∧ f'.Resolved globals := by
  subst hs
  obtain @⟨ss,ends,u,hss,-⟩ := h
  have hparams := withParams_moves (agrees_begin s.scope) f.params
  obtain ⟨m,hrun,hmoves⟩ := hss.resolves hparams.agrees
  refine ⟨hmoves.globals.trans hparams.globals,m,hrun,hmoves.declared,?_,hmoves.agrees.types⟩
  rw [hmoves.agrees.slots,hmoves.agrees.length]

theorem function_resolved {globals : List Symbol} (f : FunctionDecl)
    (hs : s.Clean → s.scope.globals = globals) :
    Ends s (function env f) fun f' u => u.scope.globals = globals ∧ f'.Resolved globals := by
  intro hc
  obtain ⟨hcs,haccepted⟩ := function_accepts f hc
  exact ⟨hcs,haccepted.resolved (hs hcs)⟩

theorem ConstantAccepted.resolves {u : State} {c c' : ConstDecl} (h : ConstantAccepted env s c c' u) :
    ∃ m, Scoping.expr ⟨s.scope.globals, []⟩ c'.value = some (c'.value, m) := by
  obtain ⟨-,-,-,he,-⟩ := h
  obtain ⟨m,hrun,-⟩ := he.resolves (agrees_begin s.scope)
  exact ⟨m,hrun⟩

theorem ConstantAccepted.globals {u : State} {c c' : ConstDecl} (h : ConstantAccepted env s c c' u) :
    u.scope.globals = ⟨c'.name, c'.type, false, .constant, none,
      c'.value.constant? fun x => (s.scope.globals.find? (·.name = x)).bind (·.value)⟩ :: s.scope.globals := by
  obtain @⟨d,t,a,u,-,-,-,he,-⟩ := h
  obtain ⟨m,-,hmoves⟩ := he.resolves (agrees_begin s.scope)
  have hglobals : u.scope.globals = s.scope.globals := hmoves.globals
  have hknown : constantValue? u = fun x => (s.scope.globals.find? (·.name = x)).bind (·.value) := by
    funext x
    rw [← hglobals]
    rfl
  rw [← hknown,← hglobals]
  rfl

theorem constants_globals (is : List Item) :
    Ends s (constants env is) fun is' u => u.scope.globals = (constantsOf is').foldl (fun known c =>
      ⟨c.name, c.type, false, .constant, none,
        c.value.constant? fun x => (known.find? (·.name = x)).bind (·.value)⟩ :: known) s.scope.globals := by
  induction is generalizing s with
  | nil => exact .pure fun _ => rfl
  | cons i is ih =>
    cases i with
    | constant c =>
      refine .bind (constant_accepts c) fun c' t ht => .bind ih fun is' u hu => .pure fun hc => ?_
      obtain ⟨hc,hrest⟩ := hu hc
      rw [hrest,(ht hc).2.globals]
      rfl
    | function | record | enum => exact .bind ih fun is' u hu => .pure fun hc => (hu hc).2

end Check

theorem Program.check_resolved {policy : Policy} {p : Program} (h : (p.check policy).accepted = true) :
    ∀ d ∈ (p.check policy).program.functions,
      d.Resolved (Scoping.constantSymbols (p.check policy).program.constants) :=
  check_each (K := fun cs s => s.scope.globals = Scoping.constantSymbols cs)
    (P := fun cs d => d.Resolved (Scoping.constantSymbols cs)) h (fun _ => Check.constants_globals p.items)
    fun _ _ f _ hs => Check.function_resolved f fun hc => (hs hc).2

open Scoping in
/-- Names mean what lexical scoping says, and slots are the variables of a function. A checked program is the
one that was read, but for what checking adds. Going through the body of a function with the constants and
parameters in sight, a resolver finds for every name that is read or assigned the symbol that it carries, and
gives every `let`, `for` and pattern the slot that it has. The variables come in the order of their
declarations, the parameters first; they have the slots from zero on, each with the type of its variable. -/
theorem Program.names_resolved (policy : Policy) (p : Program) (haccepted : (p.check policy).accepted = true) :
    (p.check policy).program.bare = p.bare ∧ ∀ d ∈ (p.check policy).program.functions, ∃ n : Names,
      stmts (params (constantSymbols (p.check policy).program.constants) d.params) d.body.statements =
        some (d.body.statements, n) ∧
      (params (constantSymbols (p.check policy).program.constants) d.params).declared <+: n.declared ∧
      n.declared.map (·.slot) = (List.range d.slots.length).map some ∧
      n.declared.map (·.type) = d.slots :=
  ⟨check_bare haccepted,check_resolved haccepted⟩

/-- `const x: Integer = 1; fn run(a: Integer) -> Integer { let y = x; let x = x + y; for a in [x] { match
Some(a) { Some(x) => { y = x; }, None => {} }; } return x; }` -/
def shadowing : Program :=
  let pos : Pos := .unknown
  let note : Note := ⟨pos, none⟩
  let a : Expr := .name note "a" none
  let x : Expr := .name note "x" none
  let y : Expr := .name note "y" none
  ⟨pos, [.constant ⟨pos, "x", .integer, .int note 1⟩,
    .function ⟨pos, "run", [⟨pos, "a", .integer⟩], some .integer, .mk pos
      [.bind pos "y" none x none, .bind pos "x" none (.binary note .add x y) none,
        .each pos "a" (.array note [x]) (.mk pos [.expr pos (.select note (.wrap note .some a)
          [.mk pos ⟨pos, .some (some ⟨"x", none⟩)⟩ (.block note [.assign pos y x] none false),
            .mk pos ⟨pos, .none⟩ (.block note [] none false)])]) none,
        .ret pos (some x)], []⟩], none⟩

theorem names_resolved_shadowing : (shadowing.check .warn).accepted = true ∧
    ∃ d ∈ (shadowing.check .warn).program.functions, ∃ n : Names,
      Scoping.stmts (Scoping.params (Scoping.constantSymbols (shadowing.check .warn).program.constants) d.params)
        d.body.statements = some (d.body.statements, n) ∧
      n.declared.map (·.name) = ["a", "y", "x", "a", "x"] ∧
      n.declared.map (·.slot) = (List.range d.slots.length).map some := by
  have haccepted : (shadowing.check .warn).accepted = true := by decide +kernel
  have hnames : (shadowing.check .warn).program.functions.map (fun d =>
      (Scoping.stmts (Scoping.params (Scoping.constantSymbols (shadowing.check .warn).program.constants) d.params)
        d.body.statements).map fun r => r.2.declared.map (·.name)) = [some ["a", "y", "x", "a", "x"]] := by
    decide +kernel
  obtain ⟨d,hd,hnames⟩ := List.map_eq_singleton_iff.mp hnames
  have hmem : d ∈ (shadowing.check .warn).program.functions := by rw [hd]; exact .head _
  obtain ⟨n,hrun,-,hslots,-⟩ := (Program.names_resolved .warn shadowing haccepted).2 d hmem
  rw [hrun] at hnames
  exact ⟨haccepted,d,hmem,n,hrun,Option.some.inj hnames,hslots⟩

end Covenant
