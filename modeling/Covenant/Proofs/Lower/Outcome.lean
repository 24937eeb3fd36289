import Covenant.Proofs.Lower.Completeness
import Covenant.Proofs.Lower.Emission
import Covenant.Proofs.Lower.Validity

/-! What comes of lowering an accepted program. It fails in three cases only: a string literal is too long to have a
length, an item without equality is looked for, or the string literals do not fit in memory. -/

namespace Covenant

open Wasm Typing

namespace Lower

variable {p : Program} {policy : Policy} {o : Options} {strict : Prop} {d : FunctionDecl}

theorem provides_context (hd : d ∈ p.functions) : Provides (context o p) (blockHosts d.body) := by
  intro h hh
  have hmem : h ∈ p.functions.flatMap fun f => blockHosts f.body := List.mem_flatMap.mpr ⟨d,hd,hh⟩
  obtain ⟨g,hg,hname⟩ := exists_mem_distinctImports hmem
  have hsome : ((programImports p).findIdx? (·.importName = h.importName)).isSome = true := by
    rw [List.findIdx?_isSome]
    exact List.any_eq_true.mpr ⟨g,hg,decide_eq_true hname⟩
  exact Option.isSome_iff_exists.mp hsome

theorem ready_context (hp : p.Typed strict policy) :
    Ready (p.site policy strict d) false { context o p with slots := d.slots, depth := 0, loop := none } where
  served :=
    { slots := rfl
      records := fun x => find?_reverse_of_nodup hp.recordNames x
      enums := fun x => find?_reverse_of_nodup hp.enumNames x
      targets := fun f sig hsig => by
        obtain ⟨i,e,hi,rfl,rfl⟩ := function_of_signature hsig
        exact ⟨_,target?_of_getElem? hp.functionNames rfl hi⟩
      sized := id }
  nested := .outermost rfl

/-- The code of a function leaves none of its constructs open, and its loops are those of the function. -/
structure Rounded (c : Context) (d : FunctionDecl) (b : Body) : Prop where
  outs : Instr.outsOf b.code = []
  bodies : List.Forall₂ BodyCode d.body.loops (Instr.bodiesOf b.code)
  small : c.Sized → isSmall b.code = true

theorem function_outcome (hp : p.Typed strict policy) (hs : strict)
    (hd : d ∈ p.functions) (pool : Memory.Pool) :
    Outcome d.body.hazards (function (context o p) d pool) fun r => Rounded (context o p) d r.1 := by
  obtain ⟨i,hi⟩ := List.mem_iff_getElem?.mp hd
  have htarget := target?_of_getElem? (c := context o p) hp.functionNames rfl hi
  have hblock := (completes_walk (S := p.site policy strict d) hs).onBlock d.body (hp.functions d hd).body _
    (ready_context (o := o) hp) (provides_context (o := o) hd) ⟨pool,#[]⟩
  have hall : Outcome (d.body.hazards ++ []) (function (context o p) d pool)
      fun r => Rounded (context o p) d r.1 := by
    refine hblock.bind fun r hr => ?_
    have htarget' : Context.target? { context o p with slots := d.slots, depth := 0, loop := none } d.name =
        _ := htarget
    rw [htarget']
    have hcode : Shape { context o p with slots := d.slots, depth := 0, loop := none } d.body.jumps d.body.loops
        (if d.result.isSome then r.1 ++ [Instr.trap] else r.1) := by
      split
      · exact hr.followed ⟨rfl,rfl,rfl,rfl⟩
      · exact hr
    have hjumps := hcode.jumps_eq_nil rfl
    rw [hjumps] at hcode
    exact .ok ⟨List.forall₂_nil_left_iff.mp hcode.outs,hcode.bodies,hcode.small⟩
  rwa [List.append_nil] at hall

theorem bodies_outcome (hp : p.Typed strict policy) (hs : strict) (ds : List FunctionDecl)
    (hds : ∀ d ∈ ds, d ∈ p.functions) (pool : Memory.Pool) :
    Outcome (ds.flatMap (·.body.hazards)) (bodies (context o p) ds pool) fun _ => True := by
  induction ds generalizing pool with
  | nil => exact .ok trivial
  | cons d ds ih =>
    obtain ⟨hd,hds⟩ := List.forall_mem_cons.mp hds
    refine (function_outcome hp hs hd pool).bind fun r _ => ?_
    exact (ih hds r.2).map (f := fun rest : List Body × Memory.Pool => (r.1 :: rest.1, rest.2))
      (R := fun _ => True) fun _ _ => trivial

theorem assemble_bytes (imports : List HostFunction) (entry base : Nat) (own : List Body)
    (pool : Memory.Pool) :
    ∃ bytes, (assemble o imports entry (own ++ (neededRoutines own).map routineBody) pool).bytes?
      (routineNumber base (neededRoutines own)) = some bytes := by
  refine Module.bytes?_of_routines _ fun f hf n hn => ?_
  have hbuilt := assemble_built o imports entry (own ++ (neededRoutines own).map routineBody) pool
  obtain ⟨b,hb,himpl⟩ := hbuilt.implements hf
  rw [himpl.code,routines_piecesOf] at hn
  obtain ⟨r,hr,rfl⟩ := List.mem_map.mp hn
  have hneeded : r ∈ neededRoutines own := by
    rcases List.mem_append.mp hb with hb | hb
    · exact mem_needed_of_code hb hr
    · obtain ⟨q,hq,rfl⟩ := List.mem_map.mp hb
      exact mem_needed_of_routine hq hr
  obtain ⟨k,hk,-⟩ := routineNumber_spec base hneeded
  rw [hk]
  rfl

end Lower

open Lower Memory

namespace Program

def literals (o : Options) (p : Program) : List String :=
  p.functions.flatMap (Lower.literals (context o p).linkage)

def dataPages (o : Options) (p : Program) : Nat :=
  max o.initialPages (Pool.empty.insertAll (p.literals o)).pages

variable {p : Program} {policy : Policy} {z : Optimize.Solver} {o : Options} {strict : Prop}

/-- Lowering fails at the first hazard with a fault, then if the literals do not fit, and in no other case. -/
theorem lower_outcome (hp : p.Typed strict policy) (hs : strict)
    (hentry : entryPoint ∈ p.functions.map (·.name)) :
    (∃ f, p.fault? = some f ∧ p.lower o = .error f) ∨
      p.fault? = none ∧
        (o.maxPages < p.dataPages o ∧ p.lower o = .error (.dataTooLarge (p.dataPages o) o.maxPages) ∨
          p.dataPages o ≤ o.maxPages ∧ ∃ image, p.lower o = .ok image) := by
  obtain ⟨d,hd,hname⟩ := List.mem_map.mp hentry
  obtain ⟨i,hi⟩ := List.mem_iff_getElem?.mp hd
  have htarget := target?_of_getElem? (c := context o p) hp.functionNames rfl hi
  rw [hname] at htarget
  have hbodies := bodies_outcome (o := o) hp hs p.functions (fun _ h => h) .empty
  have hfault : (p.functions.flatMap (·.body.hazards)).findSome? Hazard.fault? = p.fault? := rfl
  rw [Outcome,hfault] at hbodies
  cases hfind : p.fault? with
  | some f =>
    rw [hfind] at hbodies
    refine .inl ⟨f,rfl,?_⟩
    simp only [lower, htarget, hbodies, bind, Except.bind]
  | none =>
    rw [hfind] at hbodies
    obtain ⟨⟨own,pool⟩,hown,-⟩ := hbodies
    have hpool : pool = Pool.empty.insertAll (p.literals o) := (bodies_emit hown).1
    obtain ⟨bytes,hbytes⟩ := assemble_bytes (o := o) (programImports p) ((programImports p).length + i)
      ((programImports p).length + own.length) own pool
    refine .inr ⟨rfl,?_⟩
    rw [dataPages,← hpool]
    simp only [lower, htarget, hown, bind, Except.bind]
    by_cases hpages : o.maxPages < max o.initialPages pool.pages
    · rw [if_pos hpages]
      exact .inl ⟨hpages,rfl⟩
    · rw [if_neg hpages]
      have hbytes' : (assemble o (context o p).imports ((programImports p).length + i)
          (own ++ (neededRoutines own).map routineBody) pool).bytes?
          (routineNumber ((context o p).imports.length + own.length) (neededRoutines own)) = some bytes := hbytes
      rw [hbytes']
      exact .inr ⟨Nat.le_of_not_lt hpages,_,rfl⟩

theorem message?_fault {f : Fault} (h : p.fault? = some f) : f.message? = none ↔ f = .textTooLong := by
  obtain ⟨hazard,-,hfault⟩ := List.exists_of_findSome?_eq_some h
  rcases hazard.fault?_eq_some hfault with rfl | ⟨t,rfl⟩
  · exact iff_of_true rfl rfl
  · exact iff_of_false nofun nofun

theorem entry_prepared (h : (p.check o.shadowing).accepted = true) :
    entryPoint ∈ (p.prepared z o).functions.map (·.name) := by
  have hchecked := check_entry h
  rw [prepared]
  split
  · have hnames : ((p.check o.shadowing).program.optimize z o).value.functions.map (·.name) =
        (p.check o.shadowing).program.functions.map (·.name) := by
      rw [optimize,functions_optimizeWith,List.map_map]
      rfl
    rwa [hnames]
  · exact hchecked

/-- An accepted program has a module, unless its literals do not fit in memory or one of its hazards has a fault: a
text is too long to have a length, or an item of a type without equality is looked for in an array of which nothing is
known. The first of these is what lowering fails at. -/
theorem accepted_lowers (z : Optimize.Solver) (o : Options) (p : Program) (hwritten : p.Written)
    (haccepted : (p.check o.shadowing).accepted = true) :
    (∃ before h after f, (p.prepared z o).hazards = before ++ h :: after ∧ (∀ g ∈ before, g.fault? = none) ∧
        h.fault? = some f ∧ (p.prepared z o).lower o = .error f) ∨
      (∀ h ∈ (p.prepared z o).hazards, h.fault? = none) ∧
        (o.maxPages < (p.prepared z o).dataPages o ∧
            (p.prepared z o).lower o = .error (.dataTooLarge ((p.prepared z o).dataPages o) o.maxPages) ∨
          (p.prepared z o).dataPages o ≤ o.maxPages ∧ ∃ image, (p.prepared z o).lower o = .ok image) := by
  rcases lower_outcome (o := o) (typed_of_accepted haccepted) hwritten (entry_prepared haccepted) with
    ⟨f,hfault,hlower⟩ | ⟨hfault,hrest⟩
  · obtain ⟨before,h,after,hlist,hh,hbefore⟩ := List.findSome?_eq_some_iff.mp hfault
    exact .inl ⟨before,h,after,f,hlist,hbefore,hh,hlower⟩
  · exact .inr ⟨List.findSome?_eq_none_iff.mp hfault,hrest⟩

end Program

theorem accepted_lowers_early :
    ∃ image, ((choosing early).prepared unaided .default).lower .default = .ok image := by
  have hhazards : ((choosing early).prepared unaided .default).hazards = [] := rfl
  rcases Program.accepted_lowers unaided .default (choosing early) choosing_early_written (by decide) with
    ⟨before,h,after,f,hlist,-⟩ | ⟨-,⟨hlt,-⟩ | ⟨-,himage⟩⟩
  · rw [hhazards] at hlist
    exact absurd hlist (List.append_ne_nil_of_right_ne_nil _ (List.cons_ne_nil _ _)).symm
  · exact absurd hlt (by decide)
  · exact himage

/-- `fn run() -> Integer { if [].contains([1]) { return 1; } return 0; }` -/
def searching : Program :=
  let pos : Pos := .unknown
  let note : Note := ⟨pos, none⟩
  ⟨pos, [.function ⟨pos, "run", [], some .integer, .mk pos
    [.cond pos (.branch pos
      (.method note (.array note []) "contains" [.array note [.int note 1]] none)
      (.mk pos [.ret pos (some (.int note 1))]) .stop),
    .ret pos (some (.int note 0))], []⟩], none⟩

/-- Arrays have no equality, but checking lets them be looked for in an empty array. -/
theorem searching_no_equality : (searching.check .warn).accepted = true ∧
    (searching.prepared unaided .default).lower .default = .error (.noEquality (.array .integer)) :=
  ⟨by decide,rfl⟩

end Covenant
