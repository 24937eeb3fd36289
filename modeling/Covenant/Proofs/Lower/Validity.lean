import Covenant.Compile
import Covenant.Proofs.Lower.Program
import Covenant.Proofs.Optimizer.Program
import Covenant.Proofs.Wasm.Decoding

/-! The bodies of a compiled program, read from their bytes, are valid. Two things can stand in the way:
an open type where a value is wanted, and a number that does not fit its field. -/

namespace Covenant

open Wasm Lower

mutual

theorem Lower.Instr.pieces_isRaw : ∀ i : Instr, ∀ p ∈ i.pieces, p.isRaw = false
  | .op _ => by simp [Instr.pieces, Piece.isRaw]
  | .routine _ => by simp [Instr.pieces, Piece.isRaw]
  | .block _ b | .loop _ b => by
    have hb := piecesOf_isRaw b
    simpa [Instr.pieces, or_imp, forall_and, Piece.isRaw] using hb
  | .cond _ y none => by
    have hy := piecesOf_isRaw y
    simpa [Instr.pieces, or_imp, forall_and, Piece.isRaw] using hy
  | .cond _ y (some n) => by
    have hy := piecesOf_isRaw y
    have hn := piecesOf_isRaw n
    simpa [Instr.pieces, or_imp, forall_and, Piece.isRaw] using ⟨hy,hn⟩

theorem Lower.Instr.piecesOf_isRaw : ∀ is : List Instr, ∀ p ∈ Instr.piecesOf is, p.isRaw = false
  | [] => nofun
  | i :: is => fun p hp => (List.mem_append.mp hp).elim (pieces_isRaw i p) (piecesOf_isRaw is p)

end

namespace Program

variable {p : Program} {policy : Policy} {strict : Prop} {z : Optimize.Solver} {o : Options}

theorem env_optimizeWith (r : Optimize.Prover) (p : Program) (policy : Policy) :
    (p.optimizeWith r).value.env policy = p.env policy := by
  rw [env,env,functions_optimizeWith,records_optimizeWith,enums_optimizeWith,List.map_map]
  rfl

theorem Typed.optimizeWith (h : p.Typed strict policy) (r : Optimize.Prover) :
    (p.optimizeWith r).value.Typed strict policy where
  proper hs := env_optimizeWith r p policy ▸ h.proper hs
  functions f hf := by
    rw [functions_optimizeWith] at hf
    obtain ⟨d,hd,rfl⟩ := List.mem_map.mp hf
    rw [env_optimizeWith]
    have hbody := (h.functions d hd).body
    exact ⟨(h.functions d hd).params,Optimize.block_kept r d.body false hbody⟩
  functionNames := by
    rw [functions_optimizeWith,List.map_map]
    exact h.functionNames
  recordNames := records_optimizeWith r p ▸ h.recordNames
  enumNames := enums_optimizeWith r p ▸ h.enumNames

def prepared (z : Optimize.Solver) (o : Options) (p : Program) : Program :=
  let checked := (p.check o.shadowing).program
  if o.optimize then (checked.optimize z o).value else checked

theorem typed_of_accepted (h : (p.check o.shadowing).accepted = true) :
    (p.prepared z o).Typed p.Written o.shadowing := by
  obtain ⟨htyped,-⟩ := Program.check_typed h
  rw [prepared]
  split
  · exact htyped.optimizeWith (o.prover z)
  · exact htyped

theorem prepared_sized (hsized : ∀ d ∈ p.enums, d.variants.length ≤ maxWord.toNat)
    (h : (p.check o.shadowing).accepted = true) : ((p.prepared z o).env o.shadowing).Sized := by
  have henums : (p.prepared z o).enums = p.enums := by
    rw [prepared]
    split
    · exact (enums_optimizeWith ..).trans (Program.check_typed h).2
    · exact (Program.check_typed h).2
  show ∀ d ∈ (p.prepared z o).enums, d.variants.length ≤ maxWord.toNat
  rwa [henums]

theorem compile_spec {out : Compiled} (h : p.compile z o = .ok out) :
    (p.check o.shadowing).accepted = true ∧
      ∃ image, (p.prepared z o).lower o = .ok image ∧ out.bytes = image.bytes := by
  unfold compile at h
  dsimp only at h
  split at h
  · cases h
  · rename_i hstray
    split at h
    · cases h
    · rename_i herrors
      have haccepted : (p.check o.shadowing).accepted = true := by
        simp only [Checked.accepted, Bool.and_eq_true]
        exact ⟨by simpa using herrors,by simpa using hstray⟩
      refine ⟨haccepted,?_⟩
      split at h
      · cases h
      · rename_i image hl
        cases h
        exact ⟨image,hl,rfl⟩

end Program

theorem Wasm.Function.bytes?_of_mapM {number : String → Option Nat} {fs : List Wasm.Function}
    {bodies : List (List UInt8)} (h : fs.mapM (Function.bytes? number) = some bodies)
    {f : Wasm.Function} (hf : f ∈ fs) : ∃ body, f.bytes? number = some body := by
  induction fs generalizing bodies with
  | nil => cases hf
  | cons e es ih =>
    rw [List.mapM_cons] at h
    obtain ⟨b,hb,hrest⟩ := Option.bind_eq_some_iff.mp h
    obtain ⟨bs,hbs,-⟩ := Option.bind_eq_some_iff.mp hrest
    rcases List.mem_cons.mp hf with rfl | hf
    · exact ⟨b,hb⟩
    · exact ih hbs hf

/-- Every body of a compiled program can be read back exactly if its numbers fit their fields, and what
is read is valid, provided no open type is left where a value is wanted. -/
theorem Program.compile_bodies_valid (z : Optimize.Solver) (o : Options) (p : Program) (out : Compiled)
    (hwritten : p.Written) (hcompile : p.compile z o = .ok out) (hsettled : (p.prepared z o).Settled o.shadowing) :
    ∃ (m : Module) (number : String → Option Nat), m.bytes? number = some out.bytes ∧ ∀ f ∈ m.functions, ∃ body,
      f.bytes? number = some body ∧ ((readBody body).isSome = true ↔ f.inRange number = true) ∧
      ∀ locals code, readBody body = some (locals, code) →
        m.isValidBody (fun _ => none) ⟨f.type, locals, code⟩ = true := by
  obtain ⟨haccepted,image,hlower,hbytes⟩ := compile_spec hcompile
  obtain ⟨number,hmodule,hvalid⟩ :=
    lower_isValid (typed_of_accepted haccepted) hwritten hsettled hlower
  refine ⟨image.module,number,hbytes ▸ hmodule,fun f hf => ?_⟩
  obtain ⟨bodies,hbodies,-⟩ := Option.map_eq_some_iff.mp hmodule
  obtain ⟨body,hbody⟩ := Function.bytes?_of_mapM hbodies hf
  obtain ⟨hf,is,his⟩ := hvalid f hf
  have hread := readBody_bytes hbody fun q hq => Instr.piecesOf_isRaw is q (his ▸ hq)
  refine ⟨body,hbody,?_,fun locals code heq => ?_⟩
  · rw [hread]
    split <;> simp_all
  · rw [hread] at heq
    obtain ⟨-,heq⟩ := Option.ite_none_right_eq_some.mp heq
    cases heq
    rw [Module.isValidBody_resolve] at hf
    exact hf

/-- `fn run(x: Integer) -> Integer { return match x { 1 => { .. }, _ => 5 }; }` -/
def choosing (arm : List Stmt) : Program :=
  let pos : Pos := .unknown
  let note : Note := ⟨pos, none⟩
  ⟨pos, [.function ⟨pos, "run", [⟨pos, "x", .integer⟩], some .integer, .mk pos
    [.ret pos (some (.select note (.name note "x" none)
      [.mk pos ⟨pos, .int 1⟩ (.block note arm none false), .mk pos ⟨pos, .wild⟩ (.int note 5)]))], []⟩],
    none⟩

/-- `return 7;` -/
def early : List Stmt := [.ret .unknown (some (.int ⟨.unknown, none⟩ 7))]

/-- `while true { }` -/
def endless : List Stmt := [.loop .unknown (.bool ⟨.unknown, none⟩ true) (.mk .unknown [])]

theorem choosing_early_settled : ((choosing early).prepared unaided .default).Settled .warn := by
  rintro d (_ | ⟨_,⟨⟩⟩)
  refine ⟨⟨?_,?_,trivial,⟨trivial,⟨?_,trivial⟩,trivial⟩,trivial,trivial⟩,trivial⟩
  · rintro t ⟨⟩
    decide
  · rintro t ⟨⟩ _ _ a (_ | ⟨_,_ | ⟨_,⟨⟩⟩⟩) <;> decide
  · rintro t ⟨⟩
    decide

theorem choosing_early_written : (choosing early).Written where
  functions := by
    rintro f (_ | ⟨_,⟨⟩⟩)
    exact ⟨⟨by decide,by decide⟩,by simp [Block.Every, Stmt.EveryIn, Stmt.Every, Expr.Every, Arm.EveryIn,
      early, written]⟩
  records := by rintro r ⟨⟩
  constants := by rintro c ⟨⟩

theorem compile_bodies_valid_early : ∃ out, (choosing early).compile unaided .default = .ok out ∧
    ∃ (m : Module) (number : String → Option Nat), m.bytes? number = some out.bytes ∧
      ∀ f ∈ m.functions, ∃ body, f.bytes? number = some body ∧
        ((readBody body).isSome = true ↔ f.inRange number = true) ∧
        ∀ locals code, readBody body = some (locals, code) →
          m.isValidBody (fun _ => none) ⟨f.type, locals, code⟩ = true := by
  have hok : ((choosing early).compile unaided .default).isOk = true := by decide
  cases hcompile : (choosing early).compile unaided .default with
  | error e =>
    rw [hcompile] at hok
    cases hok
  | ok out =>
    exact ⟨out,rfl,Program.compile_bodies_valid unaided .default _ out choosing_early_written hcompile choosing_early_settled⟩

/-- An arm with a loop that never ends has no value either, but its code ends with that of the loop. The
module is made, and the body of its function is not valid. -/
theorem choosing_endless_invalid : ∃ out image, (choosing endless).compile unaided .default = .ok out ∧
    ((choosing endless).prepared unaided .default).lower .default = .ok image ∧ out.bytes = image.bytes ∧
    ∃ f ∈ image.module.functions, f.inRange (fun _ => none) = true ∧
      image.module.isValidBody (fun _ => none) f = false := by
  have hok : ((choosing endless).compile unaided .default).isOk = true := by decide
  cases hcompile : (choosing endless).compile unaided .default with
  | error e =>
    rw [hcompile] at hok
    cases hok
  | ok out =>
    obtain ⟨-,image,hlower,hbytes⟩ := Program.compile_spec hcompile
    have hany : (match ((choosing endless).prepared unaided .default).lower .default with
      | .ok image => image.module.functions.any fun f =>
          f.inRange (fun _ => none) && !image.module.isValidBody (fun _ => none) f
      | .error _ => false) = true := by decide +kernel
    rw [hlower] at hany
    obtain ⟨f,hf,hinvalid⟩ := List.any_eq_true.mp hany
    rw [Bool.and_eq_true,Bool.not_eq_true'] at hinvalid
    exact ⟨out,image,rfl,hlower,hbytes,f,hf,hinvalid⟩

end Covenant
