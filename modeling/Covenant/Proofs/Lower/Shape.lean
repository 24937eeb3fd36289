import Covenant.Proofs.Lower.Mentions
import Covenant.Proofs.Lower.Nesting
import Covenant.Proofs.Tree.Jumps

/-! The shape of code. The branches out of a piece of code are those of the jumps in the source, in the same order,
and each loop of the source has its code. The numbers of 64 bits in it are in range. -/

namespace Covenant.Lower

open Wasm

variable {t : BlockType}

def isSmall (code : List Instr) : Bool := (Instr.piecesOf code).all fun
  | .op (.i64Const v) => inWordRange v
  | _ => true

theorem isSmall_append (xs ys : List Instr) : isSmall (xs ++ ys) = (isSmall xs && isSmall ys) := by
  rw [isSmall,Instr.piecesOf_append,List.all_append]
  rfl

theorem isSmall_i64 {v : Int} (h : inWordRange v = true) : isSmall [.i64 v] = true := by
  simp [isSmall, Instr.piecesOf, Instr.pieces, Instr.i64, h]

structure Quiet (code : List Instr) : Prop where
  outs : Instr.outsOf code = []
  bodies : Instr.bodiesOf code = []
  loops : Instr.noLoop code = true
  small : isSmall code = true

theorem Quiet.append {xs ys : List Instr} (hx : Quiet xs) (hy : Quiet ys) : Quiet (xs ++ ys) where
  outs := by rw [Instr.outsOf_append,hx.outs,hy.outs]; rfl
  bodies := by rw [Instr.bodiesOf_append,hx.bodies,hy.bodies]; rfl
  loops := by
    have hx := hx.loops
    have hy := hy.loops
    simp_all [Instr.noLoop]
  small := by rw [isSmall_append,hx.small,hy.small]; rfl

theorem Quiet.cons {i : Instr} {xs : List Instr} (hi : Quiet [i]) (h : Quiet xs) : Quiet (i :: xs) := hi.append h

theorem load_quiet (t : ValType) (n : Nat) : Quiet [.load t n] := by cases t <;> exact ⟨rfl,rfl,rfl,rfl⟩

theorem store_quiet (t : ValType) (n : Nat) : Quiet [.store t n] := by cases t <;> exact ⟨rfl,rfl,rfl,rfl⟩

def Context.Sized (c : Context) : Prop := ∀ d ∈ c.enums, d.variants.length ≤ maxWord.toNat

def Jump.level (l : LoopLevels) : Jump → Nat
  | .leave => l.leave
  | .next => l.next

/-- A branch to the end of the level that a jump goes to. -/
def Aimed (c : Context) (j : Jump) (target : Nat) : Prop :=
  ∃ l, c.loop = some l ∧ target = c.distance (j.level l)

/-- Seen from the body of a loop, the exit block is two constructs further out than the block of the
body. -/
def Jump.fromBody : Jump → Nat
  | .leave => 2
  | .next => 0

/-- Code that a loop body has been lowered to, and whose branches go where the jumps of the body go. -/
structure BodyCode (b : Block) (code : List Instr) : Prop where
  lowered : ∃ c s s', block c b s = .ok (code, s')
  outs : Instr.outsOf code = b.jumps.map Jump.fromBody

/-- The branches out of a piece of code are those of some jumps, and its loops those of some bodies. A loop
stands only in the block that is its exit. -/
structure Shape (c : Context) (js : List Jump) (ls : List Block) (code : List Instr) : Prop where
  outs : List.Forall₂ (Aimed c) js (Instr.outsOf code)
  bodies : List.Forall₂ BodyCode ls (Instr.bodiesOf code)
  loops : Instr.noLoop code = true
  small : c.Sized → isSmall code = true

namespace Shape

variable {c : Context} {jumps : Bool} {js js' : List Jump} {ls ls' : List Block} {xs ys : List Instr}

theorem of_quiet (h : Quiet xs) : Shape c [] [] xs :=
  ⟨by rw [h.outs]; exact .nil,by rw [h.bodies]; exact .nil,h.loops,fun _ => h.small⟩

theorem i64 {v : Int} (h : c.Sized → inWordRange v = true) : Shape c [] [] [.i64 v] :=
  ⟨.nil,.nil,rfl,fun hc => isSmall_i64 (h hc)⟩

theorem append (hx : Shape c js ls xs) (hy : Shape c js' ls' ys) :
    Shape c (js ++ js') (ls ++ ls') (xs ++ ys) where
  outs := by
    rw [Instr.outsOf_append]
    exact List.rel_append hx.outs hy.outs
  bodies := by
    rw [Instr.bodiesOf_append]
    exact List.rel_append hx.bodies hy.bodies
  loops := by
    have hx := hx.loops
    have hy := hy.loops
    simp_all [Instr.noLoop]
  small hc := by rw [isSmall_append,hx.small hc,hy.small hc]; rfl

theorem followed (hx : Shape c js ls xs) (hy : Quiet ys) : Shape c js ls (xs ++ ys) := by
  have hall := hx.append (of_quiet hy)
  rwa [List.append_nil,List.append_nil] at hall

theorem preceded (hy : Shape c js ls ys) (hx : Quiet xs) : Shape c js ls (xs ++ ys) :=
  (of_quiet hx).append hy

theorem cons {i : Instr} (h : Shape c js ls xs) (hi : Quiet [i]) : Shape c js ls (i :: xs) := h.preceded hi

/-- From outside a construct the branches that leave it are one step nearer to their targets. -/
theorem outward_outs {targets : List Nat} (hc : c.Nested jumps)
    (h : List.Forall₂ (Aimed (c.inside 1)) js targets) : List.Forall₂ (Aimed c) js (outward targets) := by
  induction h with
  | nil => exact .nil
  | @cons j n js ns hj _ ih =>
    obtain ⟨l,hl,rfl⟩ := hj
    have hlt : j.level l < c.depth := by
      have hbelow := hc.below l hl
      cases j
      · exact hbelow.1
      · exact hbelow.2
    rw [Context.distance_inside hlt]
    exact .cons ⟨l,hl,rfl⟩ ih

theorem choice (hc : c.Nested jumps) (hx : Shape (c.inside 1) js ls xs) (hy : Shape (c.inside 1) js' ls' ys) :
    Shape c (js ++ js') (ls ++ ls') [.cond t xs (some ys)] where
  outs := by
    have houts := outward_outs hc (List.rel_append hx.outs hy.outs)
    simpa [Instr.outsOf, Instr.outs] using houts
  bodies := by
    have hbodies := List.rel_append hx.bodies hy.bodies
    simpa [Instr.bodiesOf, Instr.bodies] using hbodies
  loops := rfl
  small hc := by simpa [isSmall, Instr.piecesOf, Instr.pieces] using And.intro (hx.small hc) (hy.small hc)

theorem option (hc : c.Nested jumps) (hx : Shape (c.inside 1) js ls xs) :
    Shape c js ls [.cond t xs none] where
  outs := by
    have houts := outward_outs hc hx.outs
    simpa [Instr.outsOf, Instr.outs] using houts
  bodies := by simpa [Instr.bodiesOf, Instr.bodies] using hx.bodies
  loops := rfl
  small hc := by simpa [isSmall, Instr.piecesOf, Instr.pieces] using hx.small hc

end Shape

theorem loopBody?_of_noLoop {code : List Instr} (h : Instr.noLoop code = true) : Instr.loopBody? t code = none := by
  unfold Instr.loopBody?
  split
  · cases h
  · rfl

theorem outward_fromBody (js : List Jump) :
    outward (outward (outward (js.map Jump.fromBody))) = [] := by
  induction js with
  | nil => rfl
  | cons j js ih => cases j <;> exact ih

theorem outs_insideLoop {c : Context} {js : List Jump} {targets : List Nat}
    (h : List.Forall₂ (Aimed c.insideLoop) js targets) : targets = js.map Jump.fromBody := by
  induction h with
  | nil => rfl
  | @cons j n js ns hj _ ih =>
    obtain ⟨l,hl,rfl⟩ := hj
    cases hl
    rw [ih,List.map_cons]
    congr 1
    cases j
    · exact Context.distance_insideLoop_leave c
    · exact Context.distance_insideLoop_next c

/-- A loop as it is lowered: a part before the body, the body in a block, and the step to the next round. -/
def roundCode (before body step : List Instr) : List Instr :=
  [.block none [.loop none (before ++ .block none body :: step ++ [.op (.br 0)])]]

variable {b : Block} {body : List Instr}

theorem innerBody?_round {before step : List Instr} (h : step.all Instr.isPlain = true) :
    Instr.innerBody? (before ++ Instr.block none body :: step ++ [Instr.op (.br 0)]) = some body := by
  have hdrop : (step.reverse ++ .block none body :: before.reverse).dropWhile Instr.isPlain =
      .block none body :: before.reverse := by
    rw [List.dropWhile_append_of_pos fun i hi => List.all_eq_true.mp h i (List.mem_reverse.mp hi)]
    rfl
  simp [Instr.innerBody?, hdrop]

theorem round_shape {c : Context} {js : List Jump} {ls : List Block} {before step : List Instr}
    (hbefore : List.Forall₂ (Aimed c) js (outward (outward (Instr.outsOf before))))
    (hloops : List.Forall₂ BodyCode ls (Instr.bodiesOf before)) (hstep : step.all Instr.isPlain = true)
    (hsmall : c.Sized → isSmall before = true) (hquiet : Quiet step)
    (hbody : Shape c.insideLoop b.jumps b.loops body) (hran : ∃ c s s', block c b s = .ok (body, s')) :
    Shape c js (b :: (ls ++ b.loops)) (roundCode before body step) where
  outs := by
    have hinner := outs_insideLoop hbody.outs
    have hquiet := hquiet.outs
    have hclosed : outward [0] = [] := rfl
    simpa [roundCode, Instr.outsOf, Instr.outs, Instr.outsOf_append, outward_append, hinner,
      outward_fromBody, hquiet, hclosed] using hbefore
  bodies := by
    have hquiet := hquiet.bodies
    have hnone : Instr.loopBody? none body = none := loopBody?_of_noLoop hbody.loops
    have hsome : Instr.loopBody? none
        [.loop none (before ++ Instr.block none body :: step ++ [Instr.op (.br 0)])] =
        some body := innerBody?_round hstep
    have hall := List.rel_append hloops hbody.bodies
    have hfirst : BodyCode b body := ⟨hran,outs_insideLoop hbody.outs⟩
    simp only [roundCode, Instr.bodiesOf, Instr.bodies, hsome]
    simpa [Instr.bodiesOf_append, Instr.bodiesOf, Instr.bodies, hnone, hquiet] using ⟨hfirst,hall⟩
  loops := rfl
  small hc := by
    have hparts := And.intro (hsmall hc) (And.intro (hbody.small hc) hquiet.small)
    simpa [roundCode, isSmall, Instr.piecesOf, Instr.pieces, Instr.piecesOf_append] using hparts

variable {c : Context} {jumps : Bool} {js : List Jump} {ls : List Block}

theorem while_shape {test : List Instr} (hc : c.Nested jumps)
    (htest : Shape (c.inside 2) js ls test) (hbody : Shape c.insideLoop b.jumps b.loops body)
    (hran : ∃ c s s', block c b s = .ok (body, s')) :
    Shape c js (b :: (ls ++ b.loops)) (whileCode test body) := by
  have hcode : whileCode test body = roundCode (test ++ [Instr.num .i32Eqz, .op (.brIf 1)]) body [] := by
    simp [whileCode, roundCode]
  have houts := Shape.outward_outs hc (Shape.outward_outs (hc.inside 1) htest.outs)
  have hclosed : outward (outward [1]) = [] := rfl
  rw [hcode]
  refine round_shape ?_ ?_ rfl (fun hc => ?_) ⟨rfl,rfl,rfl,rfl⟩ hbody hran
  · simpa [Instr.outsOf_append, Instr.outsOf, Instr.outs, Instr.num, outward_append, hclosed] using houts
  · simpa [Instr.bodiesOf_append, Instr.bodiesOf, Instr.bodies, Instr.num] using htest.bodies
  · rw [isSmall_append,htest.small hc]
    rfl

theorem for_shape {t : ValType} {array i element : Nat}
    (hbody : Shape c.insideLoop b.jumps b.loops body) (hran : ∃ c s s', block c b s = .ok (body, s')) :
    Shape c [] (b :: b.loops) (forCode t array i element body) := by
  let before : List Instr := [.get i, .get array, .load .i32 Memory.lengthOffset, .num .i32GeU, .op (.brIf 1),
    .get array, .get i, .i32 Memory.slotSize, .num .i32Mul, .num .i32Add, .load t Memory.arrayHeader,
    .set element]
  have hcode : forCode t array i element body = [Instr.set array, .i32 0, .set i] ++
      roundCode before body [.get i, .i32 1, .num .i32Add, .set i] := rfl
  have houts : outward (outward (Instr.outsOf before)) = [] := by cases t <;> rfl
  have hbodies : Instr.bodiesOf before = [] := by cases t <;> rfl
  have hsmall : isSmall before = true := by cases t <;> rfl
  have hround : Shape c [] (b :: b.loops) (roundCode before body [.get i, .i32 1, .num .i32Add, .set i]) :=
    round_shape (by rw [houts]; exact .nil) (by rw [hbodies]; exact .nil) rfl (fun _ => hsmall) ⟨rfl,rfl,rfl,rfl⟩
      hbody hran
  rw [hcode]
  exact hround.preceded ⟨rfl,rfl,rfl,rfl⟩

theorem elementCode_quiet (array index : Nat) : Quiet (elementCode array index) := ⟨rfl,rfl,rfl,rfl⟩

theorem pushCode_quiet (t : ValType) (array v n : Nat) : Quiet (pushCode t array v n) := by
  cases t <;> exact ⟨rfl,rfl,rfl,rfl⟩

theorem popCode_quiet (array n out : Nat) : Quiet (popCode array n out) := ⟨rfl,rfl,rfl,rfl⟩

def Compares (i : Instr) : Prop := i = .num .i64Eq ∨ i = .num .i32Eq ∨ i = .routine .equal

theorem Compares.quiet {i : Instr} (h : Compares i) : Quiet [i] := by
  rcases h with rfl | rfl | rfl <;> exact ⟨rfl,rfl,rfl,rfl⟩

theorem containsCode_quiet {t : ValType} {same : Instr} (array v i found : Nat) (h : Compares same) :
    Quiet (containsCode t same array v i found) := by
  rcases h with rfl | rfl | rfl <;> cases t <;> exact ⟨rfl,rfl,rfl,rfl⟩

theorem arrayCode_quiet (array count capacity : Nat) : Quiet (arrayCode array count capacity) :=
  ⟨rfl,rfl,rfl,rfl⟩

theorem variantCode_quiet (address : Nat) (w : Wrapper) : Quiet (variantCode address (wrapTag w)) := by
  cases w <;> exact ⟨rfl,rfl,rfl,rfl⟩

theorem unused_quiet (pushed : Bool) : Quiet (unused pushed) := by
  cases pushed <;> exact ⟨rfl,rfl,rfl,rfl⟩

theorem stop_quiet (stops : Bool) : Quiet (if stops then [Instr.trap] else []) := by
  cases stops <;> exact ⟨rfl,rfl,rfl,rfl⟩

theorem Shape.jumps_eq_nil {code : List Instr} (hc : c.loop = none) (h : Shape c js ls code) : js = [] := by
  cases js with
  | nil => rfl
  | cons j js =>
    obtain ⟨n,ns,⟨l,hl,-⟩,-,-⟩ := List.forall₂_cons_left_iff.mp h.outs
    rw [hc] at hl
    cases hl

end Covenant.Lower
