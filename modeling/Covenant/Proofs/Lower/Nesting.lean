import Covenant.Lower.Body

/-! How deep a place of a function is nested, in what lowering knows of it and in the code that it
makes. -/

namespace Covenant.Lower

open Wasm

namespace Context

variable {c : Context} {jumps : Bool} {l : LoopLevels}

/-- The loop around a place is around it in the code as well. There is one wherever jumps are
allowed. -/
structure Nested (jumps : Bool) (c : Context) : Prop where
  loop : jumps = true → ∃ l, c.loop = some l
  below : ∀ l, c.loop = some l → l.leave < c.depth ∧ l.next < c.depth

theorem Nested.outermost (hc : c.loop = none) : c.Nested false where
  loop h := absurd h Bool.false_ne_true
  below l hl := by simp [hc] at hl

theorem Nested.inside (h : c.Nested jumps) (n : Nat) : (c.inside n).Nested jumps where
  loop := h.loop
  below l hl := by
    have hlt := h.below l hl
    simp only [Context.inside]
    omega

theorem Nested.insideLoop (c : Context) : c.insideLoop.Nested true where
  loop _ := ⟨_,rfl⟩
  below l hl := by
    cases hl
    simp only [Context.insideLoop]
    omega

theorem distance_inside {n level : Nat} (h : level < c.depth) :
    (c.inside n).distance level = c.distance level + n := by
  simp only [distance, inside]
  omega

theorem distance_insideLoop_leave (c : Context) : c.insideLoop.distance c.depth = 2 := by
  simp only [distance, insideLoop]
  omega

theorem distance_insideLoop_next (c : Context) : c.insideLoop.distance (c.depth + 2) = 0 := by
  simp only [distance, insideLoop]
  omega

/-- The places that lowering comes to from a given one. -/
inductive Within (c : Context) : Context → Prop
  | here : Within c c
  | inside {d : Context} (n : Nat) : Within c d → Within c (d.inside n)
  | insideLoop {d : Context} : Within c d → Within c d.insideLoop

theorem Within.levels {d : Context} (hc : c.loop = none) (h : Within c d) :
    ∀ l, d.loop = some l → l.leave < d.depth ∧ l.next < d.depth := by
  induction h with
  | here => exact (Nested.outermost hc).below
  | @inside d n _ ih =>
    have hd : d.Nested false := ⟨fun h => absurd h Bool.false_ne_true,ih⟩
    exact (hd.inside n).below
  | @insideLoop d _ _ => exact (Nested.insideLoop d).below

end Context

/-- Targets as they look from outside a construct; its own label is not seen there. -/
def outward (targets : List Nat) : List Nat :=
  targets.filterMap fun
    | 0 => none
    | n + 1 => some n

namespace Instr

mutual

def outs : Instr → List Nat
  | .op (.br n) | .op (.brIf n) => [n]
  | .op _ | .routine _ => []
  | .block _ b | .loop _ b => outward (outsOf b)
  | .cond _ y none => outward (outsOf y)
  | .cond _ y (some n) => outward (outsOf y ++ outsOf n)

def outsOf : List Instr → List Nat
  | [] => []
  | i :: is => outs i ++ outsOf is

end

def isPlain : Instr → Bool
  | .op (.br _) | .op (.brIf _) | .block _ _ | .loop _ _ | .cond _ _ _ => false
  | _ => true

/-- The body of a loop has a block of its own. After it come the step to the next round and the jump to
the start of the loop. -/
def innerBody? (code : List Instr) : Option (List Instr) :=
  match code.reverse with
  | .op (.br 0) :: before =>
    match before.dropWhile isPlain with
    | .block none body :: _ => some body
    | _ => none
  | _ => none

/-- The body of the loop that a block is the exit of. -/
def loopBody? : BlockType → List Instr → Option (List Instr)
  | none, [.loop none code] => innerBody? code
  | _, _ => none

mutual

/-- The bodies of the loops in an instruction. A body comes before those of the loops inside it. -/
def bodies : Instr → List (List Instr)
  | .op _ | .routine _ => []
  | .block t b => (loopBody? t b).toList ++ bodiesOf b
  | .loop _ b | .cond _ b none => bodiesOf b
  | .cond _ y (some n) => bodiesOf y ++ bodiesOf n

def bodiesOf : List Instr → List (List Instr)
  | [] => []
  | i :: is => bodies i ++ bodiesOf is

end

def isLoop : Instr → Bool
  | .loop _ _ => true
  | _ => false

def noLoop (code : List Instr) : Bool := code.all fun i => !i.isLoop

theorem outsOf_append (xs ys : List Instr) : outsOf (xs ++ ys) = outsOf xs ++ outsOf ys := by
  induction xs with
  | nil => rfl
  | cons x xs ih => simp [outsOf, ih]

theorem bodiesOf_append (xs ys : List Instr) : bodiesOf (xs ++ ys) = bodiesOf xs ++ bodiesOf ys := by
  induction xs with
  | nil => rfl
  | cons x xs ih => simp [bodiesOf, ih]

end Instr

theorem outward_append (xs ys : List Nat) : outward (xs ++ ys) = outward xs ++ outward ys :=
  List.filterMap_append ..

/-- Goes through code with the constructs that are open, the innermost first. Every end closes one, an
`else` belongs to an `if` that has none yet, and a branch goes to one that is open. -/
def scan (opened : List Opener) : Code → Option (List Opener)
  | [] => some opened
  | .start k _ :: ps => scan (k :: opened) ps
  | .otherwise :: ps =>
    match opened with
    | .cond :: outer => scan (.block :: outer) ps
    | _ => none
  | .finish :: ps =>
    match opened with
    | _ :: outer => scan outer ps
    | [] => none
  | .op (.br n) :: ps | .op (.brIf n) :: ps => if n < opened.length then scan opened ps else none
  | .op _ :: ps | .routine _ :: ps => scan opened ps
  | .raw _ :: _ => none

theorem outward_lt {targets : List Nat} {n : Nat} (h : ∀ t ∈ outward targets, t < n) :
    ∀ t ∈ targets, t < n + 1 := by
  intro t ht
  cases t with
  | zero => exact Nat.succ_pos n
  | succ t =>
    have hmem : t ∈ outward targets := List.mem_filterMap.mpr ⟨t + 1,ht,rfl⟩
    exact Nat.succ_lt_succ (h t hmem)

mutual

theorem scan_pieces : ∀ (i : Instr) (opened : List Opener) (rest : Code),
    (∀ t ∈ i.outs, t < opened.length) → scan opened (i.pieces ++ rest) = scan opened rest
  | .op o, opened, rest, h => by
    cases o with
    | br n | brIf n =>
      have hn : n < opened.length := h n (by simp [Instr.outs])
      simp [Instr.pieces, scan, hn]
    | _ => rfl
  | .routine r, opened, rest, _ => rfl
  | .block t b, opened, rest, h => by
    have hb := scan_piecesOf b (.block :: opened) (.finish :: rest) (outward_lt h)
    simpa [Instr.pieces, scan] using hb
  | .loop t b, opened, rest, h => by
    have hb := scan_piecesOf b (.loop :: opened) (.finish :: rest) (outward_lt h)
    simpa [Instr.pieces, scan] using hb
  | .cond t y none, opened, rest, h => by
    have hy := scan_piecesOf y (.cond :: opened) (.finish :: rest) (outward_lt h)
    simpa [Instr.pieces, scan] using hy
  | .cond t y (some n), opened, rest, h => by
    have hlt := outward_lt h
    have hy := scan_piecesOf y (.cond :: opened) (.otherwise :: (Instr.piecesOf n ++ .finish :: rest))
      fun t ht => hlt t (List.mem_append_left _ ht)
    have hn := scan_piecesOf n (.block :: opened) (.finish :: rest)
      fun t ht => hlt t (List.mem_append_right _ ht)
    simp only [scan] at hy hn
    simpa [Instr.pieces, scan] using hy.trans hn

theorem scan_piecesOf : ∀ (is : List Instr) (opened : List Opener) (rest : Code),
    (∀ t ∈ Instr.outsOf is, t < opened.length) →
      scan opened (Instr.piecesOf is ++ rest) = scan opened rest
  | [], _, _, _ => rfl
  | i :: is, opened, rest, h => by
    have hi := scan_pieces i opened (Instr.piecesOf is ++ rest) fun t ht => h t (List.mem_append_left _ ht)
    have his := scan_piecesOf is opened rest fun t ht => h t (List.mem_append_right _ ht)
    rw [Instr.piecesOf,List.append_assoc,hi,his]

end

/-- Operators other than `&&` and `||` run both of their operands. -/
theorem expr_strict {c : Context} {n : Note} {op : BinaryOp} {a b : Expr} (hand : op ≠ .and) (hor : op ≠ .or) :
    expr c (.binary n op a b) = (do
      let x ← expr c a
      let y ← expr c b
      let o ← operator op a.type
      return x ++ y ++ o) := by
  cases op <;> first | rfl | exact absurd rfl hand | exact absurd rfl hor

end Covenant.Lower
