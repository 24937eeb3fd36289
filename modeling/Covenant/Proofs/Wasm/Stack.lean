import Covenant.Lower.Routine
import Covenant.Proofs.Wasm.Validation

/-! Checking nested code. Inside a construct only its own operands can be reached, so that each
construct has a stack to itself. What is accepted here passes validation. -/

namespace Covenant.Lower

open Wasm

structure Stack where
  vals : List ValType
  isDead : Bool
  deriving DecidableEq, Repr

namespace Stack

def empty : Stack := ⟨[], false⟩

def dead : Stack := ⟨[], true⟩

def popIf (fits : ValType → Bool) : Stack → Option Stack
  | ⟨[], d⟩ => if d then some ⟨[], d⟩ else none
  | ⟨t :: ts, d⟩ => if fits t then some ⟨ts, d⟩ else none

def pop (t : ValType) (s : Stack) : Option Stack := s.popIf (· = t)

def pops : List ValType → Stack → Option Stack
  | [], s => some s
  | t :: ts, s => (s.pops ts).bind (pop t)

def push (ts : List ValType) (s : Stack) : Stack := ⟨ts.reverse ++ s.vals, s.isDead⟩

def apply (t : FuncType) (s : Stack) : Option Stack := (s.pops t.params).map (push t.results)

def closes (ts : List ValType) (s : Stack) : Bool := (s.pops ts).any (·.vals.isEmpty)

end Stack

def checkOp (E : BodyScope) (L : List (List ValType)) : Op → Stack → Option Stack
  | .unreachable, _ => some .dead
  | .br n, s => L[n]?.bind fun l => (s.pops l).map fun _ => .dead
  | .brIf n, s => (s.pop .i32).bind fun s => L[n]?.bind fun l => s.apply ⟨l, l⟩
  | .ret, s => (s.pops E.results).map fun _ => .dead
  | .drop, s => s.popIf fun _ => true
  | o, s => (o.type? E).bind fun t => s.apply t

mutual

/-- The stack after an instruction. `L` are the types of the labels around it, the nearest first. -/
def check (E : BodyScope) (L : List (List ValType)) : Instr → Stack → Option Stack
  | .op o, s => checkOp E L o s
  | .routine r, s => s.apply r.type
  | .block t b, s =>
    if (checkAll E (t.toList :: L) b .empty).any (·.closes t.toList) then some (s.push t.toList)
    else none
  | .loop t b, s =>
    if (checkAll E ([] :: L) b .empty).any (·.closes t.toList) then some (s.push t.toList) else none
  | .cond t y none, s =>
    (s.pop .i32).bind fun s =>
      if (checkAll E (t.toList :: L) y .empty).any (·.closes t.toList) ∧ t = none then some s else none
  | .cond t y (some n), s =>
    (s.pop .i32).bind fun s =>
      if (checkAll E (t.toList :: L) y .empty).any (·.closes t.toList) ∧
        (checkAll E (t.toList :: L) n .empty).any (·.closes t.toList) then some (s.push t.toList)
      else none

def checkAll (E : BodyScope) (L : List (List ValType)) : List Instr → Stack → Option Stack
  | [], s => some s
  | i :: is, s => (check E L i s).bind (checkAll E L is)

end

namespace Stack

/-- The frame of a construct with this stack, on top of other operands. -/
def frame (f : Validation.Frame) (base : List ValType) (s : Stack) : Validation.Frame :=
  { f with height := base.length, isDead := s.isDead }

def place (f : Validation.Frame) (fs : List Validation.Frame) (base : List ValType) (s : Stack) :
    Validation.State :=
  ⟨s.vals ++ base, s.frame f base :: fs⟩

variable {f : Validation.Frame} {fs : List Validation.Frame} {base : List ValType} {s t : Stack}

theorem place_popIf {fits : ValType → Bool} (h : s.popIf fits = some t) :
    Validation.popIf fits (s.place f fs base) = some (t.place f fs base) := by
  obtain ⟨vals,d⟩ := s
  cases vals with
  | nil =>
    cases d <;> simp only [popIf, reduceIte, Bool.false_eq_true, Option.some.injEq, reduceCtorEq] at h
    subst h
    simp [place, frame, Validation.popIf]
  | cons u us =>
    simp only [popIf, Option.ite_none_right_eq_some, Option.some.injEq] at h
    obtain ⟨hfits,rfl⟩ := h
    have hlen : ¬ us.length + base.length + 1 = base.length := by omega
    simp [place, frame, Validation.popIf, hfits, hlen]

theorem place_pops {ts : List ValType} (h : s.pops ts = some t) :
    Validation.pops ts (s.place f fs base) = some (t.place f fs base) := by
  induction ts generalizing t with
  | nil =>
    cases h
    rfl
  | cons u us ih =>
    obtain ⟨v,hv,hpop⟩ := Option.bind_eq_some_iff.mp h
    rw [Validation.pops,ih hv]
    exact place_popIf hpop

theorem place_push (ts : List ValType) :
    Validation.push ts (s.place f fs base) = (s.push ts).place f fs base := by
  simp [place, frame, Validation.push, push]

theorem place_apply {u : FuncType} (h : s.apply u = some t) :
    Validation.apply u (s.place f fs base) = some (t.place f fs base) := by
  obtain ⟨v,hv,rfl⟩ := Option.map_eq_some_iff.mp h
  rw [Validation.apply,place_pops hv,Option.map_some,place_push]

theorem place_stop : Validation.stop (s.place f fs base) = some (dead.place f fs base) := by
  simp [place, frame, Validation.stop, dead]

theorem place_frames {L : List (List ValType)} {l : List ValType} {n : Nat}
    (hL : (f :: fs).map (·.label) = L) (h : L[n]? = some l) :
    ∃ g, (s.place f fs base).frames[n]? = some g ∧ g.label = l := by
  have hmap : (s.place f fs base).frames.map (·.label) = L := hL
  rw [← hmap,List.getElem?_map] at h
  exact Option.map_eq_some_iff.mp h

theorem place_enter (k : Opener) (label results : List ValType) :
    Validation.enter k label results (s.place f fs base) =
      empty.place ⟨some k, label, results, 0, false⟩ (s.frame f base :: fs) (s.vals ++ base) := rfl

theorem place_leave (h : s.closes f.results = true) :
    Validation.leave (s.place f fs base) = some (s.frame f base,⟨base,fs⟩) := by
  obtain ⟨t,ht,hnil⟩ := (Option.any_eq_true _ _).mp h
  have hvals : t.vals = [] := List.isEmpty_iff.mp hnil
  have hpops : Validation.pops f.results (s.place f fs base) = some (t.place f fs base) := place_pops ht
  simp only [Validation.leave, place, frame] at hpops ⊢
  simp [hpops, hvals]

theorem step_finish {E : BodyScope} {number : String → Option Nat} (h : s.closes f.results = true)
    (hk : f.opener = some .cond → f.results = []) :
    Validation.step E number .finish (s.place f fs base) =
      some (Validation.push f.results ⟨base,fs⟩) := by
  show (Validation.leave _).bind _ = _
  rw [place_leave h]
  exact if_neg fun hc => hc.2 (hk hc.1)

end Stack

variable {E : BodyScope} {L : List (List ValType)} {number : String → Option Nat}
  {f : Validation.Frame} {fs : List Validation.Frame} {base : List ValType} {s t : Stack}

theorem op_of_checkOp {o : Op} (hL : (f :: fs).map (·.label) = L) (h : checkOp E L o s = some t) :
    Validation.op E o (s.place f fs base) = some (t.place f fs base) := by
  cases o with
  | unreachable =>
    cases h
    exact Stack.place_stop
  | br n =>
    obtain ⟨l,hl,hpops⟩ := Option.bind_eq_some_iff.mp h
    obtain ⟨u,hu,rfl⟩ := Option.map_eq_some_iff.mp hpops
    obtain ⟨g,hg,rfl⟩ := Stack.place_frames hL hl
    rw [Validation.op,hg,Option.bind_some,Stack.place_pops hu]
    exact Stack.place_stop
  | brIf n =>
    obtain ⟨u,hu,hl⟩ := Option.bind_eq_some_iff.mp h
    obtain ⟨l,hl,happly⟩ := Option.bind_eq_some_iff.mp hl
    obtain ⟨g,hg,rfl⟩ := Stack.place_frames hL hl
    rw [Validation.op,Validation.pop,Stack.place_popIf hu,Option.bind_some,hg]
    exact Stack.place_apply happly
  | ret =>
    obtain ⟨u,hu,rfl⟩ := Option.map_eq_some_iff.mp h
    rw [Validation.op,Stack.place_pops hu]
    exact Stack.place_stop
  | drop => exact Stack.place_popIf h
  | i32Const v => exact Stack.place_apply (u := ⟨[],[.i32]⟩) h
  | i64Const v => exact Stack.place_apply (u := ⟨[],[.i64]⟩) h
  | num o => exact Stack.place_apply (u := o.type) h
  | _ =>
    obtain ⟨u,hu,happly⟩ := Option.bind_eq_some_iff.mp h
    rw [Validation.op,hu]
    · exact Stack.place_apply happly
    all_goals simp

theorem steps_append {ps qs : Code} {u v : Validation.State}
    (h : Validation.steps E number ps u = some v) :
    Validation.steps E number (ps ++ qs) u = Validation.steps E number qs v := by
  induction ps generalizing u with
  | nil =>
    cases h
    rfl
  | cons p ps ih =>
    obtain ⟨w,hw,hsteps⟩ := Option.bind_eq_some_iff.mp h
    show (Validation.step E number p u).bind _ = _
    rw [hw]
    exact ih hsteps

/-- What a construct does with the pieces inside it. -/
def Encloses (E : BodyScope) (number : String → Option Nat) (label results : List ValType)
    (fs : List Validation.Frame) (base : List ValType) (ps : Code) : Prop :=
  ∀ k : Option Opener, ∃ u : Stack, u.closes results = true ∧
    Validation.steps E number ps (Stack.empty.place ⟨k, label, results, 0, false⟩ fs base) =
      some (u.place ⟨k, label, results, 0, false⟩ fs base)

variable {label results : List ValType}

theorem steps_enclosed {k : Opener} {ps : Code} (hk : k = .cond → results = [])
    (h : Encloses E number label results (s.frame f base :: fs) (s.vals ++ base) ps) :
    Validation.steps E number (ps ++ [Piece.finish]) (Validation.enter k label results (s.place f fs base)) =
      some ((s.push results).place f fs base) := by
  obtain ⟨u,hu,hsteps⟩ := h (some k)
  rw [Stack.place_enter,steps_append hsteps]
  show (Validation.step E number .finish _).bind some = _
  rw [Stack.step_finish hu fun hc => hk (Option.some.inj hc)]
  exact congrArg some (Stack.place_push results)

theorem step_otherwise {u : Stack} (hu : u.closes results = true) :
    Validation.step E number .otherwise (u.place ⟨some .cond, label, results, 0, false⟩
      (s.frame f base :: fs) (s.vals ++ base)) =
      some (Validation.enter .block label results (s.place f fs base)) := by
  show (Validation.leave _).bind _ = _
  rw [Stack.place_leave hu]
  rfl

/-- Every routine that is called has a number, and the type that it should have. -/
def Numbered (E : BodyScope) (number : String → Option Nat) (rs : List Routine) : Prop :=
  ∀ r ∈ rs, ∃ i, number r.name = some i ∧ E.functions[i]? = some r.type

namespace Numbered

variable {rs qs : List Routine}

theorem left (h : Numbered E number (rs ++ qs)) : Numbered E number rs :=
  fun r hr => h r (List.mem_append_left _ hr)

theorem right (h : Numbered E number (rs ++ qs)) : Numbered E number qs :=
  fun r hr => h r (List.mem_append_right _ hr)

end Numbered

theorem Encloses.of_steps {is : List Instr} (h : (checkAll E L is .empty).any (·.closes results) = true)
    (hsteps : ∀ k u, checkAll E L is .empty = some u → Validation.steps E number (Instr.piecesOf is)
        (Stack.empty.place ⟨k, label, results, 0, false⟩ fs base) =
        some (u.place ⟨k, label, results, 0, false⟩ fs base)) :
    Encloses E number label results fs base (Instr.piecesOf is) := by
  intro k
  obtain ⟨u,hu,hcloses⟩ := (Option.any_eq_true _ _).mp h
  exact ⟨u,hcloses,hsteps k u hu⟩

mutual

theorem steps_pieces : ∀ (i : Instr) (L : List (List ValType)) (s t : Stack) (f : Validation.Frame)
    (fs : List Validation.Frame) (base : List ValType), (f :: fs).map (·.label) = L →
    Numbered E number i.routines → check E L i s = some t →
    Validation.steps E number i.pieces (s.place f fs base) = some (t.place f fs base)
  | .op o, L, s, t, f, fs, base, hL, _, h => by
    show (Validation.op E o _).bind some = _
    rw [op_of_checkOp hL h]
    rfl
  | .routine r, L, s, t, f, fs, base, hL, hn, h => by
    obtain ⟨i,hi,htype⟩ := hn r (.head _)
    show ((number r.name).bind fun i => Validation.op E (.call i) _).bind some = _
    rw [hi,Option.bind_some,Validation.op,Op.type?,htype,Option.bind_some,Stack.place_apply h]
    · rfl
    all_goals simp
  | .block ty b, L, s, t, f, fs, base, hL, hn, h => by
    obtain ⟨hb,heq⟩ := Option.ite_none_right_eq_some.mp h
    cases heq
    exact steps_enclosed nofun (.of_steps hb fun k u hu =>
      steps_piecesOf b _ .empty u _ _ _ (congrArg (ty.toList :: ·) hL) hn hu)
  | .loop ty b, L, s, t, f, fs, base, hL, hn, h => by
    obtain ⟨hb,heq⟩ := Option.ite_none_right_eq_some.mp h
    cases heq
    exact steps_enclosed nofun (.of_steps hb fun k u hu =>
      steps_piecesOf b _ .empty u _ _ _ (congrArg ([] :: ·) hL) hn hu)
  | .cond ty y none, L, s, t, f, fs, base, hL, hn, h => by
    obtain ⟨u,hu,hite⟩ := Option.bind_eq_some_iff.mp h
    obtain ⟨⟨hy,rfl⟩,heq⟩ := Option.ite_none_right_eq_some.mp hite
    cases heq
    show ((Validation.popIf _ (s.place f fs base)).map _).bind _ = _
    rw [Stack.place_popIf hu]
    exact steps_enclosed (fun _ => rfl) (.of_steps hy fun k u hu =>
      steps_piecesOf y _ .empty u _ _ _ (congrArg ([] :: ·) hL) hn hu)
  | .cond ty y (some n), L, s, t, f, fs, base, hL, hn, h => by
    obtain ⟨u,hu,hite⟩ := Option.bind_eq_some_iff.mp h
    obtain ⟨⟨hy,hno⟩,heq⟩ := Option.ite_none_right_eq_some.mp hite
    cases heq
    obtain ⟨v,hyes,hv⟩ := (Option.any_eq_true _ _).mp hy
    have hsteps := steps_piecesOf y _ .empty v ⟨some .cond, ty.toList, ty.toList, 0, false⟩
      (u.frame f base :: fs) (u.vals ++ base) (congrArg (ty.toList :: ·) hL) hn.left hyes
    show ((Validation.popIf _ (s.place f fs base)).map _).bind _ = _
    rw [Stack.place_popIf hu]
    show Validation.steps E number ((Instr.piecesOf y ++ Piece.otherwise :: Instr.piecesOf n) ++ [Piece.finish])
      (Validation.enter .cond ty.toList ty.toList (u.place f fs base)) = _
    rw [List.append_assoc,Stack.place_enter,steps_append hsteps]
    show (Validation.step E number .otherwise _).bind _ = _
    rw [step_otherwise hv]
    exact steps_enclosed nofun (.of_steps hno fun k w hw =>
      steps_piecesOf n _ .empty w _ _ _ (congrArg (ty.toList :: ·) hL) hn.right hw)

theorem steps_piecesOf : ∀ (is : List Instr) (L : List (List ValType)) (s t : Stack)
    (f : Validation.Frame) (fs : List Validation.Frame) (base : List ValType),
    (f :: fs).map (·.label) = L → Numbered E number (Instr.routinesOf is) →
    checkAll E L is s = some t →
    Validation.steps E number (Instr.piecesOf is) (s.place f fs base) = some (t.place f fs base)
  | [], _, _, _, _, _, _, _, _, h => by cases h; rfl
  | i :: is, L, s, t, f, fs, base, hL, hn, h => by
    obtain ⟨u,hu,hrest⟩ := Option.bind_eq_some_iff.mp h
    show Validation.steps E number (i.pieces ++ Instr.piecesOf is) _ = _
    rw [steps_append (steps_pieces i L s u f fs base hL hn.left hu)]
    exact steps_piecesOf is L u t f fs base hL hn.right hrest

end

theorem isValid_piecesOf {is : List Instr} (hn : Numbered E number (Instr.routinesOf is))
    (h : (checkAll E [E.results] is .empty).any (·.closes E.results) = true) :
    (Instr.piecesOf is : Code).isValid E number = true := by
  obtain ⟨u,hsteps,hu⟩ := (Option.any_eq_true _ _).mp h
  have hrun := steps_piecesOf is [E.results] .empty u ⟨none, E.results, E.results, 0, false⟩ [] [] rfl
    hn hsteps
  have hinit : (⟨[], [⟨none, E.results, E.results, 0, false⟩]⟩ : Validation.State) =
      Stack.empty.place ⟨none, E.results, E.results, 0, false⟩ [] [] := rfl
  rw [Code.isValid,hinit,steps_append hrun]
  show ((Validation.step E number .finish _).bind some).any _ = true
  rw [Stack.step_finish (f := ⟨none, E.results, E.results, 0, false⟩) hu nofun]
  rfl

end Covenant.Lower
