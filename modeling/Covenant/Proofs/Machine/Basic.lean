import Covenant.Lower.Instr
import Covenant.Proofs.Wasm.Validation

/-! How the machine runs nested code, by the semantics of WebAssembly. Each construct has operands of
its own; what lies below them waits in its frame. Memory, globals and calls are left out: code that
needs them is `stuck` here. -/

namespace Covenant.Machine

open Wasm Lower

inductive Number where
  | i32 (w : BitVec 32)
  | i64 (w : BitVec 64)
  deriving DecidableEq, Repr

def Number.zero : ValType → Number
  | .i32 => i32 0
  | .i64 => i64 0

def Number.ofBool (b : Bool) : Number := i32 (if b then 1 else 0)

inductive Effect (α : Type) where
  | value (a : α)
  | trap
  | stuck
  deriving DecidableEq, Repr

def unary : NumOp → Number → Effect Number
  | .i32Eqz, .i32 a => .value (.ofBool (a == 0))
  | .i64Eqz, .i64 a => .value (.ofBool (a == 0))
  | .i32WrapI64, .i64 a => .value (.i32 (a.setWidth 32))
  | .i64ExtendI32U, .i32 a => .value (.i64 (a.setWidth 64))
  | _, _ => .stuck

/-- Operators with two operands. Shifts count modulo the width. -/
def binary : NumOp → Number → Number → Effect Number
  | .i32Eq, .i32 a, .i32 b => .value (.ofBool (a == b))
  | .i32Ne, .i32 a, .i32 b => .value (.ofBool (a != b))
  | .i32LtU, .i32 a, .i32 b => .value (.ofBool (a.ult b))
  | .i32GtU, .i32 a, .i32 b => .value (.ofBool (b.ult a))
  | .i32GeU, .i32 a, .i32 b => .value (.ofBool (b.ule a))
  | .i32Add, .i32 a, .i32 b => .value (.i32 (a + b))
  | .i32Sub, .i32 a, .i32 b => .value (.i32 (a - b))
  | .i32Mul, .i32 a, .i32 b => .value (.i32 (a * b))
  | .i32And, .i32 a, .i32 b => .value (.i32 (a &&& b))
  | .i32Shl, .i32 a, .i32 b => .value (.i32 (a <<< (b.toNat % 32)))
  | .i32ShrU, .i32 a, .i32 b => .value (.i32 (a >>> (b.toNat % 32)))
  | .i64Eq, .i64 a, .i64 b => .value (.ofBool (a == b))
  | .i64Ne, .i64 a, .i64 b => .value (.ofBool (a != b))
  | .i64LtS, .i64 a, .i64 b => .value (.ofBool (a.slt b))
  | .i64GtS, .i64 a, .i64 b => .value (.ofBool (b.slt a))
  | .i64LeS, .i64 a, .i64 b => .value (.ofBool (a.sle b))
  | .i64GeS, .i64 a, .i64 b => .value (.ofBool (b.sle a))
  | .i64GeU, .i64 a, .i64 b => .value (.ofBool (b.ule a))
  | .i64Add, .i64 a, .i64 b => .value (.i64 (a + b))
  | .i64Sub, .i64 a, .i64 b => .value (.i64 (a - b))
  | .i64Mul, .i64 a, .i64 b => .value (.i64 (a * b))
  | .i64DivS, .i64 a, .i64 b =>
    if b = 0 then .trap
    else if a = BitVec.intMin 64 ∧ b = -1 then .trap
    else .value (.i64 (a.sdiv b))
  | .i64RemS, .i64 a, .i64 b => if b = 0 then .trap else .value (.i64 (a.srem b))
  | _, _, _ => .stuck

/-- A construct that is being run: its body if it is a loop, how many values a jump to it takes, the
operands below and the code after it. -/
structure Frame where
  again : Option (List Instr)
  arity : Nat
  below : List Number
  rest : List Instr

/-- Operands have the last one first, frames the innermost. -/
structure Config where
  stack : List Number
  locals : List Number
  frames : List Frame
  code : List Instr

inductive Status where
  | running (c : Config)
  | returned (values : List Number)
  | trapped
  | stuck

section

-- how many results the function has
variable (arity : Nat)

/-- A jump goes behind a block, or to the start of a loop. -/
def branch (stack locals : List Number) : Nat → List Frame → Status
  | 0, f :: fs =>
    match f.again with
    | none => .running ⟨stack.take f.arity ++ f.below, locals, fs, f.rest⟩
    | some body => .running ⟨[], locals, f :: fs, body⟩
  | 0, [] => .returned (stack.take arity)
  | n + 1, _ :: fs => branch stack locals n fs
  | _ + 1, [] => .stuck

/-- An instruction without nested code; the code of the configuration is what follows it. -/
def op (o : Op) (c : Config) : Status :=
  match o, c.stack with
  | .unreachable, _ => .trapped
  | .br n, _ => branch arity c.stack c.locals n c.frames
  | .brIf n, .i32 a :: st =>
    if a = 0 then .running { c with stack := st } else branch arity st c.locals n c.frames
  | .ret, _ => .returned (c.stack.take arity)
  | .drop, _ :: st => .running { c with stack := st }
  | .localGet i, _ =>
    match c.locals[i]? with
    | some v => .running { c with stack := v :: c.stack }
    | none => .stuck
  | .localSet i, v :: st =>
    if i < c.locals.length then .running { c with stack := st, locals := c.locals.set i v } else .stuck
  | .localTee i, v :: _ =>
    if i < c.locals.length then .running { c with locals := c.locals.set i v } else .stuck
  | .i32Const v, _ => .running { c with stack := .i32 (BitVec.ofInt 32 v) :: c.stack }
  | .i64Const v, _ => .running { c with stack := .i64 (BitVec.ofInt 64 v) :: c.stack }
  | .num o, st =>
    match o.type.params, st with
    | [_], a :: st =>
      match unary o a with
      | .value n => .running { c with stack := n :: st }
      | .trap => .trapped
      | .stuck => .stuck
    | [_, _], b :: a :: st =>
      match binary o a b with
      | .value n => .running { c with stack := n :: st }
      | .trap => .trapped
      | .stuck => .stuck
    | _, _ => .stuck
  | _, _ => .stuck

def step (c : Config) : Status :=
  match c.code with
  | [] =>
    match c.frames with
    | [] => .returned (c.stack.take arity)
    | f :: fs => .running ⟨c.stack ++ f.below, c.locals, fs, f.rest⟩
  | .op o :: is => op arity o { c with code := is }
  | .routine _ :: _ => .stuck
  | .block t b :: is => .running ⟨[], c.locals, ⟨none, t.toList.length, c.stack, is⟩ :: c.frames, b⟩
  | .loop _ b :: is => .running ⟨[], c.locals, ⟨some b, 0, c.stack, is⟩ :: c.frames, b⟩
  | .cond t y n :: is =>
    match c.stack with
    | .i32 a :: st =>
      .running ⟨[], c.locals, ⟨none, t.toList.length, st, is⟩ :: c.frames, if a = 0 then n.getD [] else y⟩
    | _ => .stuck

def run : Nat → Config → Status
  | 0, c => .running c
  | n + 1, c =>
    match step arity c with
    | .running c => run n c
    | s => s

def Comes (c : Config) (s : Status) : Prop := ∃ n, run arity n c = s

def Lasts (n : Nat) (c : Config) : Prop := ∃ m d, n ≤ m ∧ run arity m c = .running d

def Runs (c : Config) : Prop := ∀ n, ∃ d, run arity n c = .running d

end

variable {arity : Nat} {c d : Config} {s t : Status}

theorem run_add {m : Nat} (h : run arity m c = .running d) (n : Nat) :
    run arity (m + n) c = run arity n d := by
  induction m generalizing c with
  | zero =>
    cases h
    rw [Nat.zero_add]
  | succ m ih =>
    rw [Nat.succ_add,run]
    rw [run] at h
    cases hs : step arity c with
    | running e =>
      rw [hs] at h
      exact ih h
    | returned vs => simp [hs] at h
    | trapped => simp [hs] at h
    | stuck => simp [hs] at h

theorem run_ended {m : Nat} (h : run arity m c = s) (hs : ∀ d, s ≠ .running d) (n : Nat) :
    run arity (m + n) c = s := by
  induction m generalizing c with
  | zero => exact absurd h.symm (hs c)
  | succ m ih =>
    rw [Nat.succ_add,run]
    rw [run] at h
    cases hstep : step arity c with
    | running e =>
      rw [hstep] at h
      exact ih h
    | returned vs =>
      rw [hstep] at h
      exact h
    | trapped =>
      rw [hstep] at h
      exact h
    | stuck =>
      rw [hstep] at h
      exact h

theorem run_running {m n : Nat} (h : run arity m c = .running d) (hn : n ≤ m) :
    ∃ e, run arity n c = .running e := by
  obtain ⟨k,rfl⟩ := Nat.le.dest hn
  cases hr : run arity n c with
  | running e => exact ⟨e,rfl⟩
  | returned vs | trapped | stuck =>
    rw [run_ended hr (by simp)] at h
    cases h

namespace Comes

theorem refl (c : Config) : Comes arity c (.running c) := ⟨0,rfl⟩

theorem trans (h : Comes arity c (.running d)) (h' : Comes arity d s) : Comes arity c s := by
  obtain ⟨m,hm⟩ := h
  obtain ⟨n,hn⟩ := h'
  exact ⟨m + n,(run_add hm n).trans hn⟩

theorem of_step (h : step arity c = s) : Comes arity c s := by
  refine ⟨1,?_⟩
  rw [run,h]
  cases s <;> rfl

theorem step_trans (h : step arity c = .running d) (h' : Comes arity d s) : Comes arity c s :=
  (of_step h).trans h'

theorem unique (h : Comes arity c s) (h' : Comes arity c t) (hs : ∀ d, s ≠ .running d)
    (ht : ∀ d, t ≠ .running d) : s = t := by
  obtain ⟨m,hm⟩ := h
  obtain ⟨n,hn⟩ := h'
  have hsm := run_ended hm hs n
  have htn := run_ended hn ht m
  rw [Nat.add_comm,hsm] at htn
  exact htn

theorem not_runs (h : Comes arity c s) (hs : ∀ d, s ≠ .running d) : ¬ Runs arity c := by
  intro hr
  obtain ⟨n,hn⟩ := h
  obtain ⟨d,hd⟩ := hr n
  exact hs d (hn.symm.trans hd)

end Comes

namespace Lasts

theorem zero (c : Config) : Lasts arity 0 c := ⟨0,c,Nat.le_refl 0,rfl⟩

theorem mono {m n : Nat} (h : Lasts arity n c) (hm : m ≤ n) : Lasts arity m c := by
  obtain ⟨k,d,hk,hd⟩ := h
  exact ⟨k,d,Nat.le_trans hm hk,hd⟩

theorem trans {n : Nat} (h : Comes arity c (.running d)) (h' : Lasts arity n d) : Lasts arity n c := by
  obtain ⟨m,hm⟩ := h
  obtain ⟨k,e,hk,he⟩ := h'
  exact ⟨m + k,e,Nat.le_trans hk (Nat.le_add_left k m),(run_add hm k).trans he⟩

theorem succ {n : Nat} (h : step arity c = .running d) (h' : Lasts arity n d) :
    Lasts arity (n + 1) c := by
  obtain ⟨k,e,hk,he⟩ := h'
  refine ⟨k + 1,e,Nat.succ_le_succ hk,?_⟩
  rw [run,h]
  exact he

theorem runs (h : ∀ n, Lasts arity n c) : Runs arity c := by
  intro n
  obtain ⟨m,d,hm,hd⟩ := h n
  exact run_running hd hm

end Lasts

end Covenant.Machine
