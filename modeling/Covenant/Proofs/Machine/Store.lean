import Covenant.Lower.Routine
import Covenant.Proofs.Machine.Basic
import Covenant.Proofs.Memory.Pool

/-! The machine with what routines work on: a memory that is read, written and grown, the first free address of
the heap, and calls of other routines. All else is as in the machine without them. -/

namespace Covenant.Machine

open Wasm Lower Memory

/-- What stays when a call ends. Only the bytes of the pages there are can be reached. -/
structure Store where
  memory : Nat → UInt8
  pages : Nat
  heap : BitVec 32

/-- How far memory can grow: never past `maxPages`, and only where the system grants as many pages more to a
memory of so many. -/
structure Room where
  maxPages : Nat
  grants : Nat → Nat → Bool

namespace Store

variable (σ : Store)

def size : Nat := σ.pages * pageSize

def bytes (a n : Nat) : List UInt8 := (List.range n).map fun i => σ.memory (a + i)

def write (a : Nat) (bs : List UInt8) : Store :=
  { σ with memory := fun i => if a ≤ i then bs[i - a]?.getD (σ.memory i) else σ.memory i }

/-- New pages are zero. -/
def grow? (R : Room) (n : Nat) : Option Store :=
  if σ.pages + n ≤ R.maxPages ∧ R.grants σ.pages n = true then
    some { σ with pages := σ.pages + n, memory := fun i => if i < σ.size then σ.memory i else 0 }
  else none

/-- What `memory.grow` answers, and what it leaves: a memory that is not grown has minus one page. -/
def grow (R : Room) (n : Nat) : BitVec 32 × Store :=
  match σ.grow? R n with
  | some τ => (BitVec.ofNat 32 σ.pages,τ)
  | none => (-1,σ)

/-- What is loaded goes on the stack; loading past the end of memory traps. -/
def load (a n : Nat) (value : List UInt8 → Number) (st : List Number) : Effect (List Number × Store) :=
  if a + n ≤ σ.size then .value (value (σ.bytes a n) :: st,σ) else .trap

def store (a : Nat) (bs : List UInt8) (st : List Number) : Effect (List Number × Store) :=
  if a + bs.length ≤ σ.size then .value (st,σ.write a bs) else .trap

end Store

def le64 (n : Nat) : List UInt8 := le32 n ++ le32 (n / 2 ^ 32)

def word (bs : List UInt8) : Number := .i32 (BitVec.ofNat 32 (leNat bs))

def long (bs : List UInt8) : Number := .i64 (BitVec.ofNat 64 (leNat bs))

/-- Instructions on memory and on the heap pointer. -/
def act (R : Room) (σ : Store) : Op → List Number → Effect (List Number × Store)
  | .i32Load k, .i32 a :: st => σ.load (a.toNat + k) 4 word st
  | .i64Load k, .i32 a :: st => σ.load (a.toNat + k) 8 long st
  | .i32Load8U k, .i32 a :: st => σ.load (a.toNat + k) 1 word st
  | .i32Store k, .i32 w :: .i32 a :: st => σ.store (a.toNat + k) (le32 w.toNat) st
  | .i64Store k, .i64 w :: .i32 a :: st => σ.store (a.toNat + k) (le64 w.toNat) st
  | .i32Store8 k, .i32 w :: .i32 a :: st => σ.store (a.toNat + k) [w.toNat.toUInt8] st
  | .memorySize, st => .value (.i32 (BitVec.ofNat 32 σ.pages) :: st,σ)
  | .memoryGrow, .i32 n :: st => .value (.i32 (σ.grow R n.toNat).1 :: st,(σ.grow R n.toNat).2)
  | .globalGet i, st => if i = Routine.heapGlobal then .value (.i32 σ.heap :: st,σ) else .stuck
  | .globalSet i, .i32 a :: st => if i = Routine.heapGlobal then .value (st,{ σ with heap := a }) else .stuck
  | _, _ => .stuck

/-- The call that is run, with the number of its results, and the calls that wait for it. -/
structure Thread where
  config : Config
  arity : Nat
  callers : List (Config × Nat)
  store : Store

inductive Outcome where
  | running (t : Thread)
  | returned (values : List Number) (store : Store)
  | trapped
  | stuck

/-- A routine at its start: its other locals are zero. -/
def enter (r : Routine) (args : List Number) (callers : List (Config × Nat)) (σ : Store) : Thread :=
  ⟨⟨[],args ++ r.locals.map Number.zero,[],r.code⟩,r.type.results.length,callers,σ⟩

/-- The end of a call: the one that waits for it goes on with the results. -/
def finish (values : List Number) (callers : List (Config × Nat)) (σ : Store) : Outcome :=
  match callers with
  | [] => .returned values σ
  | (c,k) :: cs => .running ⟨{ c with stack := values ++ c.stack },k,cs,σ⟩

section

variable (R : Room)

def advance (t : Thread) : Outcome :=
  match step t.arity t.config, t.config.code with
  | .running c, _ => .running { t with config := c }
  | .returned vs, _ => finish vs t.callers t.store
  | .trapped, _ => .trapped
  | .stuck, .op o :: is =>
    match act R t.store o t.config.stack with
    | .value (st,σ) => .running { t with config := { t.config with stack := st, code := is }, store := σ }
    | .trap => .trapped
    | .stuck => .stuck
  | .stuck, .routine r :: is =>
    let n := r.type.params.length
    .running (enter r (t.config.stack.take n).reverse
      (({ t.config with stack := t.config.stack.drop n, code := is },t.arity) :: t.callers) t.store)
  | .stuck, _ => .stuck

def runThread : Nat → Thread → Outcome
  | 0, t => .running t
  | n + 1, t =>
    match advance R t with
    | .running u => runThread n u
    | o => o

def Goes (t : Thread) (o : Outcome) : Prop := ∃ n, runThread R n t = o

/-- A call of the routine ends with the values, wherever it is made. -/
def Returns (r : Routine) (args : List Number) (σ : Store) (values : List Number) (σ' : Store) : Prop :=
  ∀ callers, Goes R (enter r args callers σ) (finish values callers σ')

def Traps (r : Routine) (args : List Number) (σ : Store) : Prop :=
  ∀ callers, Goes R (enter r args callers σ) .trapped

end

variable {R : Room} {t u : Thread} {o p : Outcome}

theorem runThread_add {m : Nat} (h : runThread R m t = .running u) (n : Nat) :
    runThread R (m + n) t = runThread R n u := by
  induction m generalizing t with
  | zero =>
    cases h
    rw [Nat.zero_add]
  | succ m ih =>
    rw [Nat.succ_add,runThread]
    rw [runThread] at h
    cases hs : advance R t with
    | running v =>
      rw [hs] at h
      exact ih h
    | _ => simp [hs] at h

theorem runThread_ended {m : Nat} (h : runThread R m t = o) (ho : ∀ u, o ≠ .running u) (n : Nat) :
    runThread R (m + n) t = o := by
  induction m generalizing t with
  | zero => exact absurd h.symm (ho t)
  | succ m ih =>
    rw [Nat.succ_add,runThread]
    rw [runThread] at h
    cases hs : advance R t with
    | running v =>
      rw [hs] at h
      exact ih h
    | _ =>
      rw [hs] at h
      exact h

namespace Goes

theorem trans (h : Goes R t (.running u)) (h' : Goes R u o) : Goes R t o := by
  obtain ⟨m,hm⟩ := h
  obtain ⟨n,hn⟩ := h'
  exact ⟨m + n,(runThread_add hm n).trans hn⟩

theorem of_advance (h : advance R t = o) : Goes R t o := by
  refine ⟨1,?_⟩
  rw [runThread,h]
  cases o <;> rfl

/-- A run ends in one way only. -/
theorem unique (h : Goes R t o) (h' : Goes R t p) (ho : ∀ u, o ≠ .running u) (hp : ∀ u, p ≠ .running u) :
    o = p := by
  obtain ⟨m,hm⟩ := h
  obtain ⟨n,hn⟩ := h'
  have hom := runThread_ended hm ho n
  have hpn := runThread_ended hn hp m
  rw [Nat.add_comm,hom] at hpn
  exact hpn

variable {k : Nat} {cs : List (Config × Nat)} {σ τ : Store} {st st' L : List Number} {fs : List Frame}
  {is : List Instr}

/-- What the machine does without a memory it does with one. -/
theorem next {c d : Config} (h : step k c = .running d) (h' : Goes R ⟨d,k,cs,σ⟩ o) : Goes R ⟨c,k,cs,σ⟩ o :=
  trans (of_advance (by simp only [advance, h])) h'

theorem ends {c : Config} (h : step k c = .returned st) : Goes R ⟨c,k,cs,σ⟩ (finish st cs σ) :=
  of_advance (by simp only [advance, h])

theorem get {i : Nat} {v : Number} (h : L[i]? = some v) (h' : Goes R ⟨⟨v :: st,L,fs,is⟩,k,cs,σ⟩ o) :
    Goes R ⟨⟨st,L,fs,.get i :: is⟩,k,cs,σ⟩ o :=
  next (by simp only [Instr.get, step, op, h]) h'

theorem set {i : Nat} {v : Number} (h : L[i]?.isSome = true) (h' : Goes R ⟨⟨st,L.set i v,fs,is⟩,k,cs,σ⟩ o) :
    Goes R ⟨⟨v :: st,L,fs,.set i :: is⟩,k,cs,σ⟩ o :=
  next (by simpa [Instr.set, step, op] using h) h'

theorem tee {i : Nat} {v : Number} (h : L[i]?.isSome = true) (h' : Goes R ⟨⟨v :: st,L.set i v,fs,is⟩,k,cs,σ⟩ o) :
    Goes R ⟨⟨v :: st,L,fs,.tee i :: is⟩,k,cs,σ⟩ o :=
  next (by simpa [Instr.tee, step, op] using h) h'

theorem i32 {n : Int} (h' : Goes R ⟨⟨.i32 (BitVec.ofInt 32 n) :: st,L,fs,is⟩,k,cs,σ⟩ o) :
    Goes R ⟨⟨st,L,fs,.i32 n :: is⟩,k,cs,σ⟩ o :=
  next rfl h'

theorem num {x : NumOp} {a b v : Number} (hx : x.type.params.length = 2) (h : binary x a b = .value v)
    (h' : Goes R ⟨⟨v :: st,L,fs,is⟩,k,cs,σ⟩ o) : Goes R ⟨⟨b :: a :: st,L,fs,.num x :: is⟩,k,cs,σ⟩ o := by
  obtain ⟨p,q,hp⟩ := List.length_eq_two.mp hx
  exact next (by simp only [Instr.num, step, op, hp, h]) h'

theorem cond {t : BlockType} {b : Bool} {y : List Instr} {n : Option (List Instr)}
    (h' : Goes R ⟨⟨[],L,⟨none,t.toList.length,st,is⟩ :: fs,if b then y else n.getD []⟩,k,cs,σ⟩ o) :
    Goes R ⟨⟨.ofBool b :: st,L,fs,.cond t y n :: is⟩,k,cs,σ⟩ o :=
  next (by cases b <;> rfl) h'

theorem leave {f : Frame} (h' : Goes R ⟨⟨st ++ f.below,L,fs,f.rest⟩,k,cs,σ⟩ o) :
    Goes R ⟨⟨st,L,f :: fs,[]⟩,k,cs,σ⟩ o :=
  next rfl h'

theorem pass {b : Bool} (hb : b = false) (h' : Goes R ⟨⟨st,L,fs,is⟩,k,cs,σ⟩ o) :
    Goes R ⟨⟨.ofBool b :: st,L,fs,.trapIf :: is⟩,k,cs,σ⟩ o := by
  subst hb
  exact cond (leave h')

theorem fail {b : Bool} (hb : b = true) : Goes R ⟨⟨.ofBool b :: st,L,fs,.trapIf :: is⟩,k,cs,σ⟩ .trapped := by
  subst hb
  exact cond (of_advance rfl)

/-- A jump that is not taken. -/
theorem stay {n : Nat} {b : Bool} (hb : b = false) (h' : Goes R ⟨⟨st,L,fs,is⟩,k,cs,σ⟩ o) :
    Goes R ⟨⟨.ofBool b :: st,L,fs,.op (.brIf n) :: is⟩,k,cs,σ⟩ o := by
  subst hb
  exact next rfl h'

theorem act {x : Op} (hx : step k ⟨st,L,fs,.op x :: is⟩ = .stuck) (h : Machine.act R σ x st = .value (st',τ))
    (h' : Goes R ⟨⟨st',L,fs,is⟩,k,cs,τ⟩ o) : Goes R ⟨⟨st,L,fs,.op x :: is⟩,k,cs,σ⟩ o :=
  trans (of_advance (by simp only [advance, hx, h])) h'

theorem call {r : Routine} {values : List Number}
    (h : Returns R r (st.take r.type.params.length).reverse σ values τ)
    (h' : Goes R ⟨⟨values ++ st.drop r.type.params.length,L,fs,is⟩,k,cs,τ⟩ o) :
    Goes R ⟨⟨st,L,fs,.routine r :: is⟩,k,cs,σ⟩ o :=
  trans (of_advance rfl) (trans (h _) h')

theorem call_traps {r : Routine} (h : Traps R r (st.take r.type.params.length).reverse σ) :
    Goes R ⟨⟨st,L,fs,.routine r :: is⟩,k,cs,σ⟩ .trapped :=
  trans (of_advance rfl) (h _)

end Goes

variable {r : Routine} {args vs : List Number} {σ τ : Store}

theorem Returns.not_traps (h : Returns R r args σ vs τ) : ¬ Traps R r args σ := by
  intro h'
  have hsame := (h []).unique (h' []) nofun nofun
  simp [finish] at hsame

theorem Returns.unique {vs' : List Number} {τ' : Store} (h : Returns R r args σ vs τ)
    (h' : Returns R r args σ vs' τ') : vs = vs' ∧ τ = τ' := by
  have hsame := (h []).unique (h' []) nofun nofun
  simpa [finish] using hsame

end Covenant.Machine
