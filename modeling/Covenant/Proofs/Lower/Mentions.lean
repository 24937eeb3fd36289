import Covenant.Lower.Program
import Covenant.Proofs.Memory.Pool
import Mathlib.Data.List.Forall2

/-! What the code of a tree refers to: numbers, string literals and functions, each where the code gets to
it. Arms behind a pattern that matches everything have no code. -/

namespace Covenant

open Wasm Memory

namespace Lower

inductive Callable where
  | user (name : String)
  | host (fn : HostFunction)
  | routine (r : Routine)
  deriving DecidableEq, Repr

/-- A number of 32 bits that stands for itself, the address of a text, or a function that is called. -/
inductive Mention where
  | word (v : Int)
  | text (s : String)
  | call (f : Callable)
  deriving DecidableEq, Repr

/-- What code refers to by number: the sizes of records and of small arrays, and the functions. -/
structure Linkage where
  record : String → Nat
  capacity : Nat
  user : String → Option Nat
  host : HostFunction → Option Nat

def Context.linkage (c : Context) : Linkage where
  record n := recordSize ((c.record? n).elim 0 fun d => d.fields.length)
  capacity := c.arrayCapacity
  user f := (c.target? f).map (·.index)
  host := c.importIndex?

def newObject (bytes : Nat) : List Mention := [.word bytes, .call (.routine .alloc)]

def comparison (t : Option Ty) : List Mention :=
  if t = some .string ∨ t = some .did then [.call (.routine .equal)] else []

/-- The type of the elements of an array, which is that of an item if the array leaves it open. -/
def soughtType (array item : Option Ty) : Option Ty :=
  match array with
  | some (.array t) => if t.hasHole then item else some t
  | _ => none

def newArray (count capacity : Nat) : List Mention :=
  newObject (arraySize capacity) ++ [.word count, .word capacity]

end Lower

open Lower

def Value.mentions : Value → List Mention
  | .int _ => []
  | .bool b => [.word (if b then 1 else 0)]
  | .text s => [.text s]

def Symbol.mentions (s : Symbol) : List Mention :=
  if s.kind = .constant then (s.value.map Value.mentions).getD [] else []

def BinaryOp.mentions (left : Option Ty) : BinaryOp → List Mention
  | .concat => [.call (.routine .concat)]
  | .eq | .ne => comparison left
  | _ => []

def Builtin.mentions (types : List (Option Ty)) : Builtin → List Mention
  | .arrayLen | .stringLen => []
  | .stringConcat => [.call (.routine .concat)]
  | .arrayPush => [.word slotSize, .word 1]
  | .arrayPop => newObject variantSize ++ [.word 1, .word slotSize]
  | .arrayContains =>
    [.word 0, .word 0, .word slotSize] ++
      ((match types with
        | array :: item :: _ => comparison (soughtType array item)
        | _ => []) ++ [.word 1, .word 1])

def PatternForm.mentions : PatternForm → List Mention
  | .text s => [.text s, .call (.routine .equal)]
  | _ => []

mutual

def Expr.mentions (G : Linkage) : Expr → List Mention
  | .int _ _ | .enum _ _ _ _ => []
  | .bool _ b => [.word (if b then 1 else 0)]
  | .text _ s => [.text s]
  | .name _ _ sym => (sym.map Symbol.mentions).getD []
  | .unary _ _ e | .field _ e _ => e.mentions G
  | .binary _ .and a b => a.mentions G ++ (b.mentions G ++ [.word 0])
  | .binary _ .or a b => a.mentions G ++ .word 1 :: b.mentions G
  | .binary _ op a b => a.mentions G ++ (b.mentions G ++ op.mentions a.type)
  | .call _ (.builtin op) args =>
    ((Expr.mentionsEach G args).take op.arity).flatten ++ op.mentions (args.map (·.type))
  | .call _ (.user f) args => (Expr.mentionsEach G args).flatten ++ [.call (.user f)]
  | .call _ (.host h) args => (Expr.mentionsEach G args).flatten ++ [.call (.host h)]
  | .call _ (.unresolved _) args => (Expr.mentionsEach G args).flatten
  | .method _ e _ args (some op) =>
    ((e.mentions G :: Expr.mentionsEach G args).take op.arity).flatten ++
      op.mentions (e.type :: args.map (·.type))
  | .method _ _ _ _ none => []
  | .array _ es =>
    newArray es.length (max es.length G.capacity) ++ (Expr.mentionsEach G es).flatten
  | .index _ a i => a.mentions G ++ (i.mentions G ++ [.word slotSize])
  | .record _ n fs => newObject (G.record n) ++ FieldInit.mentionsIn G fs
  | .wrap _ _ e => newObject variantSize ++ e.mentions G
  | .noneLit _ => newObject variantSize
  | .select _ e as => e.mentions G ++ Arm.mentionsIn G as
  | .block _ ss none _ => Stmt.mentionsIn G ss
  | .block _ ss (some e) _ => Stmt.mentionsIn G ss ++ e.mentions G

def Expr.mentionsEach (G : Linkage) : List Expr → List (List Mention)
  | [] => []
  | e :: es => e.mentions G :: Expr.mentionsEach G es

def FieldInit.mentionsIn (G : Linkage) : List FieldInit → List Mention
  | [] => []
  | .mk _ _ e :: fs => e.mentions G ++ FieldInit.mentionsIn G fs

def Arm.mentionsIn (G : Linkage) : List Arm → List Mention
  | [] => []
  | .mk _ p e :: as =>
    if p.form.isCatchAll then e.mentions G
    else p.form.mentions ++ (e.mentions G ++ Arm.mentionsIn G as)

def Stmt.mentions (G : Linkage) : Stmt → List Mention
  | .bind _ _ _ e _ | .ret _ (some e) | .expr _ e => e.mentions G
  | .assign _ (.name _ _ _) e => e.mentions G
  | .assign _ t e => t.mentions G ++ e.mentions G
  | .ret _ none | .leave _ | .next _ => []
  | .cond _ c => c.mentions G
  | .loop _ e b => e.mentions G ++ b.mentions G
  | .each _ _ e b _ => e.mentions G ++ ([.word 0, .word slotSize] ++ (b.mentions G ++ [.word 1]))

def Stmt.mentionsIn (G : Linkage) : List Stmt → List Mention
  | [] => []
  | s :: ss => s.mentions G ++ Stmt.mentionsIn G ss

def Block.mentions (G : Linkage) : Block → List Mention
  | .mk _ ss => Stmt.mentionsIn G ss

def Chain.mentions (G : Linkage) : Chain → List Mention
  | .stop => []
  | .otherwise b => b.mentions G
  | .branch _ e b rest => e.mentions G ++ (b.mentions G ++ rest.mentions G)

end

def Wasm.Piece.refers : Piece → Bool
  | .op (.i32Const _) | .op (.call _) | .routine _ => true
  | _ => false

def Wasm.Code.references (code : Code) : Code := code.filter Piece.refers

namespace Lower

def textsOf (ms : List Mention) : List String :=
  ms.filterMap fun
    | .text s => some s
    | _ => none

@[simp] theorem textsOf_append (ms ns : List Mention) : textsOf (ms ++ ns) = textsOf ms ++ textsOf ns :=
  List.filterMap_append

inductive Refers (G : Linkage) (P : Pool) : Mention → Piece → Prop where
  | word (v : Int) : Refers G P (.word v) (.op (.i32Const v))
  | text {s : String} (h : s ∈ P.texts) : Refers G P (.text s) (.op (.i32Const (P.address s)))
  | user {f : String} {i : Nat} (h : G.user f = some i) : Refers G P (.call (.user f)) (.op (.call i))
  | host {f : HostFunction} {i : Nat} (h : G.host f = some i) : Refers G P (.call (.host f)) (.op (.call i))
  | routine (r : Routine) : Refers G P (.call (.routine r)) (.routine r.name)

/-- The piece of code that a number or a routine comes to. -/
def Mention.piece? : Mention → Option Piece
  | .word v => some (.op (.i32Const v))
  | .call (.routine r) => some (.routine r.name)
  | _ => none

def Shows (G : Linkage) (P : Pool) (ms : List Mention) (code : List Instr) : Prop :=
  List.Forall₂ (Refers G P) ms (Instr.piecesOf code : Code).references

namespace Instr

theorem piecesOf_append (xs ys : List Instr) : piecesOf (xs ++ ys) = piecesOf xs ++ piecesOf ys := by
  induction xs with
  | nil => rfl
  | cons x xs ih => simp [piecesOf, ih]

theorem references_append (xs ys : List Instr) :
    (piecesOf (xs ++ ys) : Code).references =
      (piecesOf xs : Code).references ++ (piecesOf ys : Code).references := by
  rw [piecesOf_append]
  exact List.filter_append ..

theorem references_block (t : BlockType) (b : List Instr) :
    (piecesOf [.block t b] : Code).references = (piecesOf b : Code).references := by
  simp [piecesOf, pieces, Code.references, Piece.refers]

theorem references_loop (t : BlockType) (b : List Instr) :
    (piecesOf [.loop t b] : Code).references = (piecesOf b : Code).references := by
  simp [piecesOf, pieces, Code.references, Piece.refers]

theorem references_cond (t : BlockType) (y : List Instr) (n : Option (List Instr)) :
    (piecesOf [.cond t y n] : Code).references =
      (piecesOf y : Code).references ++ (piecesOf (n.getD []) : Code).references := by
  cases n <;> simp [piecesOf, pieces, Code.references, Piece.refers]

end Instr

namespace Shows

variable {G : Linkage} {P : Pool} {ms ns : List Mention} {xs ys : List Instr} {x : Instr}

theorem of_plain (h : (Instr.piecesOf xs : Code).references.map some = ms.map Mention.piece?) :
    Shows G P ms xs := by
  rw [Shows]
  generalize (Instr.piecesOf xs : Code).references = ps at h
  induction ms generalizing ps with
  | nil =>
    obtain rfl : ps = [] := by simpa using h
    exact .nil
  | cons m ms ih => cases ps with
    | nil => cases h
    | cons p ps =>
      obtain ⟨hp,hps⟩ := List.cons.inj h
      refine .cons ?_ (ih ps hps)
      cases m with
      | word v =>
        cases hp
        exact .word v
      | text s => cases hp
      | call f => cases f with
        | user f => cases hp
        | host f => cases hp
        | routine r =>
          cases hp
          exact .routine r

theorem append (hx : Shows G P ms xs) (hy : Shows G P ns ys) : Shows G P (ms ++ ns) (xs ++ ys) := by
  rw [Shows,Instr.references_append]
  exact List.rel_append hx hy

theorem followed (hx : Shows G P ms xs) (h : (Instr.piecesOf ys : Code).references = []) :
    Shows G P ms (xs ++ ys) := by
  rw [Shows,Instr.references_append,h,List.append_nil]
  exact hx

theorem preceded (hy : Shows G P ms ys) (h : (Instr.piecesOf xs : Code).references = []) :
    Shows G P ms (xs ++ ys) := by
  rw [Shows,Instr.references_append,h]
  exact hy

theorem cons_quiet (hy : Shows G P ms ys) (h : (Instr.piecesOf [x] : Code).references = []) :
    Shows G P ms (x :: ys) := by
  have hall : Shows G P ms ([x] ++ ys) := hy.preceded h
  exact hall

theorem block {t : BlockType} (h : Shows G P ms xs) : Shows G P ms [.block t xs] := by
  rw [Shows,Instr.references_block]
  exact h

theorem loop {t : BlockType} (h : Shows G P ms xs) : Shows G P ms [.loop t xs] := by
  rw [Shows,Instr.references_loop]
  exact h

theorem choice {t : BlockType} (hx : Shows G P ms xs) (hy : Shows G P ns ys) :
    Shows G P (ms ++ ns) [.cond t xs (some ys)] := by
  rw [Shows,Instr.references_cond]
  exact List.rel_append hx hy

theorem option {t : BlockType} (hx : Shows G P ms xs) : Shows G P ms [.cond t xs none] := by
  rw [Shows,Instr.references_cond]
  have hnil : (Instr.piecesOf ((none : Option (List Instr)).getD []) : Code).references = [] := rfl
  rw [hnil,List.append_nil]
  exact hx

end Shows

end Lower

end Covenant
