import Covenant.Proofs.Machine.Strings
import Covenant.Proofs.Meaning.Ops
import Covenant.Proofs.Memory.Pool
import Covenant.Proofs.Typing.Complete
import Mathlib.Logic.Relation

/-! The values that a match tells apart, which patterns accept them, and how the machine holds them: with a memory
that code reads and does not change. Patterns that cover a type accept each of its values. -/

namespace Covenant

namespace Machine

open Wasm Lower Memory

def Number.type : Number → ValType
  | i32 _ => .i32
  | i64 _ => .i64

/-- The number at an address. Reading past the end of memory traps. -/
def load (memory : List UInt8) (t : ValType) (address : Nat) : Effect Number :=
  let bytes (n : Nat) := leNat ((memory.drop address).take n)
  match t with
  | .i32 => if address + 4 ≤ memory.length then .value (.i32 (BitVec.ofNat 32 (bytes 4))) else .trap
  | .i64 => if address + 8 ≤ memory.length then .value (.i64 (BitVec.ofNat 64 (bytes 8))) else .trap

/-- The bytes of the text at an address, if it lies in memory. -/
def textAt? (memory : List UInt8) (address : Nat) : Option (List UInt8) :=
  let size := leNat ((memory.drop address).take 4)
  if address + 4 + size ≤ memory.length then some ((memory.drop (address + 4)).take size) else none

/-- Whether two texts are the same. Nothing is said of addresses without a text. -/
def sameText (memory : List UInt8) (a b : Nat) : Effect Number :=
  match textAt? memory a, textAt? memory b with
  | some s, some t => .value (.ofBool (s == t))
  | _, _ => .stuck

/-- Goes on with what an instruction leaves on the stack. -/
def push (c : Config) : Effect Number → Status
  | .value v => .running { c with stack := v :: c.stack }
  | .trap => .trapped
  | .stuck => .stuck

section

variable (memory : List UInt8) (arity : Nat)

/-- One step. All that does not read memory is as before. -/
def readStep (c : Config) : Status :=
  match c.code, c.stack with
  | .op (.i32Load k) :: is, .i32 a :: st =>
    push { c with stack := st, code := is } (load memory .i32 (a.toNat + k))
  | .op (.i64Load k) :: is, .i32 a :: st =>
    push { c with stack := st, code := is } (load memory .i64 (a.toNat + k))
  | .routine .equal :: is, .i32 b :: .i32 a :: st =>
    push { c with stack := st, code := is } (sameText memory a.toNat b.toNat)
  | _, _ => step arity c

def Reaches : Config → Config → Prop :=
  Relation.ReflTransGen fun c d => readStep memory arity c = .running d

end

theorem textAt?_of_holdsText {memory : List UInt8} {address : Nat} {text : String}
    (h : HoldsText memory address text) : textAt? memory address = some text.toUTF8.toList := by
  obtain ⟨hlength,hbytes,hinside⟩ := h
  simp only [textAt?, hlength, hbytes, if_pos hinside]

theorem sameText_of_holdsText {memory : List UInt8} {a b : Nat} {s t : String}
    (hs : HoldsText memory a s) (ht : HoldsText memory b t) :
    sameText memory a b = .value (.ofBool (s == t)) := by
  have hsame : (s.toUTF8.toList == t.toUTF8.toList) = (s == t) := by
    rw [Bool.eq_iff_iff,beq_iff_eq,beq_iff_eq]
    refine ⟨fun h => ?_,fun h => congrArg (·.toUTF8.toList) h⟩
    rw [Wasm.toList_eq,Wasm.toList_eq] at h
    exact String.toByteArray_inj.mp (ByteArray.ext (Array.toList_inj.mp h))
  simp only [sameText, textAt?_of_holdsText hs, textAt?_of_holdsText ht, hsame]

theorem textAt_of_textAt? {σ : Store} {a : BitVec 32} {size : Nat} {s : List UInt8} (hsize : size ≤ σ.heap.toNat)
    (hbase : dataBase ≤ a.toNat) (h : textAt? (σ.bytes 0 size) a.toNat = some s) : TextAt σ a s := by
  simp only [textAt?] at h
  split at h
  · rename_i hfits
    cases h
    rw [Store.length_bytes] at hfits
    have hlength := σ.bytes_within (a := a.toNat) (n := 4) (m := size) (by omega)
    rw [hlength] at hfits ⊢
    rw [σ.bytes_within hfits]
    refine ⟨hbase,Store.length_bytes.symm,by rw [Store.length_bytes]; rfl,?_⟩
    rw [Store.length_bytes]
    exact hfits.trans hsize
  · cases h

/-- Where both texts lie in memory, code that compares them leaves what is taken for their comparison. -/
theorem equal_returns_sameText {R : Room} {σ : Store} {a b : BitVec 32} {size : Nat} {v : Number} (hσ : Sound R σ)
    (hsize : size ≤ σ.heap.toNat) (ha : dataBase ≤ a.toNat) (hb : dataBase ≤ b.toNat)
    (h : sameText (σ.bytes 0 size) a.toNat b.toNat = .value v) : Returns R .equal [.i32 a,.i32 b] σ [v] σ := by
  rw [sameText] at h
  split at h
  · rename_i s t hs ht
    cases h
    exact equal_returns hσ (textAt_of_textAt? hsize ha hs) (textAt_of_textAt? hsize hb ht)
  · cases h

namespace Reaches

variable {memory : List UInt8} {arity : Nat} {st L : List Number} {fs : List Frame} {is : List Instr}

theorem of_step {c d : Config} (h : readStep memory arity c = .running d) : Reaches memory arity c d :=
  .single h

theorem get {i : Nat} {v : Number} (h : L[i]? = some v) :
    Reaches memory arity ⟨st,L,fs,Instr.get i :: is⟩ ⟨v :: st,L,fs,is⟩ := by
  refine of_step ?_
  simp only [Instr.get, readStep, step, op, h]

theorem set {i : Nat} {v : Number} (h : i < L.length) :
    Reaches memory arity ⟨v :: st,L,fs,Instr.set i :: is⟩ ⟨st,L.set i v,fs,is⟩ := by
  refine of_step ?_
  simp only [Instr.set, readStep, step, op, if_pos h]

theorem i32 (n : Int) : Reaches memory arity ⟨st,L,fs,Instr.i32 n :: is⟩
    ⟨.i32 (BitVec.ofInt 32 n) :: st,L,fs,is⟩ :=
  of_step rfl

theorem i64 (n : Int) : Reaches memory arity ⟨st,L,fs,Instr.i64 n :: is⟩
    ⟨.i64 (BitVec.ofInt 64 n) :: st,L,fs,is⟩ :=
  of_step rfl

theorem i64Eq (a b : BitVec 64) : Reaches memory arity ⟨.i64 b :: .i64 a :: st,L,fs,Instr.num .i64Eq :: is⟩
    ⟨.ofBool (a == b) :: st,L,fs,is⟩ :=
  of_step rfl

theorem i64Eqz (a : BitVec 64) : Reaches memory arity ⟨.i64 a :: st,L,fs,Instr.num .i64Eqz :: is⟩
    ⟨.ofBool (a == 0) :: st,L,fs,is⟩ :=
  of_step rfl

theorem i32Eqz (a : BitVec 32) : Reaches memory arity ⟨.i32 a :: st,L,fs,Instr.num .i32Eqz :: is⟩
    ⟨.ofBool (a == 0) :: st,L,fs,is⟩ :=
  of_step rfl

theorem load {t : ValType} {k : Nat} {a : BitVec 32} {v : Number}
    (h : Machine.load memory t (a.toNat + k) = .value v) :
    Reaches memory arity ⟨.i32 a :: st,L,fs,Instr.load t k :: is⟩ ⟨v :: st,L,fs,is⟩ := by
  refine of_step ?_
  cases t <;> simp only [Instr.load, readStep, h, push]

theorem equal {a b : BitVec 32} {s t : String} (hs : HoldsText memory a.toNat s)
    (ht : HoldsText memory b.toNat t) :
    Reaches memory arity ⟨.i32 b :: .i32 a :: st,L,fs,.routine .equal :: is⟩
      ⟨.ofBool (s == t) :: st,L,fs,is⟩ := by
  refine of_step ?_
  simp only [readStep, sameText_of_holdsText hs ht, push]

/-- A choice has operands of its own and goes back to the code behind it. -/
theorem cond {t : BlockType} {b : Bool} {yes no : List Instr} :
    Reaches memory arity ⟨.ofBool b :: st,L,fs,Instr.cond t yes (some no) :: is⟩
      ⟨[],L,⟨none,t.toList.length,st,is⟩ :: fs,if b then yes else no⟩ := by
  refine of_step ?_
  cases b <;> rfl

theorem leave {vs : List Number} {f : Frame} :
    Reaches memory arity ⟨vs,L,f :: fs,[]⟩ ⟨vs ++ f.below,L,fs,f.rest⟩ :=
  of_step rfl

end Reaches

end Machine

namespace Matching

open Typing Machine Memory

/-- A value as a match sees it. What is inside an option or result is a number or an address. -/
inductive Datum where
  | word (w : BitVec 64)
  | truth (b : Bool)
  | text (s : String)
  | tagged (isFull : Bool) (payload : Option Number)
  deriving DecidableEq, Repr

namespace Datum

/-- The values of a type: any word, any truth value, any text, the tags of an enum, and an option or result
with something of the right kind inside. -/
def Of (env : Check.Env) : Ty → Datum → Prop
  | .integer, word _ | .mana, word _ | .boolean, truth _ | .string, text _ => True
  | .enum n, word w => ∃ d, env.enum? n = some d ∧ w.toNat < d.variants.length
  | .option t, tagged true (some v) | .result t, tagged true (some v) => v.type = t.valType
  | .option _, tagged false none => True
  | .result _, tagged false (some v) => v.type = Ty.string.valType
  | _, _ => False

def accepted (enums : List EnumDecl) : Datum → PatternForm → Bool
  | _, .wild | _, .bind _ => true
  | word w, .int v => w == BitVec.ofInt 64 v
  | word w, .enum owner v => (Meaning.enumTag? enums owner v).any fun i => w == BitVec.ofNat 64 i
  | truth b, .bool c => b == c
  | text s, .text t => s == t
  | tagged isFull _, .some _ | tagged isFull _, .ok _ => isFull
  | tagged isFull _, .none | tagged isFull _, .err _ => !isFull
  | _, _ => false

/-- How the machine holds a value: a number, or the address where the text or the tag and the slot are. -/
def Held (memory : List UInt8) : Datum → Number → Prop
  | word w, v => v = .i64 w
  | truth b, v => v = .ofBool b
  | text s, v => ∃ a, v = .i32 a ∧ HoldsText memory a.toNat s
  | tagged isFull payload, v => ∃ a, v = .i32 a ∧
      load memory .i64 (a.toNat + tagOffset) = .value (.i64 (if isFull then 1 else 0)) ∧
      ∀ w, payload = some w → load memory w.type (a.toNat + payloadOffset) = .value w

/-- What the name of a pattern stands for: the value itself, or what is inside it. -/
def named (x : Datum) (v : Number) (p : PatternForm) : Number :=
  match p, x with
  | .bind _, _ => v
  | _, tagged _ (some w) => w
  | _, _ => v

theorem Of.eq_word {env : Check.Env} {t : Ty} {x : Datum} (hx : x.Of env t) (ht : t.isNumeric = true) :
    ∃ w, x = word w := by
  cases t with
  | integer | mana =>
    cases x with
    | word w => exact ⟨w,rfl⟩
    | _ => exact hx.elim
  | _ => cases ht

end Datum

theorem accepted_of_isCatchAll {p : PatternForm} (enums : List EnumDecl) (x : Datum)
    (h : p.isCatchAll = true) : x.accepted enums p = true := by
  cases p with
  | wild | bind => cases x <;> rfl
  | _ => cases h

theorem mem_of_covers {ps : List PatternForm} {c : Check.Cover}
    (h : (ps.filterMap Check.Cover.ofPattern?).contains c = true) :
    ∃ p ∈ ps, Check.Cover.ofPattern? p = some c :=
  List.mem_filterMap.mp (List.contains_iff_mem.mp h)

variable {env : Check.Env} {ps : List PatternForm} {x : Datum}

theorem accepted_variant {n : String} {w : BitVec 64} (henums : ∀ d ∈ env.enums, d.variants.Nodup)
    (hx : (Datum.word w).Of env (.enum n)) (hfits : ∀ p ∈ ps, PatternFits env (.enum n) p)
    (h : Check.isExhaustive env (.enum n) (ps.filterMap Check.Cover.ofPattern?) = true) :
    ∃ p ∈ ps, (Datum.word w).accepted env.enums p = true := by
  obtain ⟨d,hd,hw⟩ := hx
  simp only [Check.isExhaustive, hd, List.all_eq_true] at h
  obtain ⟨p,hp,hcover⟩ := mem_of_covers (h _ (List.getElem_mem hw))
  refine ⟨p,hp,?_⟩
  cases p with
  | enum owner v =>
    obtain rfl : v = d.variants[w.toNat] := by simpa [Check.Cover.ofPattern?] using hcover
    -- the pattern names the enum that is matched
    obtain ⟨d',tag,hd',htag,hname⟩ := hfits _ hp
    have howner : d'.name = owner := by simpa using List.find?_some hd'
    obtain rfl : n = d'.name := by simpa using hname
    rw [howner,hd'] at hd
    obtain rfl : d' = d := Option.some.inj hd
    have hsame : d'.variants[w.toNat]? = d'.variants[tag]? := by
      rw [variant_of_tag? htag,List.getElem?_eq_getElem hw]
    obtain rfl := (List.getElem?_inj hw (henums _ (List.mem_of_find?_eq_some hd'))).mp hsame
    have hfound : Meaning.enumTag? env.enums owner d'.variants[w.toNat] = some w.toNat :=
      Option.bind_eq_some_iff.mpr ⟨d',hd',htag⟩
    simp [Datum.accepted, hfound]
  | _ => cases hcover

theorem exists_accepted {t : Ty} (henums : ∀ d ∈ env.enums, d.variants.Nodup) (hx : x.Of env t)
    (hfits : ∀ p ∈ ps, PatternFits env t p) (h : Covers env t ps) :
    ∃ p ∈ ps, x.accepted env.enums p = true := by
  rcases h with ⟨p,hp,hall⟩ | h
  · exact ⟨p,hp,accepted_of_isCatchAll _ _ hall⟩
  cases t with
  | boolean =>
    cases x with
    | truth b =>
      have hboth : ∀ c, (ps.filterMap Check.Cover.ofPattern?).contains (.bool c) = true := by
        simp only [Check.isExhaustive, Bool.and_eq_true] at h
        exact Bool.forall_bool.mpr h.symm
      obtain ⟨p,hp,hcover⟩ := mem_of_covers (hboth b)
      refine ⟨p,hp,?_⟩
      cases p with
      | bool c =>
        obtain rfl : c = b := by simpa [Check.Cover.ofPattern?] using hcover
        exact beq_self_eq_true c
      | _ => cases hcover
    | _ => exact hx.elim
  | option t | result t =>
    simp only [Check.isExhaustive, Bool.and_eq_true] at h
    obtain ⟨p,hp,hfull⟩ := mem_of_covers h.1
    obtain ⟨q,hq,hempty⟩ := mem_of_covers h.2
    cases x with
    | tagged isFull v =>
      cases isFull with
      | true => exact ⟨p,hp,by cases p <;> first | rfl | cases hfull⟩
      | false => exact ⟨q,hq,by cases q <;> first | rfl | cases hempty⟩
    | _ => exact hx.elim
  | enum n =>
    cases x with
    | word w => exact accepted_variant henums hx hfits h
    | _ => exact hx.elim
  | _ => cases h

def firstMatch? (enums : List EnumDecl) (x : Datum) (as : List Arm) : Option Arm :=
  as.find? fun a => x.accepted enums a.pattern.form

theorem firstMatch?_append {enums : List EnumDecl} {as bs : List Arm} {a : Arm}
    (h : a.pattern.form.isCatchAll = true) :
    firstMatch? enums x (as ++ a :: bs) = firstMatch? enums x (as ++ [a]) := by
  have ha := accepted_of_isCatchAll enums x h
  simp [firstMatch?, List.find?_append, ha]

theorem exists_firstMatch {t : Ty} {as : List Arm} (henums : ∀ d ∈ env.enums, d.variants.Nodup)
    (hx : x.Of env t) (hfits : ∀ a ∈ as, PatternFits env t a.pattern.form)
    (h : Covers env t (as.map (·.pattern.form))) : ∃ a, firstMatch? env.enums x as = some a := by
  obtain ⟨p,hp,haccepted⟩ := exists_accepted henums hx (List.forall_mem_map.mpr hfits) h
  obtain ⟨a,ha,rfl⟩ := List.mem_map.mp hp
  exact Option.isSome_iff_exists.mp (List.find?_isSome.mpr ⟨a,ha,haccepted⟩)

end Matching

end Covenant
