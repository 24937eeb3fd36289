import Covenant.Lower.Body
import Covenant.Proofs.Machine.Basic
import Covenant.Proofs.Meaning.Run
import Covenant.Proofs.Typing.Rules

/-! The scalar core of the language: statements over numbers, truth values and enum values that are kept
in slots. The machine has a local for each slot. The code of a scalar expression leaves the value of the expression,
or traps where the expression does. -/

namespace Covenant

open Meaning (SlotKind)

def Symbol.isScalar (s : Symbol) : Bool := SlotKind.ofType s.type ≠ .other

def Expr.isScalar : Expr → Bool
  | .int _ _ | .bool _ _ | .enum _ _ _ _ => true
  | .name _ _ sym => sym.any Symbol.isScalar
  | .unary _ _ e => e.isScalar
  | .binary _ op a b => op ≠ .concat && a.isScalar && b.isScalar
  | _ => false

mutual

def Stmt.isScalar : Stmt → Bool
  | .bind _ _ _ e _ | .assign _ (.name _ _ _) e | .ret _ (some e) | .expr _ e => e.isScalar
  | .cond _ c => c.isScalar
  | .loop _ e b => e.isScalar && b.isScalar
  | .ret _ none | .leave _ | .next _ => true
  | _ => false

def Stmt.allScalar : List Stmt → Bool
  | [] => true
  | s :: ss => s.isScalar && Stmt.allScalar ss

def Block.isScalar : Block → Bool
  | .mk _ ss => Stmt.allScalar ss

def Chain.isScalar : Chain → Bool
  | .stop => true
  | .otherwise b => b.isScalar
  | .branch _ e b rest => e.isScalar && b.isScalar && rest.isScalar

end

namespace Scalar

open Meaning Machine

/-- A number of the machine that stands for a value. What is neither a number nor a truth value can have
any address. -/
inductive Shows : SlotKind → Val → Number → Prop
  | word (w : Guard.Word) : Shows .word (.int w) (.i64 w)
  | truth (b : Bool) : Shows .truth (.bool b) (.ofBool b)
  | other (v : Val) (x : Number) : Shows .other v x

def Matches (types : List Ty) (slots : Slots) (locals : List Number) : Prop :=
  ∀ i t, types[i]? = some t →
    ∃ x, locals[i]? = some x ∧ ∀ v, slots.read (.ofType t) i = some v → Shows (.ofType t) v x

variable {types : List Ty} {slots slots' : Slots} {locals : List Number} {i : Nat} {t : Ty} {v : Val} {x : Number}

theorem Slots.read_write_ne {k k' : SlotKind} {j : Nat} (h : slots.write k i v = some slots')
    (hj : j ≠ i) : slots'.read k' j = slots.read k' j := by
  cases k <;> cases v <;> cases h <;> cases k' <;>
    simp [Slots.read, Slots.setWord, Slots.setTruth, Slots.setOther, hj]

theorem Slots.read_write {k : SlotKind} (h : slots.write k i v = some slots') :
    slots'.read k i = some v := by
  cases k <;> cases v <;> cases h <;> simp [Slots.read, Slots.setWord, Slots.setTruth, Slots.setOther]

theorem Matches.write (h : Matches types slots locals) (ht : types[i]? = some t)
    (hw : slots.write (.ofType t) i v = some slots') (hv : Shows (.ofType t) v x) :
    i < locals.length ∧ Matches types slots' (locals.set i x) := by
  obtain ⟨y,hy,-⟩ := h i t ht
  have hi := (List.getElem?_eq_some_iff.mp hy).1
  refine ⟨hi,fun j u hu => ?_⟩
  by_cases hj : j = i
  · subst hj
    cases ht.symm.trans hu
    refine ⟨x,by rw [List.getElem?_set_self hi],fun u hu => ?_⟩
    rw [Slots.read_write hw] at hu
    exact Option.some.inj hu ▸ hv
  · obtain ⟨z,hz,hshows⟩ := h j u hu
    refine ⟨z,by rw [List.getElem?_set_ne (Ne.symm hj),hz],fun u hu => hshows u ?_⟩
    rw [← Slots.read_write_ne hw hj]
    exact hu

open Lower (Context Instr)
open Machine (Number Effect Comes step)
open Meaning (World Val Eval SlotKind State need_of_done need_of_trap truth_of_done truth_of_trap)
open Typing (Site rule Gives)

variable {r s t : Ty} {a b e : Expr} {k : SlotKind}

def Makes {α : Type} (m : Lower.M α) (a : α) : Prop := ∀ s, m s = .ok (a, s)

namespace Makes

variable {α β : Type} {m : Lower.M α} {a : α}

theorem pure (a : α) : Makes (Pure.pure a) a := fun _ => rfl

theorem bind {f : α → Lower.M β} {b : β} (h : Makes m a) (hf : Makes (f a) b) : Makes (m >>= f) b := by
  intro s
  show (m s >>= fun r => f r.1 r.2) = _
  rw [h s]
  exact hf s

theorem map {f : α → β} (h : Makes m a) : Makes (do return f (← m)) (f a) := h.bind (.pure _)

end Makes

/-- Code that leaves a number and changes nothing else. -/
def Puts (arity : Nat) (code : List Instr) (locals : List Number) (x : Number) : Prop :=
  ∀ st fs k, Comes arity ⟨st, locals, fs, code ++ k⟩ (.running ⟨x :: st, locals, fs, k⟩)

def Traps (arity : Nat) (code : List Instr) (locals : List Number) : Prop :=
  ∀ st fs k, Comes arity ⟨st, locals, fs, code ++ k⟩ .trapped

def Computes (arity : Nat) (w : World) (t : Ty) (e : Expr) (code : List Instr) : Prop :=
  ∀ (s : State) (locals : List Number), Matches w.types s.slots locals →
    (∃ v x, Meaning.expr w e s = .done (some v) s ∧ Shows (.ofType t) v x ∧ Puts arity code locals x) ∨
    (∃ k, Meaning.expr w e s = .trap k s ∧ Traps arity code locals)

variable {arity : Nat} {code code' : List Instr} {locals : List Number} {x y : Number}

theorem Puts.of_step {i : Instr}
    (h : ∀ st fs k, step arity ⟨st, locals, fs, i :: k⟩ = .running ⟨x :: st, locals, fs, k⟩) :
    Puts arity [i] locals x :=
  fun st fs k => .of_step (h st fs k)

theorem Puts.comes {s : Machine.Status} {st : List Number} {fs : List Machine.Frame} {k : List Instr}
    (h : Puts arity code locals x) (hk : Comes arity ⟨x :: st, locals, fs, k⟩ s) :
    Comes arity ⟨st, locals, fs, code ++ k⟩ s :=
  (h st fs k).trans hk

theorem Traps.append (h : Traps arity code locals) (code' : List Instr) :
    Traps arity (code ++ code') locals := by
  intro st fs k
  rw [List.append_assoc]
  exact h st fs _

theorem Puts.traps (h : Puts arity code locals x) (h' : Traps arity code' locals) :
    Traps arity (code ++ code') locals := by
  intro st fs k
  rw [List.append_assoc]
  exact h.comes (h' _ fs k)

theorem step_cond {t : Wasm.BlockType} {y k : List Instr} {n : Option (List Instr)} {st : List Number}
    {fs : List Machine.Frame} (b : Bool) :
    step arity ⟨.ofBool b :: st, locals, fs, .cond t y n :: k⟩ =
      .running ⟨[], locals, ⟨none, t.toList.length, st, k⟩ :: fs, if b then y else n.getD []⟩ := by
  cases b <;> rfl

variable {op : BinaryOp} {z : List Instr} {n : Note}

theorem Puts.choose {b : Bool} {v : Number} (h : Puts arity code locals (.ofBool b))
    (hv : Puts arity (if b then code' else z) locals v) :
    Puts arity (code ++ [Instr.cond (some .i32) code' (some z)]) locals v := by
  intro st fs k
  rw [List.append_assoc]
  refine h.comes (.step_trans (step_cond b) ?_)
  have hin := hv [] (⟨none, 1, st, k⟩ :: fs) []
  rw [List.append_nil] at hin
  exact hin.trans (.of_step rfl)

theorem Traps.choose {b : Bool} (h : Puts arity code locals (.ofBool b))
    (hv : Traps arity (if b then code' else z) locals) :
    Traps arity (code ++ [Instr.cond (some .i32) code' (some z)]) locals := by
  intro st fs k
  rw [List.append_assoc]
  refine h.comes (.step_trans (step_cond b) ?_)
  have hin := hv [] (⟨none, 1, st, k⟩ :: fs) []
  rw [List.append_nil] at hin
  exact hin

theorem kind_of_isNumeric (h : t.isNumeric = true) : SlotKind.ofType t = .word := by
  cases t <;> first | rfl | cases h

theorem kind_of_compatible (h : s.compatible t = true) (hs : SlotKind.ofType s ≠ .other)
    (ht : SlotKind.ofType t ≠ .other) : SlotKind.ofType s = SlotKind.ofType t := by
  cases s <;> cases t <;> first | rfl | exact absurd rfl hs | exact absurd rfl ht | cases h

/-- A step of a run and a step of the machine have the same effect. -/
def Agrees (k : SlotKind) (m : Eval Val) (e : Effect Number) : Prop :=
  ∀ s, (∃ v x, m s = .done v s ∧ e = .value x ∧ Shows k v x) ∨ (∃ t, m s = .trap t s ∧ e = .trap)

theorem Agrees.of_pure {v : Val} (h : Shows k v x) : Agrees k (pure v) (.value x) :=
  fun _ => .inl ⟨v,x,rfl,rfl,h⟩

theorem quotient_agrees (a b : Guard.Word) :
    Agrees .word (Meaning.quotient a b) (Machine.binary .i64DivS (.i64 a) (.i64 b)) := by
  rw [Meaning.quotient,Machine.binary]
  by_cases hzero : b = 0
  · rw [if_pos hzero,if_pos hzero]
    exact fun _ => .inr ⟨.zeroDivisor,rfl,rfl⟩
  · rw [if_neg hzero,if_neg hzero]
    by_cases hmin : a = BitVec.intMin 64 ∧ b = -1
    · rw [if_pos hmin,if_pos hmin]
      exact fun _ => .inr ⟨.quotientOverflow,rfl,rfl⟩
    · rw [if_neg hmin,if_neg hmin]
      exact .of_pure (.word _)

theorem remainder_agrees (a b : Guard.Word) :
    Agrees .word (Meaning.remainder a b) (Machine.binary .i64RemS (.i64 a) (.i64 b)) := by
  rw [Meaning.remainder,Machine.binary]
  by_cases hzero : b = 0
  · rw [if_pos hzero,if_pos hzero]
    exact fun _ => .inr ⟨.zeroDivisor,rfl,rfl⟩
  · rw [if_neg hzero,if_neg hzero]
    exact .of_pure (.word _)

def Applies (arity : Nat) (op : BinaryOp) (s t r : SlotKind) (code : List Instr) : Prop :=
  ∀ v x u y, Shows s v x → Shows t u y → ∀ σ : State,
    (∃ z n, Meaning.binary op v u σ = .done z σ ∧ Shows r z n ∧
      ∀ st locals fs k, Comes arity ⟨y :: x :: st, locals, fs, code ++ k⟩
        (.running ⟨n :: st, locals, fs, k⟩)) ∨
    (∃ q, Meaning.binary op v u σ = .trap q σ ∧
      ∀ st locals fs k, Comes arity ⟨y :: x :: st, locals, fs, code ++ k⟩ .trapped)

theorem Applies.of_agrees {o : Wasm.NumOp} {s t r : SlotKind} {a b : Wasm.ValType}
    (ho : o.type.params = [a, b])
    (h : ∀ v x u y, Shows s v x → Shows t u y → Agrees r (Meaning.binary op v u) (Machine.binary o x y)) :
    Applies arity op s t r [.num o] := by
  intro v x u y hv hu σ
  rcases h v x u y hv hu σ with ⟨z,n,hz,hn,hshow⟩ | ⟨q,hq,htrap⟩
  · refine .inl ⟨z,n,hz,hshow,fun st locals fs k => .of_step ?_⟩
    simp [step, Machine.op, Instr.num, ho, hn]
  · refine .inr ⟨q,hq,fun st locals fs k => .of_step ?_⟩
    simp [step, Machine.op, Instr.num, ho, htrap]

theorem ofBool_eq (a b : Bool) :
    Machine.binary .i32Eq (.ofBool a) (.ofBool b) = .value (.ofBool (a == b)) := by
  cases a <;> cases b <;> rfl

theorem eq_applies (arity : Nat) (h : SlotKind.ofType t = k) (hk : k ≠ .other) :
    ∃ i, Makes (Lower.equals t) i ∧ Applies arity .eq k k .truth [i] := by
  cases k with
  | other => exact absurd rfl hk
  | word =>
    refine ⟨.num .i64Eq,?_,.of_agrees rfl ?_⟩
    · intro s
      cases t <;> first | rfl | cases h
    · intro v x u y hv hu
      cases hv with
      | word a => cases hu with
        | word b => exact .of_pure (.truth (a == b))
  | truth =>
    refine ⟨.num .i32Eq,?_,.of_agrees rfl ?_⟩
    · intro s
      cases t <;> first | rfl | cases h
    · intro v x u y hv hu
      cases hv with
      | truth a => cases hu with
        | truth b =>
          rw [ofBool_eq]
          exact .of_pure (.truth (a == b))

theorem ne_applies {i : Instr} (h : Applies arity .eq k k .truth [i]) :
    Applies arity .ne k k .truth [i, .num .i32Eqz] := by
  intro v x u y hv hu σ
  rcases h v x u y hv hu σ with ⟨z,n,hz,hn,hcode⟩ | ⟨q,hq,_⟩
  · cases hn with
    | truth b =>
      cases he : v.equal? u with
      | none => simp [Meaning.binary, he, Eval.orStuck, Eval.stuck, Eval.bind_apply, Eval.andThen] at hz
      | some r =>
        simp [Meaning.binary, he, Eval.orStuck, Eval.bind_apply, Eval.andThen] at hz
        subst hz
        refine .inl ⟨.bool !r,.ofBool !r,?_,.truth _,fun st locals fs k => ?_⟩
        · simp [Meaning.binary, he, Eval.orStuck, Eval.bind_apply, Eval.andThen]
        · refine (hcode st locals fs (.num .i32Eqz :: k)).trans (.of_step ?_)
          cases r <;> rfl
  · cases he : v.equal? u <;>
      simp [Meaning.binary, he, Eval.orStuck, Eval.stuck, Eval.bind_apply, Eval.andThen] at hq

theorem words_apply {o : Wasm.NumOp} {a b : Wasm.ValType} (ho : o.type.params = [a, b]) (hs : s.isNumeric = true)
    (ht : t.isNumeric = true) (h : ∀ v w, Agrees (.ofType r) (Meaning.binary op (.int v) (.int w))
      (Machine.binary o (.i64 v) (.i64 w))) : Applies arity op (.ofType s) (.ofType t) (.ofType r) [.num o] := by
  refine .of_agrees ho ?_
  rw [kind_of_isNumeric hs,kind_of_isNumeric ht]
  intro v x u y hv hu
  cases hv with
  | word v => cases hu with
    | word w => exact h v w

theorem kind_of_arithmetic (s t : Ty) :
    SlotKind.ofType (if s = .mana || t = .mana then .mana else .integer) = .word := by
  split <;> rfl

theorem kind_of_takes (hcat : op ≠ .concat) (h : op.Takes s t r) : SlotKind.ofType r ≠ .other := by
  cases op <;> obtain ⟨-,-,rfl⟩ := h
  case concat => exact absurd rfl hcat
  case add | sub | mul | div | rem =>
    rw [kind_of_arithmetic]
    simp
  all_goals simp [SlotKind.ofType]

theorem operator_applies (arity : Nat) (hcat : op ≠ .concat) (hand : op ≠ .and) (hor : op ≠ .or) (h : op.Takes s t r)
    (hs : SlotKind.ofType s ≠ .other) (ht : SlotKind.ofType t ≠ .other) :
    ∃ code, Makes (Lower.operator op (some s)) code ∧
      Applies arity op (.ofType s) (.ofType t) (.ofType r) code := by
  cases op with
  | concat => exact absurd rfl hcat
  | and => exact absurd rfl hand
  | or => exact absurd rfl hor
  | eq =>
    obtain ⟨-,hc,rfl⟩ := h
    obtain ⟨i,hi,happ⟩ := eq_applies arity rfl hs
    rw [← kind_of_compatible hc hs ht]
    exact ⟨[i],.bind (.pure s) hi.map,happ⟩
  | ne =>
    obtain ⟨-,hc,rfl⟩ := h
    obtain ⟨i,hi,happ⟩ := eq_applies arity rfl hs
    rw [← kind_of_compatible hc hs ht]
    exact ⟨[i, .num .i32Eqz],.bind (.pure s) hi.map,ne_applies happ⟩
  | lt | gt | le | ge =>
    obtain ⟨hs,ht,rfl⟩ := h
    exact ⟨_,.pure _,words_apply rfl hs ht fun v w => .of_pure (.truth _)⟩
  | add | sub | mul =>
    obtain ⟨hs,ht,rfl⟩ := h
    exact ⟨_,.pure _,words_apply rfl hs ht fun v w =>
      (kind_of_arithmetic s t).symm ▸ .of_pure (.word _)⟩
  | div =>
    obtain ⟨hs,ht,rfl⟩ := h
    exact ⟨_,.pure _,words_apply rfl hs ht fun v w =>
      (kind_of_arithmetic s t).symm ▸ quotient_agrees v w⟩
  | rem =>
    obtain ⟨hs,ht,rfl⟩ := h
    exact ⟨_,.pure _,words_apply rfl hs ht fun v w =>
      (kind_of_arithmetic s t).symm ▸ remainder_agrees v w⟩

def Compiles (arity : Nat) (c : Context) (w : World) (e : Expr) : Prop :=
  ∃ t code, e.type = some t ∧ SlotKind.ofType t ≠ .other ∧ Makes (Lower.expr c e) code ∧
    Computes arity w t e code

variable {S : Site} {c : Context} {w : World} {l : Bool}

theorem value_puts (arity : Nat) {v : Value} (h : v.HasType t) (ht : SlotKind.ofType t ≠ .other) :
    ∃ code x, Makes (Lower.value v) code ∧ Shows (.ofType t) (.ofValue v) x ∧
      ∀ locals, Puts arity code locals x := by
  cases v with
  | text s =>
    cases h
    exact absurd rfl ht
  | bool b =>
    cases h
    refine ⟨_,.ofBool b,.pure _,.truth b,fun locals => .of_step fun st fs k => ?_⟩
    cases b <;> rfl
  | int n =>
    refine ⟨_,_,.pure _,?_,fun locals => .of_step fun st fs k => rfl⟩
    cases t <;> first | exact .word _ | cases h

theorem value_compiles {v : Value} (ht : e.type = some t) (h : v.HasType t) (hk : SlotKind.ofType t ≠ .other)
    (hcode : Lower.expr c e = Lower.value v) (hmean : ∀ s, Meaning.expr w e s = .done (some (.ofValue v)) s) :
    Compiles arity c w e := by
  obtain ⟨code,x,hmake,hshow,hputs⟩ := value_puts arity h hk
  exact ⟨t,code,ht,hk,hcode ▸ hmake,fun s locals _ => .inl ⟨_,x,hmean s,hshow,hputs locals⟩⟩

theorem variable_compiles {x : String} {s : Symbol} (hw : w.types = S.slots)
    (hs : s.IsVariable S.slots) (hn : n.type = some s.type) (hk : SlotKind.ofType s.type ≠ .other) :
    Compiles arity c w (.name n x (some s)) := by
  obtain ⟨nm,type,free,kind,slot,v⟩ := s
  obtain ⟨hvar,i,rfl,hi⟩ := hs
  have hslot : w.types[i]? = some type := hw ▸ hi
  have hcode : Lower.expr c (.name n x (some ⟨nm, type, free, kind, some i, v⟩)) = pure [.get i] := by
    cases kind <;> first | rfl | exact absurd rfl hvar
  have hmean : Meaning.expr w (.name n x (some ⟨nm, type, free, kind, some i, v⟩)) =
      (do return some (← Meaning.readSlot w.types (some i))) := by
    cases kind <;> first | rfl | exact absurd rfl hvar
  refine ⟨type,_,hn,hk,hcode ▸ Makes.pure _,fun s locals hm => ?_⟩
  obtain ⟨y,hy,hread⟩ := hm i type hslot
  obtain ⟨u,hu⟩ : ∃ u, s.slots.read (.ofType type) i = some u := by
    cases hkind : SlotKind.ofType type with
    | other => exact absurd hkind hk
    | word | truth => exact ⟨_,rfl⟩
  refine .inl ⟨u,y,?_,hread u hu,.of_step fun st fs k => ?_⟩
  · simp [hmean, Meaning.readSlot, hslot, hu, Eval.orStuck, Eval.get, Eval.bind_apply, Eval.andThen]
  · simp [step, Machine.op, Instr.get, hy]

theorem constant_compiles {x : String} {s : Symbol} (hs : s.IsConstant S.env S.strict)
    (hstrict : S.strict) (hn : n.type = some s.type) (hk : SlotKind.ofType s.type ≠ .other) :
    Compiles arity c w (.name n x (some s)) := by
  obtain ⟨nm,type,free,kind,slot,value⟩ := s
  obtain ⟨rfl,-,-,-,htype⟩ := hs
  obtain ⟨v,rfl,hv⟩ := htype hstrict
  exact value_compiles hn hv hk rfl fun s => rfl

theorem enum_compiles {o v : String} {i : Nat} {name : String}
    (hn : n.type = some (.enum name)) : Compiles arity c w (.enum n o v (some i)) := by
  refine ⟨_,_,hn,by simp [SlotKind.ofType],.pure _,fun s locals _ => ?_⟩
  refine .inl ⟨_,.i64 (BitVec.ofNat 64 i),rfl,.word _,.of_step fun st fs k => ?_⟩
  show Machine.Status.running ⟨.i64 (BitVec.ofInt 64 i) :: st, locals, fs, k⟩ = _
  rw [BitVec.ofInt_natCast]

theorem neg_compiles (ht : e.type = some t) (hnum : t.isNumeric = true) (hn : n.type = some t)
    (ih : Compiles arity c w e) : Compiles arity c w (.unary n .neg e) := by
  obtain ⟨t',code,ht',hk,hmake,hcomp⟩ := ih
  cases ht.symm.trans ht'
  refine ⟨t,_,hn,hk,hmake.map,fun s locals hm => ?_⟩
  rcases hcomp s locals hm with ⟨v,x,hv,hx,hputs⟩ | ⟨k,hk,htrap⟩
  · rw [kind_of_isNumeric hnum] at hx ⊢
    cases hx with
    | word a =>
      refine .inl ⟨.int (0 - a),.i64 (0 - a),?_,.word _,fun st fs k => ?_⟩
      · rw [Meaning.expr,Eval.bind_of_done (need_of_done hv)]
        rfl
      · rw [List.cons_append,List.cons_append,List.append_assoc]
        exact .step_trans rfl (hputs.comes (.of_step rfl))
  · refine .inr ⟨k,?_,fun st fs k => ?_⟩
    · rw [Meaning.expr,Eval.bind_of_trap (need_of_trap hk)]
    · rw [List.cons_append,List.cons_append,List.append_assoc]
      exact .step_trans rfl (htrap _ _ _)

theorem not_compiles (ht : e.type = some .boolean) (hn : n.type = some .boolean) (ih : Compiles arity c w e) :
    Compiles arity c w (.unary n .not e) := by
  obtain ⟨t,code,ht',-,hmake,hcomp⟩ := ih
  cases ht.symm.trans ht'
  refine ⟨_,_,hn,by simp [SlotKind.ofType],hmake.map,fun s locals hm => ?_⟩
  rcases hcomp s locals hm with ⟨v,x,hv,hx,hputs⟩ | ⟨k,hk,htrap⟩
  · cases hx with
    | truth b =>
      refine .inl ⟨.bool !b,.ofBool !b,?_,.truth _,fun st fs k => ?_⟩
      · rw [Meaning.expr,Eval.bind_of_done (need_of_done hv)]
        rfl
      · rw [List.append_assoc]
        refine hputs.comes (.of_step ?_)
        cases b <;> rfl
  · refine .inr ⟨k,?_,htrap.append _⟩
    rw [Meaning.expr,Eval.bind_of_trap (need_of_trap hk)]

theorem strict_compiles (hcat : op ≠ .concat) (hand : op ≠ .and) (hor : op ≠ .or) (hs : a.type = some s)
    (ht : b.type = some t) (hn : n.type = some r) (h : op.Takes s t r) (iha : Compiles arity c w a)
    (ihb : Compiles arity c w b) : Compiles arity c w (.binary n op a b) := by
  obtain ⟨s',x,hs',hks,hx,hcx⟩ := iha
  obtain ⟨t',y,ht',hkt,hy,hcy⟩ := ihb
  cases hs.symm.trans hs'
  cases ht.symm.trans ht'
  obtain ⟨o,ho,happ⟩ := operator_applies arity hcat hand hor h hks hkt
  have hcode : Lower.expr c (.binary n op a b) = (do
      return (← Lower.expr c a) ++ (← Lower.expr c b) ++ (← Lower.operator op a.type)) := by
    cases op <;> first | rfl | exact absurd rfl hand | exact absurd rfl hor
  have hmean : Meaning.expr w (.binary n op a b) = (do
      let u ← Meaning.need (Meaning.expr w a)
      let v ← Meaning.need (Meaning.expr w b)
      return some (← Meaning.binary op u v)) := by
    cases op <;> first | rfl | exact absurd rfl hand | exact absurd rfl hor
  refine ⟨r,x ++ y ++ o,hn,?_,?_,fun σ locals hm => ?_⟩
  · exact kind_of_takes hcat h
  · rw [hcode,hs]
    exact hx.bind (hy.bind ho.map)
  rw [hmean]
  rcases hcx σ locals hm with ⟨u,m,hu,hm1,hputs⟩ | ⟨k,hk,htrap⟩
  · rw [Eval.bind_of_done (need_of_done hu)]
    rcases hcy σ locals hm with ⟨v,n,hv,hn1,hputs'⟩ | ⟨k,hk,htrap⟩
    · rw [Eval.bind_of_done (need_of_done hv)]
      rcases happ u m v n hm1 hn1 σ with ⟨z,i,hz,hi,hcomes⟩ | ⟨q,hq,hcomes⟩
      · refine .inl ⟨z,i,Eval.bind_of_done hz _,hi,fun st fs k => ?_⟩
        rw [List.append_assoc,List.append_assoc]
        exact hputs.comes (hputs'.comes (hcomes st locals fs k))
      · refine .inr ⟨q,Eval.bind_of_trap hq _,fun st fs k => ?_⟩
        rw [List.append_assoc,List.append_assoc]
        exact hputs.comes (hputs'.comes (hcomes st locals fs k))
    · exact .inr ⟨k,Eval.bind_of_trap (need_of_trap hk) _,(hputs.traps htrap).append o⟩
  · refine .inr ⟨k,Eval.bind_of_trap (need_of_trap hk) _,?_⟩
    rw [List.append_assoc]
    exact htrap.append _

/-- The second operand of `&&` and `||` runs only if the first has not settled the result. -/
theorem junction_computes {x y : List Instr} (settles : Bool) (ha : Computes arity w .boolean a x)
    (hb : Computes arity w .boolean b y) (hz : ∀ locals, Puts arity z locals (.ofBool settles))
    (hmean : Meaning.expr w e = (do
      if (← Meaning.truth (Meaning.expr w a)) = settles then return some (.bool settles)
      else Meaning.expr w b)) :
    Computes arity w .boolean e
      (x ++ [Instr.cond (some .i32) (if settles then z else y) (some (if settles then y else z))]) := by
  intro σ locals hm
  rw [hmean]
  rcases ha σ locals hm with ⟨u,m,hu,hm1,hputs⟩ | ⟨k,hk,htrap⟩
  · cases hm1 with
    | truth p =>
      rw [Eval.bind_of_done (truth_of_done hu)]
      by_cases hp : p = settles
      · subst hp
        rw [if_pos rfl]
        refine .inl ⟨_,.ofBool p,rfl,.truth p,hputs.choose ?_⟩
        cases p <;> exact hz locals
      · rw [if_neg hp]
        have hy : (if p then (if settles then z else y) else (if settles then y else z)) = y := by
          cases p <;> cases settles <;> first | rfl | exact absurd rfl hp
        rcases hb σ locals hm with ⟨v,n,hv,hn,hputs'⟩ | ⟨k,hk,htrap⟩
        · exact .inl ⟨v,n,hv,hn,hputs.choose (hy.symm ▸ hputs')⟩
        · exact .inr ⟨k,hk,.choose hputs (hy.symm ▸ htrap)⟩
  · exact .inr ⟨k,Eval.bind_of_trap (truth_of_trap hk) _,htrap.append _⟩

theorem junction_compiles (ha : a.type = some .boolean) (hb : b.type = some .boolean) (hn : n.type = some .boolean)
    (iha : Compiles arity c w a) (ihb : Compiles arity (c.inside 1) w b) :
    Compiles arity c w (.binary n .and a b) ∧ Compiles arity c w (.binary n .or a b) := by
  obtain ⟨s,x,hs,-,hx,hcx⟩ := iha
  obtain ⟨t,y,ht,-,hy,hcy⟩ := ihb
  cases ha.symm.trans hs
  cases hb.symm.trans ht
  constructor <;> refine ⟨_,_,hn,by simp [SlotKind.ofType],hx.bind hy.map,?_⟩
  · refine junction_computes false hcx hcy (fun locals => .of_step fun st fs k => rfl) ?_
    rw [Meaning.expr]
    congr 1
    funext p
    cases p <;> rfl
  · refine junction_computes true hcx hcy (fun locals => .of_step fun st fs k => rfl) ?_
    rw [Meaning.expr]

theorem expr_compiles (hw : w.types = S.slots) (hs : S.strict) : ∀ (e : Expr) (c : Context),
    e.isScalar = true → e.Every (rule S) l → Compiles arity c w e
  | .int n v, c, _, h => by
    obtain ⟨t,hn,ht⟩ := (h.2 hs).2
    refine value_compiles (v := .int v) hn ht ?_ rfl fun s => rfl
    cases t <;> first | (simp [SlotKind.ofType]; done) | cases ht
  | .bool n b, c, _, h =>
    value_compiles (v := .bool b) (h.2 hs).2 rfl (by simp [SlotKind.ofType]) rfl fun s => rfl
  | .enum n o v tag, c, _, h => by
    obtain ⟨d,i,-,-,rfl⟩ := h.1
    obtain ⟨d',-,hn⟩ := (h.2 hs).2
    exact enum_compiles hn
  | .name n x sym, c, hscalar, h => by
    obtain ⟨s,rfl,hn,hsym⟩ := h.1
    have hk : SlotKind.ofType s.type ≠ .other := of_decide_eq_true hscalar
    rcases hsym with hvar | hconst
    · exact variable_compiles hw hvar hn hk
    · exact constant_compiles hconst hs hn hk
  | .unary n op e, c, hscalar, h => by
    obtain ⟨t,r,ht,hr,hn⟩ := (h.1.2 hs).2
    have ih := expr_compiles hw hs e c hscalar h.2
    simp only [UnaryOp.type?, if_neg (Typing.ne_error_of_every h.2 hs ht)] at hr
    cases op with
    | neg =>
      obtain ⟨hnum,hr⟩ := Option.ite_none_right_eq_some.mp hr
      cases hr
      exact neg_compiles ht hnum hn ih
    | not =>
      obtain ⟨rfl,hr⟩ := Option.ite_none_right_eq_some.mp hr
      cases hr
      exact not_compiles ht hn ih
  | .binary n op a b, c, hscalar, h => by
    obtain ⟨s,t,r,hs1,ht1,hr,hn⟩ := (h.1.2 hs).2
    simp only [Expr.isScalar, Bool.and_eq_true, decide_eq_true_eq] at hscalar
    have htakes := BinaryOp.takes_of_type? hr (Typing.ne_error_of_every h.2.1 hs hs1)
      (Typing.ne_error_of_every h.2.2 hs ht1)
    have iha := expr_compiles hw hs a c hscalar.1.2 h.2.1
    by_cases hand : op = .and
    · subst hand
      obtain ⟨rfl,rfl,rfl⟩ := htakes
      exact (junction_compiles hs1 ht1 hn iha (expr_compiles hw hs b (c.inside 1) hscalar.2 h.2.2)).1
    · by_cases hor : op = .or
      · subst hor
        obtain ⟨rfl,rfl,rfl⟩ := htakes
        exact (junction_compiles hs1 ht1 hn iha (expr_compiles hw hs b (c.inside 1) hscalar.2 h.2.2)).2
      · exact strict_compiles hscalar.1.1 hand hor hs1 ht1 hn htakes iha
          (expr_compiles hw hs b c hscalar.2 h.2.2)

end Scalar

end Covenant
