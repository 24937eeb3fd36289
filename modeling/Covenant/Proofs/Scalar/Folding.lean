import Covenant.Proofs.Meaning.Folding
import Covenant.Proofs.Scalar.Expression
import Mathlib.Data.BitVec
import Mathlib.Data.Int.ModEq

/-! An operator folded at compile time gives what its code leaves when it is run, and has no folded value
exactly where its code traps. -/

namespace Covenant

/-- A number wraps as a residue does, counted from the least word. -/
theorem wrapWord_eq (n : Int) : wrapWord n = (n - minWord) % wordSize + minWord := by
  simp only [wrapWord, Int.bmod, wordSize, minWord]
  omega

/-- The quotient of the magnitudes, with a sign if only one number is negative. -/
theorem quotient?_eq {a b : Int} (hb : b ≠ 0) : quotient? a b =
    some (if a < 0 ↔ b < 0 then ((a.natAbs / b.natAbs : Nat) : Int) else -(a.natAbs / b.natAbs : Nat)) := by
  rw [quotient?,if_neg hb]
  cases a with
  | ofNat m =>
    cases b with
    | ofNat n =>
      exact congrArg some (if_pos (iff_of_false (Int.not_lt.mpr (Int.natCast_nonneg m)) (Int.not_lt.mpr (Int.natCast_nonneg n)))).symm
    | negSucc n => simp [Int.tdiv, Int.negSucc_lt_zero]
  | negSucc m =>
    cases b with
    | ofNat n => simp [Int.tdiv, Int.negSucc_lt_zero]
    | negSucc n => simp [Int.tdiv, Int.negSucc_lt_zero]

theorem remainder?_eq (a b : Int) : remainder? a b = (quotient? a b).map fun q => a - b * q := by
  rw [remainder?,quotient?]
  split
  · rfl
  · rw [Int.tmod_def]
    rfl

theorem toInt_ofInt_word (n : Int) : (BitVec.ofInt 64 n).toInt = wrapWord n := by
  rw [BitVec.toInt_ofInt]
  rfl

theorem wrapWord_modEq (n : Int) : wrapWord n ≡ n [ZMOD 2 ^ 64] := by
  rw [Int.ModEq,wrapWord,wordSize,Int.bmod_def]
  split <;> omega

theorem eq_wrapWord {m n : Int} (hm : inWordRange m = true) (h : m ≡ n [ZMOD 2 ^ 64]) : m = wrapWord n := by
  rw [Int.ModEq] at h
  rw [inWordRange_iff] at hm
  simp only [minWord, maxWord] at hm
  rw [wrapWord,wordSize,Int.bmod_def]
  split <;> omega

theorem toInt_intCast (n : Int) : (Int.castRingHom Guard.Word n).toInt = wrapWord n := by
  rw [eq_intCast,← toInt_ofInt_word]
  rfl

theorem toInt_inWordRange (w : Guard.Word) : inWordRange w.toInt = true := by
  have hlo := w.le_toInt
  have hhi := w.toInt_lt
  rw [inWordRange_iff]
  simp only [minWord, maxWord]
  omega

theorem toInt_eq_zero {w : Guard.Word} : w.toInt = 0 ↔ w = 0 := by
  rw [← BitVec.toInt_inj]
  rfl

theorem toInt_eq_min {w : Guard.Word} : w.toInt = minWord ↔ w = BitVec.intMin 64 := by
  rw [← BitVec.toInt_inj]
  rfl

theorem toInt_eq_neg_one {w : Guard.Word} : w.toInt = -1 ↔ w = -1 := by
  rw [← BitVec.toInt_inj]
  rfl

theorem quotient_traps_iff (a b : Guard.Word) :
    Machine.binary .i64DivS (.i64 a) (.i64 b) = .trap ↔ b.toInt = 0 ∨ a.toInt = minWord ∧ b.toInt = -1 := by
  rw [toInt_eq_zero,toInt_eq_min,toInt_eq_neg_one,Machine.binary]
  split
  · simp_all
  · split <;> simp_all

theorem remainder_traps_iff (a b : Guard.Word) :
    Machine.binary .i64RemS (.i64 a) (.i64 b) = .trap ↔ b.toInt = 0 := by
  rw [toInt_eq_zero,Machine.binary]
  split <;> simp_all

namespace Value

theorem foldInt_div_eq_none (a b : Int) :
    foldInt .div a b = none ↔ b = 0 ∨ a = minWord ∧ b = -1 := by
  simp only [foldInt, quotient?]
  split
  · simp_all
  · split <;> simp_all

theorem foldInt_rem_eq_none (a b : Int) : foldInt .rem a b = none ↔ b = 0 := by
  simp only [foldInt, remainder?]
  split <;> simp_all

end Value

namespace Scalar

open Lower (Context Instr)
open Machine (Number)
open Meaning (Val SlotKind)

/-- The constant that a number of the machine is, with words read as signed. -/
inductive Stands : Value → Number → Prop
  | int (w : Guard.Word) : Stands (.int w.toInt) (.i64 w)
  | bool (b : Bool) : Stands (.bool b) (.ofBool b)

def kindOf : Value → SlotKind
  | .int _ => .word
  | .bool _ => .truth
  | .text _ => .other

variable {arity : Nat} {c : Context} {locals : List Number} {e a b : Expr} {s t r : Ty} {u v z : Value} {x y : Number}

namespace Stands

theorem inRange (h : Stands v x) : v.InRange := by
  cases h with
  | int w => exact toInt_inWordRange w
  | bool b => trivial

theorem kind_eq (h : Stands v x) (ht : v.HasType t) : SlotKind.ofType t = kindOf v := by
  cases h with
  | int w => cases t <;> first | rfl | cases ht
  | bool b =>
    obtain rfl : t = .boolean := ht
    rfl

theorem kind_ne (h : Stands v x) (ht : v.HasType t) : SlotKind.ofType t ≠ .other := by
  rw [h.kind_eq ht]
  cases h <;> simp [kindOf]

theorem shows (h : Stands v x) (ht : v.HasType t) : Shows (.ofType t) (.ofValue v) x := by
  rw [h.kind_eq ht]
  cases h with
  | int w =>
    rw [Val.ofValue,BitVec.ofInt_toInt]
    exact .word w
  | bool b => exact .truth b

theorem of_shows (hv : v.InRange) (ht : v.HasType t) (hk : SlotKind.ofType t ≠ .other)
    (h : Shows (.ofType t) (.ofValue v) x) : Stands v x := by
  generalize SlotKind.ofType t = k at h hk
  cases v with
  | int n =>
    cases h with
    | other => exact absurd rfl hk
    | word =>
      have hn : n = (BitVec.ofInt 64 n).toInt := (toInt_ofInt_inRange hv).symm
      rw [hn,BitVec.ofInt_toInt]
      exact .int _
  | bool b =>
    cases h with
    | other => exact absurd rfl hk
    | truth => exact .bool b
  | text s =>
    cases h with
    | other => exact absurd rfl hk

end Stands

def Leaves (arity : Nat) (c : Context) (locals : List Number) (e : Expr) (v : Value) : Prop :=
  ∃ code x, Makes (Lower.expr c e) code ∧ Stands v x ∧ Puts arity code locals x

/-- The code of an expression leaves the constant it was folded to, or traps if there is none. -/
def Folds (arity : Nat) (c : Context) (locals : List Number) (e : Expr) : Option Value → Prop
  | some v => Leaves arity c locals e v
  | none => ∃ code, Makes (Lower.expr c e) code ∧ Traps arity code locals

theorem literal_leaves (arity : Nat) (c : Context) (locals : List Number) (pos : Pos) (hv : v.InRange)
    (ht : v.HasType t) (hk : SlotKind.ofType t ≠ .other) :
    Leaves arity c locals (v.literal (some t) pos) v := by
  obtain ⟨code,x,hmake,hshow,hputs⟩ := value_puts arity ht hk
  refine ⟨code,x,?_,.of_shows hv ht hk hshow,hputs locals⟩
  cases v <;> exact hmake

theorem neg_leaves (n : Note) {w : Int} (h : Leaves arity c locals e (.int w)) :
    Leaves arity c locals (.unary n .neg e) (.int (wrapWord (-w))) := by
  obtain ⟨code,x,hmake,hx,hputs⟩ := h
  cases hx with
  | int a =>
    refine ⟨_,.i64 (0 - a),hmake.map,?_,fun st fs k => ?_⟩
    · have ha : wrapWord (-a.toInt) = (0 - a).toInt := by
        rw [← toInt_ofInt_word,BitVec.ofInt_neg,BitVec.ofInt_toInt,zero_sub]
      rw [ha]
      exact .int _
    · rw [List.cons_append,List.cons_append,List.append_assoc]
      exact .step_trans rfl (hputs.comes (.of_step rfl))

theorem not_leaves (n : Note) {p : Bool} (h : Leaves arity c locals e (.bool p)) :
    Leaves arity c locals (.unary n .not e) (.bool !p) := by
  obtain ⟨code,x,hmake,hx,hputs⟩ := h
  cases hx with
  | bool =>
    refine ⟨_,.ofBool !p,hmake.map,.bool _,fun st fs k => ?_⟩
    rw [List.append_assoc]
    refine hputs.comes (.of_step ?_)
    cases p <;> rfl

theorem unary_leaves (n : Note) {op : UnaryOp} (hr : op.type? t = some r) (ht : t ≠ .error)
    (hv : v.HasType t) (h : Leaves arity c locals e v) :
    ∃ z, Value.foldUnary op v = some z ∧ z.InRange ∧ Leaves arity c locals (.unary n op e) z := by
  simp only [UnaryOp.type?, if_neg ht] at hr
  cases op with
  | neg =>
    obtain ⟨hnum,-⟩ := Option.ite_none_right_eq_some.mp hr
    cases v with
    | int w => exact ⟨_,rfl,wrapWord_inRange _,neg_leaves n h⟩
    | bool p =>
      obtain rfl : t = .boolean := hv
      cases hnum
    | text p =>
      obtain rfl : t = .string := hv
      cases hnum
  | not =>
    obtain ⟨rfl,-⟩ := Option.ite_none_right_eq_some.mp hr
    cases v with
    | int w => cases hv
    | bool p => exact ⟨_,rfl,trivial,not_leaves n h⟩
    | text p => cases hv

variable {op : BinaryOp}

theorem kind_of_operands (h : op.Takes s t r) (hs : SlotKind.ofType s ≠ .other)
    (ht : SlotKind.ofType t ≠ .other) : SlotKind.ofType s = SlotKind.ofType t := by
  cases op with
  | eq | ne => exact kind_of_compatible h.2.1 hs ht
  | concat | and | or =>
    obtain ⟨rfl,rfl,-⟩ := h
    rfl
  | _ => rw [kind_of_isNumeric h.1,kind_of_isNumeric h.2.1]

theorem trap_of_foldBinary (h : op.Takes s t r) (hv : v.HasType s) (hu : u.HasType t)
    (hx : Stands v x) (hy : Stands u y) (hnone : Value.foldBinary op v u = none) (σ : Meaning.State) :
    ∃ k, Meaning.binary op (.ofValue v) (.ofValue u) σ = .trap k σ := by
  have hkind := kind_of_operands h (hx.kind_ne hv) (hy.kind_ne hu)
  rw [hx.kind_eq hv,hy.kind_eq hu] at hkind
  cases hx with
  | bool p =>
    obtain rfl : s = .boolean := hv
    cases hy with
    | int q => cases hkind
    | bool q =>
      cases op with
      | and | or | eq | ne => cases hnone
      | _ => cases h.1
  | int p =>
    cases hy with
    | bool q => cases hkind
    | int q =>
      simp only [Val.ofValue, BitVec.ofInt_toInt]
      cases op with
      | div =>
        have htrap := (quotient_traps_iff p q).mpr ((Value.foldInt_div_eq_none _ _).mp hnone)
        rcases quotient_agrees p q σ with ⟨_,_,-,he,-⟩ | ⟨k,hk,-⟩
        · cases htrap.symm.trans he
        · exact ⟨k,hk⟩
      | rem =>
        have htrap := (remainder_traps_iff p q).mpr ((Value.foldInt_rem_eq_none _ _).mp hnone)
        rcases remainder_agrees p q σ with ⟨_,_,-,he,-⟩ | ⟨k,hk,-⟩
        · cases htrap.symm.trans he
        · exact ⟨k,hk⟩
      | concat | and | or =>
        obtain ⟨rfl,-,-⟩ := h
        cases hv
      | _ => cases hnone

theorem strict_folds (n : Note) (hand : op ≠ .and) (hor : op ≠ .or)
    (hop : op.type? s t = some r) (hs : s ≠ .error) (ht : t ≠ .error) (ha : a.type = some s)
    (hv : v.HasType s) (hu : u.HasType t) (hl : Leaves arity c locals a v) (hr : Leaves arity c locals b u) :
    Folds arity c locals (.binary n op a b) (Value.foldBinary op v u) := by
  obtain ⟨codeL,x,hmakeL,hx,hputsL⟩ := hl
  obtain ⟨codeR,y,hmakeR,hy,hputsR⟩ := hr
  have htakes := BinaryOp.takes_of_type? hop hs ht
  have hcat : op ≠ .concat := by
    rintro rfl
    obtain ⟨rfl,-,-⟩ := htakes
    exact hx.kind_ne hv rfl
  obtain ⟨o,ho,happ⟩ := operator_applies arity hcat hand hor htakes (hx.kind_ne hv) (hy.kind_ne hu)
  have hcode : Lower.expr c (.binary n op a b) = (do
      return (← Lower.expr c a) ++ (← Lower.expr c b) ++ (← Lower.operator op a.type)) := by
    cases op <;> first | rfl | exact absurd rfl hand | exact absurd rfl hor
  have hmake : Makes (Lower.expr c (.binary n op a b)) (codeL ++ codeR ++ o) := by
    rw [hcode,ha]
    exact hmakeL.bind (hmakeR.bind ho.map)
  -- which state the operator is run in does not matter
  have hruns := happ _ _ _ _ (hx.shows hv) (hy.shows hu) ⟨.empty, [], []⟩
  cases hfold : Value.foldBinary op v u with
  | some z =>
    rw [Meaning.binary_foldBinary hx.inRange hy.inRange hand hor hfold] at hruns
    rcases hruns with ⟨_,i,hz,hi,hcomes⟩ | ⟨_,hq,-⟩
    · cases hz
      refine ⟨_,i,hmake,.of_shows (Value.foldBinary_inRange hx.inRange hfold)
        (Value.foldBinary_hasType hop hs ht hfold) (kind_of_takes hcat htakes) hi,fun st fs k => ?_⟩
      rw [List.append_assoc,List.append_assoc]
      exact hputsL.comes (hputsR.comes (hcomes st locals fs k))
    · cases hq
  | none =>
    obtain ⟨k,hk⟩ := trap_of_foldBinary htakes hv hu hx hy hfold ⟨.empty, [], []⟩
    rcases hruns with ⟨_,i,hz,-,-⟩ | ⟨_,-,hcomes⟩
    · cases hk.symm.trans hz
    · refine ⟨_,hmake,fun st fs k => ?_⟩
      rw [List.append_assoc,List.append_assoc]
      exact hputsL.comes (hputsR.comes (hcomes st locals fs k))

theorem junction_leaves (n : Note) {p q : Bool} (ha : Leaves arity c locals a (.bool p))
    (hb : Leaves arity (c.inside 1) locals b (.bool q)) :
    Leaves arity c locals (.binary n .and a b) (.bool (p && q)) ∧
      Leaves arity c locals (.binary n .or a b) (.bool (p || q)) := by
  obtain ⟨codeL,x,hmakeL,hx,hputsL⟩ := ha
  obtain ⟨codeR,y,hmakeR,hy,hputsR⟩ := hb
  cases hx
  cases hy
  constructor <;> refine ⟨_,.ofBool _,hmakeL.bind hmakeR.map,.bool _,hputsL.choose ?_⟩ <;> cases p
  · exact .of_step fun st fs k => rfl
  · exact hputsR
  · exact hputsR
  · exact .of_step fun st fs k => rfl

theorem binary_folds (n : Note) (hop : op.type? s t = some r) (hs : s ≠ .error)
    (ht : t ≠ .error) (ha : a.type = some s) (hv : v.HasType s) (hu : u.HasType t)
    (hl : Leaves arity c locals a v) (hr : Leaves arity c locals b u)
    (hin : Leaves arity (c.inside 1) locals b u) :
    Folds arity c locals (.binary n op a b) (Value.foldBinary op v u) := by
  by_cases hjoin : op = .and ∨ op = .or
  · have hbool : s = .boolean ∧ t = .boolean := by
      have htakes := BinaryOp.takes_of_type? hop hs ht
      rcases hjoin with rfl | rfl <;> exact ⟨htakes.1,htakes.2.1⟩
    obtain ⟨rfl,rfl⟩ := hbool
    cases v <;> try cases hv
    cases u <;> try cases hu
    rcases hjoin with rfl | rfl
    · exact (junction_leaves n hl hin).1
    · exact (junction_leaves n hl hin).2
  · obtain ⟨hand,hor⟩ := not_or.mp hjoin
    exact strict_folds n hand hor hop hs ht ha hv hu hl hr

/-- Wrapping picks the representative of a number that fits a word, and is the ring homomorphism to
words. A quotient and a remainder have no folded value exactly where the instruction traps. Every operator
on numbers or truth values is folded to what its code leaves, which fits a word, and has no folded value
only where its code traps. -/
theorem folding_matches_code :
    (∀ n : Int, inWordRange (wrapWord n) = true ∧ wrapWord n ≡ n [ZMOD 2 ^ 64] ∧
      ∀ m, inWordRange m = true → m ≡ n [ZMOD 2 ^ 64] → m = wrapWord n) ∧
    (∃ f : Int →+* Guard.Word, ∀ n, (f n).toInt = wrapWord n) ∧
    (∀ p q : Guard.Word,
      (Value.foldBinary .div (.int p.toInt) (.int q.toInt) = none ↔
        Machine.binary .i64DivS (.i64 p) (.i64 q) = .trap) ∧
      (Machine.binary .i64DivS (.i64 p) (.i64 q) = .trap ↔
        q.toInt = 0 ∨ p.toInt = minWord ∧ q.toInt = -1) ∧
      (Value.foldBinary .rem (.int p.toInt) (.int q.toInt) = none ↔
        Machine.binary .i64RemS (.i64 p) (.i64 q) = .trap) ∧
      (Machine.binary .i64RemS (.i64 p) (.i64 q) = .trap ↔ q.toInt = 0)) ∧
    (∀ (arity : Nat) (c : Context) (locals : List Number) (n : Note) (op : UnaryOp) (e : Expr) (t r : Ty) (v : Value),
      op.type? t = some r → t ≠ .error → v.HasType t → Leaves arity c locals e v →
        ∃ z, Value.foldUnary op v = some z ∧ z.InRange ∧ Leaves arity c locals (.unary n op e) z) ∧
    (∀ (arity : Nat) (c : Context) (locals : List Number) (n : Note) (op : BinaryOp) (a b : Expr) (s t r : Ty)
        (v u : Value),
      op.type? s t = some r → s ≠ .error → t ≠ .error → a.type = some s → v.HasType s → u.HasType t →
      Leaves arity c locals a v → Leaves arity c locals b u → Leaves arity (c.inside 1) locals b u →
        Folds arity c locals (.binary n op a b) (Value.foldBinary op v u) ∧
        ∀ z, Value.foldBinary op v u = some z → z.InRange) := by
  refine ⟨fun n => ⟨wrapWord_inRange n,wrapWord_modEq n,fun m hm h => eq_wrapWord hm h⟩,
    ⟨Int.castRingHom _,toInt_intCast⟩,fun p q => ⟨?_,quotient_traps_iff p q,?_,remainder_traps_iff p q⟩,?_,?_⟩
  · rw [quotient_traps_iff]
    exact Value.foldInt_div_eq_none _ _
  · rw [remainder_traps_iff]
    exact Value.foldInt_rem_eq_none _ _
  · intro arity c locals n op e t r v hop ht hv h
    exact unary_leaves n hop ht hv h
  · intro arity c locals n op a b s t r v u hop hs ht ha hv hu hl hr hin
    refine ⟨binary_folds n hop hs ht ha hv hu hl hr hin,fun z hz => ?_⟩
    obtain ⟨-,x,-,hx,-⟩ := hl
    exact Value.foldBinary_inRange hx.inRange hz

/-- The least word divided by minus one: the remainder is zero and the quotient traps. -/
theorem folding_matches_code_least :
    Leaves 1 ⟨[], [], [], [], 0, [], 1, none⟩ [] (.binary ⟨⟨1, 1⟩, none⟩ .rem
      ((Value.int minWord).literal (some .integer) ⟨1, 1⟩) ((Value.int (-1)).literal (some .integer) ⟨1, 1⟩)) (.int 0) ∧
    ∃ code, Makes (Lower.expr ⟨[], [], [], [], 0, [], 1, none⟩ (.binary ⟨⟨1, 1⟩, none⟩ .div
      ((Value.int minWord).literal (some .integer) ⟨1, 1⟩) ((Value.int (-1)).literal (some .integer) ⟨1, 1⟩))) code ∧
      Traps 1 code [] := by
  have hleft (c : Context) := literal_leaves 1 c [] ⟨1, 1⟩ (show (Value.int minWord).InRange from rfl)
    (show (Value.int minWord).HasType .integer from rfl) (by decide)
  have hright (c : Context) := literal_leaves 1 c [] ⟨1, 1⟩ (show (Value.int (-1)).InRange from rfl)
    (show (Value.int (-1)).HasType .integer from rfl) (by decide)
  have hfolds (op : BinaryOp) (hop : op.type? .integer .integer = some .integer) :=
    (folding_matches_code.2.2.2.2 1 _ [] ⟨⟨1, 1⟩, none⟩ op _ _ .integer .integer .integer
      (.int minWord) (.int (-1)) hop
      (by decide) (by decide) rfl rfl rfl (hleft ⟨[], [], [], [], 0, [], 1, none⟩) (hright _) (hright _)).1
  exact ⟨hfolds .rem rfl,hfolds .div rfl⟩

end Scalar

end Covenant
