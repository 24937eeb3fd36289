import Covenant.Proofs.Meaning.Run
import Covenant.Proofs.Typing.Values

/-! Folding constants computes what running would compute. -/

namespace Covenant

theorem ofInt_wrapWord (n : Int) : BitVec.ofInt 64 (wrapWord n) = BitVec.ofInt 64 n := by
  apply BitVec.eq_of_toInt_eq
  simp [wrapWord, wordSize]

theorem toInt_ofInt_inRange {n : Int} (h : inWordRange n = true) :
    (BitVec.ofInt 64 n).toInt = n := by
  rw [inWordRange_iff] at h
  simp only [minWord, maxWord] at h
  apply BitVec.toInt_ofInt_eq_self <;> omega

theorem ofInt_eq_iff {m n : Int} (hm : inWordRange m = true) (hn : inWordRange n = true) :
    BitVec.ofInt 64 m = BitVec.ofInt 64 n ↔ m = n := by
  rw [← BitVec.toInt_inj,toInt_ofInt_inRange hm,toInt_ofInt_inRange hn]

namespace Meaning

theorem quotient_ofInt {a b : Int} (ha : inWordRange a = true) (hb : inWordRange b = true)
    (h0 : b ≠ 0) (h : ¬(a = minWord ∧ b = -1)) :
    quotient (BitVec.ofInt 64 a) (BitVec.ofInt 64 b) = pure (.int (BitVec.ofInt 64 (a.tdiv b))) := by
  have hb0 : BitVec.ofInt 64 b ≠ 0 := fun he => h0 ((ofInt_eq_iff hb (by decide)).mp he)
  have hover : ¬(BitVec.ofInt 64 a = BitVec.intMin 64 ∧ BitVec.ofInt 64 b = -1) := by
    rintro ⟨hx,hy⟩
    exact h ⟨(ofInt_eq_iff ha (by decide)).mp (hx.trans (by decide)),
      (ofInt_eq_iff hb (by decide)).mp (hy.trans (by decide))⟩
  have hdiv : (BitVec.ofInt 64 a).sdiv (BitVec.ofInt 64 b) = BitVec.ofInt 64 (a.tdiv b) := by
    apply BitVec.eq_of_toInt_eq
    rw [BitVec.toInt_sdiv,toInt_ofInt_inRange ha,toInt_ofInt_inRange hb,BitVec.toInt_ofInt]
  rw [quotient,if_neg hb0,if_neg hover,hdiv]

theorem remainder_ofInt {a b : Int} (ha : inWordRange a = true) (hb : inWordRange b = true)
    (h0 : b ≠ 0) :
    remainder (BitVec.ofInt 64 a) (BitVec.ofInt 64 b) =
      pure (.int (BitVec.ofInt 64 (a.tmod b))) := by
  have hb0 : BitVec.ofInt 64 b ≠ 0 := fun he => h0 ((ofInt_eq_iff hb (by decide)).mp he)
  have hrem : (BitVec.ofInt 64 a).srem (BitVec.ofInt 64 b) = BitVec.ofInt 64 (a.tmod b) := by
    apply BitVec.eq_of_toInt_eq
    rw [BitVec.toInt_srem,toInt_ofInt_inRange ha,toInt_ofInt_inRange hb,
      toInt_ofInt_inRange (tmod_inRange ha)]
  rw [remainder,if_neg hb0,hrem]

theorem unary_foldUnary {op : UnaryOp} {a v : Value} (h : Value.foldUnary op a = some v) :
    unary op (.ofValue a) = pure (.ofValue v) := by
  cases op <;> cases a <;> simp only [Value.foldUnary, Option.some.injEq, reduceCtorEq] at h
  · subst h
    simp [unary, Val.ofValue, ofInt_wrapWord, BitVec.ofInt_neg]
  · subst h
    rfl

theorem binary_foldInt {op : BinaryOp} {a b : Int} {v : Value} (ha : inWordRange a = true)
    (hb : inWordRange b = true) (h : Value.foldInt op a b = some v) :
    binary op (.int (BitVec.ofInt 64 a)) (.int (BitVec.ofInt 64 b)) = pure (.ofValue v) := by
  cases op <;> simp only [Value.foldInt, Option.some.injEq, reduceCtorEq] at h
  case add | sub | mul =>
    subst h
    simp [binary, Val.ofValue, ofInt_wrapWord, BitVec.ofInt_add, BitVec.ofInt_mul,
      Int.sub_eq_add_neg, BitVec.ofInt_neg, BitVec.sub_eq_add_neg]
  case div =>
    by_cases hm : a = minWord ∧ b = -1
    · simp [hm] at h
    · by_cases h0 : b = 0
      · simp [h0, quotient?, minWord] at h
      · simp only [if_neg hm, quotient?, if_neg h0, Option.map_some, Option.some.injEq] at h
        subst h
        exact quotient_ofInt ha hb h0 hm
  case rem =>
    by_cases h0 : b = 0
    · simp [h0, remainder?] at h
    · simp only [remainder?, if_neg h0, Option.map_some, Option.some.injEq] at h
      subst h
      exact remainder_ofInt ha hb h0
  case lt | gt | le | ge =>
    subst h
    simp [binary, Val.ofValue, BitVec.slt_eq_decide, BitVec.sle_eq_decide,
      toInt_ofInt_inRange ha, toInt_ofInt_inRange hb]
  case eq | ne =>
    subst h
    have he : (BitVec.ofInt 64 a == BitVec.ofInt 64 b) = decide (a = b) := by
      rw [Bool.eq_iff_iff]
      simp [ofInt_eq_iff ha hb]
    simp [binary, Val.equal?, Eval.orStuck, Val.ofValue, he]

theorem binary_foldBinary {op : BinaryOp} {a b v : Value} (ha : a.InRange) (hb : b.InRange)
    (hand : op ≠ .and) (hor : op ≠ .or) (h : Value.foldBinary op a b = some v) :
    binary op (.ofValue a) (.ofValue b) = pure (.ofValue v) := by
  cases a <;> cases b <;> simp only [Value.foldBinary, reduceCtorEq] at h
  case int.int => exact binary_foldInt ha hb h
  case bool.bool x y =>
    cases op <;> simp only [Value.foldBool, Option.some.injEq, reduceCtorEq, ne_eq, not_true] at *
    all_goals
      subst h
      cases x <;> cases y <;> rfl
  case text.text s t =>
    cases op <;> simp only [Value.foldText, Option.some.injEq, reduceCtorEq] at h
    all_goals
      subst h
      simp [binary, Val.equal?, Eval.orStuck, Val.ofValue, BEq.beq]

end Meaning

end Covenant
