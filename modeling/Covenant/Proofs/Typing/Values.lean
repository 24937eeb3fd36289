import Covenant.Proofs.Typing.Rules

/-! Folding constants keeps their kind, and their size within that of a word. -/

namespace Covenant

theorem inWordRange_iff {n : Int} : inWordRange n = true ↔ minWord ≤ n ∧ n ≤ maxWord := by
  simp [inWordRange]

theorem wrapWord_inRange (n : Int) : inWordRange (wrapWord n) = true := by
  have hlo := Int.le_bmod (x := n) (m := wordSize) (by decide)
  have hhi := Int.bmod_lt (x := n) (m := wordSize) (by decide)
  rw [inWordRange_iff]
  simp only [wrapWord, wordSize, minWord, maxWord] at *
  omega

theorem tdiv_inRange {a b : Int} (ha : inWordRange a = true) (hb : b ≠ 0)
    (h : ¬(a = minWord ∧ b = -1)) : inWordRange (a.tdiv b) = true := by
  have hle : (a.tdiv b).natAbs ≤ a.natAbs := by
    rw [Int.natAbs_tdiv]
    exact Nat.div_le_self _ _
  have hmin : a = minWord → a.tdiv b ≠ -minWord := by
    intro hm hq
    subst hm
    have hmul := Int.mul_tdiv_add_tmod minWord b
    have hlt : (minWord.tmod b).natAbs < b.natAbs := by
      rw [Int.natAbs_tmod]
      exact Nat.mod_lt _ (Int.natAbs_pos.mpr hb)
    rw [hq] at hmul
    refine h ⟨rfl,?_⟩
    simp only [minWord] at *
    rcases Int.lt_or_gt_of_ne hb with hneg | hpos <;> omega
  rw [inWordRange_iff] at *
  simp only [minWord, maxWord] at *
  omega

theorem tmod_inRange {a b : Int} (ha : inWordRange a = true) :
    inWordRange (a.tmod b) = true := by
  have hle : (a.tmod b).natAbs ≤ a.natAbs := by
    rw [Int.natAbs_tmod]
    exact Nat.mod_le _ _
  have hsign : 0 ≤ a → 0 ≤ a.tmod b := fun h => Int.tmod_nonneg b h
  have hsign' : a ≤ 0 → a.tmod b ≤ 0 := by
    intro h
    have hneg := Int.tmod_nonneg b (Int.neg_nonneg_of_nonpos h)
    rw [Int.neg_tmod] at hneg
    omega
  rw [inWordRange_iff] at *
  simp only [minWord, maxWord] at *
  rcases Int.le_total 0 a with hpos | hneg <;> omega

namespace Value

theorem foldUnary_inRange {op : UnaryOp} {a v : Value} (h : foldUnary op a = some v) :
    v.InRange := by
  cases op <;> cases a <;> simp only [foldUnary, Option.some.injEq, reduceCtorEq] at h
  · subst h
    exact wrapWord_inRange _
  · subst h
    trivial

theorem foldInt_inRange {op : BinaryOp} {a b : Int} {v : Value} (ha : inWordRange a = true)
    (h : foldInt op a b = some v) : v.InRange := by
  cases op <;> simp only [foldInt, Option.some.injEq, reduceCtorEq] at h
  case add | sub | mul =>
    subst h
    exact wrapWord_inRange _
  case div =>
    by_cases hm : a = minWord ∧ b = -1
    · simp [hm] at h
    · by_cases h0 : b = 0
      · simp [h0, quotient?, minWord] at h
      · simp only [if_neg hm, quotient?, if_neg h0, Option.map_some, Option.some.injEq] at h
        subst h
        exact tdiv_inRange ha h0 hm
  case rem =>
    by_cases h0 : b = 0
    · simp [h0, remainder?] at h
    · simp only [remainder?, if_neg h0, Option.map_some, Option.some.injEq] at h
      subst h
      exact tmod_inRange ha
  all_goals
    subst h
    trivial

theorem foldBinary_inRange {op : BinaryOp} {a b v : Value} (ha : a.InRange)
    (h : foldBinary op a b = some v) : v.InRange := by
  cases a <;> cases b <;> simp only [foldBinary, reduceCtorEq] at h
  case int.int => exact foldInt_inRange ha h
  case bool.bool =>
    cases op <;> simp only [foldBool, Option.some.injEq, reduceCtorEq] at h <;> subst h <;> trivial
  case text.text =>
    cases op <;> simp only [foldText, Option.some.injEq, reduceCtorEq] at h <;> subst h <;> trivial

theorem foldUnary_hasType {op : UnaryOp} {t r : Ty} {a v : Value} (hr : op.type? t = some r)
    (ht : t ≠ .error) (h : foldUnary op a = some v) : v.HasType r := by
  simp only [UnaryOp.type?, if_neg ht] at hr
  cases op <;> cases a <;> simp only [foldUnary, Option.some.injEq, reduceCtorEq] at h <;> subst h
  · obtain ⟨hn,ht⟩ := Option.ite_none_right_eq_some.mp hr
    cases ht
    simp [HasType, hn]
  · obtain ⟨-,hb⟩ := Option.ite_none_right_eq_some.mp hr
    exact (Option.some.inj hb).symm

theorem foldBinary_hasType {op : BinaryOp} {s t r : Ty} {a b v : Value} (hr : op.type? s t = some r)
    (hs : s ≠ .error) (ht : t ≠ .error) (h : foldBinary op a b = some v) : v.HasType r := by
  have htakes := BinaryOp.takes_of_type? hr hs ht
  cases op <;> obtain ⟨-,-,rfl⟩ := htakes <;> cases a <;> cases b <;>
    simp only [foldBinary, foldInt, foldBool, foldText, Option.some.injEq, reduceCtorEq] at h
  case add.int.int | sub.int.int | mul.int.int =>
    subst h
    split <;> rfl
  case div.int.int =>
    split at h
    · cases h
    · obtain ⟨q,-,rfl⟩ := Option.map_eq_some_iff.mp h
      split <;> rfl
  case rem.int.int =>
    obtain ⟨q,-,rfl⟩ := Option.map_eq_some_iff.mp h
    split <;> rfl
  all_goals
    subst h
    rfl

end Value

end Covenant
