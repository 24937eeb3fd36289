import Covenant.Memory.Layout
import Covenant.Library
import Mathlib.Data.List.Basic

/-! Types that a program can write down, types that an expression can get from them, and what the
common type of several expressions has to do with each. -/

namespace Covenant

variable {r s t : Ty} {b : Builtin} {op : BinaryOp}

namespace Ty

/-- A type of values through and through, as declarations give it. -/
def isProper : Ty → Bool
  | error | void | hole => false
  | array t | option t | result t => t.isProper
  | _ => true

/-- A type of values that may leave something open. -/
def isSolid : Ty → Bool
  | error | void => false
  | array t | option t | result t => t.isSolid
  | _ => true

theorem isSolid_of_isProper (h : t.isProper = true) : t.isSolid = true := by
  induction t with
  | array t ih | option t ih | result t ih => exact ih h
  | error | void | hole => cases h
  | _ => rfl

theorem ne_error_of_isSolid (h : t.isSolid = true) : t ≠ .error := by
  rintro rfl
  cases h

/-- What an expression of the first type leaves fits where the second type is told: nothing at all, or
a value of the same machine type. Control may also not come out of it. -/
def Agrees (u r : Ty) : Prop :=
  u = .hole ∨ (r ≠ .hole ∧ u.valType = r.valType ∧ (u = .void ↔ r = .void))

theorem Agrees.refl (t : Ty) : t.Agrees t := by
  by_cases h : t = .hole
  · exact .inl h
  · exact .inr ⟨h,rfl,Iff.rfl⟩

theorem Agrees.trans (hs : s.Agrees t) (ht : t.Agrees r) : s.Agrees r := by
  rcases hs with hs | ⟨hne,hval,hvoid⟩
  · exact .inl hs
  · rcases ht with ht | ⟨hne',hval',hvoid'⟩
    · exact absurd ht hne
    · exact .inr ⟨hne',hval.trans hval',hvoid.trans hvoid'⟩

theorem valType_of_isNumeric (h : t.isNumeric = true) : t.valType = .i64 := by
  cases t <;> first | rfl | cases h

theorem compatible_refl (t : Ty) : t.compatible t = true := by
  induction t with
  | array t ih | option t ih | result t ih => exact ih
  | _ => simp [compatible]

/-- Two types that fit each other have the same machine type unless one of them is open. -/
theorem valType_of_compatible (h : s.compatible t = true) (hs : s ≠ .hole) (hs' : s ≠ .error) (ht : t ≠ .hole)
    (ht' : t ≠ .error) : s.valType = t.valType ∧ (s = .void ↔ t = .void) := by
  fun_cases compatible s t with
  | case1 | case2 | case3 | case4 => contradiction
  | case5 | case6 | case7 => exact ⟨rfl,by simp⟩
  | case8 =>
    have hc : s = t ∨ (s.isNumeric = true ∧ t.isNumeric = true) := by
      simpa [compatible] using h
    rcases hc with rfl | ⟨hm,hn⟩
    · exact ⟨rfl,Iff.rfl⟩
    · rw [valType_of_isNumeric hm,valType_of_isNumeric hn]
      refine ⟨rfl,?_,?_⟩ <;> rintro rfl <;> contradiction

theorem unify_hole_left (t : Ty) (h : t ≠ .error) : hole.unify t = some t := by
  cases t <;> simp_all [unify]

theorem unify_hole_right (t : Ty) (h : t ≠ .error) : t.unify hole = some t := by
  cases t <;> simp_all [unify]

theorem unify_eq_left (h : s.unify t = some r) (hs : s ≠ .hole) (hs' : s ≠ .error) (ht : t ≠ .hole)
    (ht' : t ≠ .error) (hp : ∀ u, s ≠ .array u ∧ s ≠ .option u ∧ s ≠ .result u) : s = r := by
  revert h
  fun_cases unify s t <;> simp_all

theorem unify_isSolid (h : s.unify t = some r) (hs : s.isSolid = true) (ht : t.isSolid = true) :
    r.isSolid = true := by
  induction s generalizing t r with
  | error | void => cases hs
  | hole =>
    rw [unify_hole_left t (ne_error_of_isSolid ht)] at h
    exact Option.some.inj h ▸ ht
  | array s ih | option s ih | result s ih =>
    cases t with
    | hole => exact Option.some.inj h ▸ hs
    | array t | option t | result t =>
      first
      | obtain ⟨u,hu,rfl⟩ := Option.map_eq_some_iff.mp h
        exact ih (r := u) hu hs ht
      | simp [unify, isNumeric] at h
    | error => cases ht
    | _ => simp [unify, isNumeric] at h
  | _ =>
    by_cases hh : t = .hole
    · subst hh
      exact Option.some.inj h ▸ hs
    · exact unify_eq_left h (by simp) (by simp) hh (ne_error_of_isSolid ht) (by simp) ▸ hs

theorem foldlM_unify_isSolid {common : Ty} {ts : List Ty} (h : ts.foldlM unify common = some r)
    (hcommon : common.isSolid = true) (hts : ∀ t ∈ ts, t.isSolid = true) : r.isSolid = true := by
  induction ts generalizing common with
  | nil => exact Option.some.inj h ▸ hcommon
  | cons t ts ih =>
    obtain ⟨ht,hts⟩ := List.forall_mem_cons.mp hts
    obtain ⟨u,hu,h⟩ := Option.bind_eq_some_iff.mp h
    exact ih h (unify_isSolid hu hcommon ht) hts

theorem unify_void (h : s.unify t = some r) (hs : s = .void ∨ s.isSolid = true) (ht : t = .void ∨ t.isSolid = true) :
    r = .void ∨ r.isSolid = true := by
  rcases hs with rfl | hs
  · cases t <;> simp_all [unify, isNumeric]
  · rcases ht with rfl | ht
    · cases s <;> simp_all [unify, isNumeric, isSolid]
    · exact .inr (unify_isSolid h hs ht)

theorem unify_agrees (h : s.unify t = some r) (hs : s ≠ .error) (ht : t ≠ .error) : s.Agrees r ∧ t.Agrees r := by
  by_cases hsh : s = .hole
  · subst hsh
    rw [unify_hole_left t ht] at h
    exact ⟨.inl rfl,Option.some.inj h ▸ .refl t⟩
  by_cases hth : t = .hole
  · subst hth
    rw [unify_hole_right s hs] at h
    exact ⟨Option.some.inj h ▸ .refl s,.inl rfl⟩
  have hc : s.compatible t = true := by rw [← unify_isSome,h]; rfl
  obtain ⟨hval,hvoid⟩ := valType_of_compatible hc hsh hs hth ht
  have hr : s.Agrees r := by
    cases s with
    | array s | option s | result s =>
      cases t <;> simp_all [unify, isNumeric]
      all_goals
        obtain ⟨u,-,rfl⟩ := h
        exact .inr ⟨by simp,rfl,by simp⟩
    | _ => exact unify_eq_left h hsh hs hth ht (by simp) ▸ .refl _
  rcases hr with hr | ⟨hr,hval',hvoid'⟩
  · exact absurd hr hsh
  · exact ⟨.inr ⟨hr,hval',hvoid'⟩,.inr ⟨hr,hval.symm.trans hval',hvoid.symm.trans hvoid'⟩⟩

end Ty

theorem UnaryOp.type?_isSolid {op : UnaryOp} (h : op.type? t = some r) (ht : t.isSolid = true) :
    r.isSolid = true := by
  cases op <;> cases t <;> simp_all [UnaryOp.type?, Ty.isNumeric, Ty.isSolid] <;> subst h <;> rfl

def BinaryOp.Takes (op : BinaryOp) (s t r : Ty) : Prop :=
  match op with
  | add | sub | mul | div | rem =>
    s.isNumeric = true ∧ t.isNumeric = true ∧ r = if s = .mana || t = .mana then .mana else .integer
  | concat => s = .string ∧ t = .string ∧ r = .string
  | lt | gt | le | ge => s.isNumeric = true ∧ t.isNumeric = true ∧ r = .boolean
  | eq | ne => (s.isScalar = true ∧ t.isScalar = true) ∧ s.compatible t = true ∧ r = .boolean
  | and | or => s = .boolean ∧ t = .boolean ∧ r = .boolean

theorem BinaryOp.takes_of_type? (h : op.type? s t = some r) (hs : s ≠ .error) (ht : t ≠ .error) : op.Takes s t r := by
  simp only [type?, hs, ht, decide_false, Bool.or_self, Bool.false_eq_true, if_false] at h
  cases op <;> obtain ⟨hc,hr⟩ := Option.ite_none_right_eq_some.mp h <;>
    simp only [Bool.and_eq_true, decide_eq_true_eq] at hc <;> cases hr <;> exact ⟨hc.1,hc.2,rfl⟩

theorem Ty.isScalar_of_isNumeric (h : t.isNumeric = true) : t.isScalar = true := by
  cases t <;> first | rfl | cases h

theorem BinaryOp.Takes.isScalar (h : op.Takes s t r) : s.isScalar = true ∧ t.isScalar = true := by
  cases op with
  | eq | ne => exact h.1
  | concat | and | or =>
    obtain ⟨rfl,rfl,-⟩ := h
    exact ⟨rfl,rfl⟩
  | _ => exact ⟨Ty.isScalar_of_isNumeric h.1,Ty.isScalar_of_isNumeric h.2.1⟩

theorem BinaryOp.type?_isSolid (h : op.type? s t = some r) (hs : s.isSolid = true) (ht : t.isSolid = true) :
    r.isSolid = true := by
  have htakes := takes_of_type? h (Ty.ne_error_of_isSolid hs) (Ty.ne_error_of_isSolid ht)
  cases op <;> obtain ⟨-,-,rfl⟩ := htakes
  case add | sub | mul | div | rem => split <;> rfl
  all_goals rfl

theorem HostFunction.result_isSolid :
    ∀ h ∈ HostFunction.all, h.result.getD .void = .void ∨ (h.result.getD .void).isSolid = true := by
  decide

theorem Builtin.arrayResult_isSolid {args : List Ty} (h : b.arrayResult args = .ok r)
    (hargs : ∀ t ∈ args, t.isSolid = true) (hne : args ≠ []) : r.isSolid = true := by
  cases args with
  | nil => exact absurd rfl hne
  | cons t args =>
    cases t with
    | array t =>
      have ht : t.isSolid = true := hargs (.array t) (by simp)
      simp only [arrayResult] at h
      split at h
      · exact Except.ok.inj h ▸ ht
      · split at h <;> cases h
        rfl
      · split at h
        · cases h
        · split at h <;> cases h
          rfl
      · cases h
        rfl
    | _ => cases h

theorem Builtin.result_isSolid {args : List Ty} (h : b.result args = .ok r) (hargs : ∀ t ∈ args, t.isSolid = true) :
    r.isSolid = true := by
  have herr : args.contains .error = false := by
    rw [List.contains_eq_mem,decide_eq_false_iff_not]
    exact fun hm => Ty.ne_error_of_isSolid (hargs _ hm) rfl
  have hlen : args.length = b.arity := by
    by_cases hlen : args.length = b.arity
    · exact hlen
    · simp [result, hlen] at h
  have hne : args ≠ [] := by
    rintro rfl
    cases b <;> cases hlen
  simp only [result, hlen, herr, ne_eq, not_true, if_false, Bool.false_eq_true] at h
  cases b <;> simp only [textResult] at h
  case stringLen | stringConcat => split at h <;> cases h; rfl
  all_goals exact arrayResult_isSolid h hargs hne

def Builtin.Takes (b : Builtin) (ts : List Ty) (r : Ty) : Prop :=
  match b with
  | arrayLen => r = .integer ∧ ∃ t, ts = [.array t]
  | arrayPush => r = .integer ∧ ∃ t u, ts = [.array t, u] ∧ t.compatible u = true
  | arrayPop => ∃ t, r = .option t ∧ ts = [.array t]
  | arrayContains => r = .boolean ∧ ∃ t u, ts = [.array t, u] ∧ t.compatible u = true ∧
      (t.isScalar = true ∨ t = .hole)
  | stringLen => r = .integer ∧ ts = [.string]
  | stringConcat => r = .string ∧ ts = [.string, .string]

theorem Builtin.length_of_result {ts : List Ty} (h : b.result ts = .ok r) : ts.length = b.arity := by
  by_cases hlen : ts.length = b.arity
  · exact hlen
  · simp [result, hlen] at h

theorem Builtin.takes_of_result {ts : List Ty} (h : b.result ts = .ok r) (hts : .error ∉ ts) : b.Takes ts r := by
  have hlen := length_of_result h
  have hcont : ts.contains .error = false := by simpa using hts
  simp only [result, hlen, hcont, ne_eq, not_true, if_false, Bool.false_eq_true] at h
  cases b with
  | arrayLen | arrayPop =>
    obtain ⟨t,rfl⟩ := List.length_eq_one_iff.mp hlen
    cases t <;> cases h
    simp [Takes]
  | arrayPush =>
    obtain ⟨t,u,rfl⟩ := List.length_eq_two.mp hlen
    cases t <;> simp only [arrayResult, reduceCtorEq] at h
    split at h <;> cases h
    exact ⟨rfl,_,_,rfl,‹_›⟩
  | arrayContains =>
    obtain ⟨t,u,rfl⟩ := List.length_eq_two.mp hlen
    cases t <;> simp only [arrayResult, reduceCtorEq] at h
    split at h
    · cases h
    · rename_i hcompat
      split at h <;> cases h
      rename_i hscalar
      exact ⟨rfl,_,_,rfl,by simpa using hcompat,by simpa using hscalar⟩
  | stringLen =>
    obtain ⟨t,rfl⟩ := List.length_eq_one_iff.mp hlen
    by_cases ht : t = .string <;> simp_all [textResult, Takes]
  | stringConcat =>
    obtain ⟨t,u,rfl⟩ := List.length_eq_two.mp hlen
    by_cases ht : t = .string <;> by_cases hu : u = .string <;> simp_all [textResult, Takes]

end Covenant
