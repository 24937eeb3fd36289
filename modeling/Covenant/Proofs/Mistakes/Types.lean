import Covenant.Check.Body
import Covenant.Proofs.Typing.Types
import Mathlib.Data.List.Forall2

/-! What a mistake leaves of a type. The expression at fault has the type `error`, and so may any part
of a type that is made from it; whatever the type fits, its remains still fit. -/

namespace Covenant

/-- The second type is what is left of the first: some part of it may be lost. -/
inductive Ty.Blurs : Ty → Ty → Prop
  | same (t : Ty) : Blurs t t
  | lost (t : Ty) : Blurs t .error
  | array {s t : Ty} (h : Blurs s t) : Blurs (.array s) (.array t)
  | option {s t : Ty} (h : Blurs s t) : Blurs (.option s) (.option t)
  | result {s t : Ty} (h : Blurs s t) : Blurs (.result s) (.result t)

namespace Ty.Blurs

variable {s s' t t' r : Ty}

theorem eq_or_lost (h : t.Blurs t') (hp : ∀ u, t ≠ .array u ∧ t ≠ .option u ∧ t ≠ .result u) :
    t' = t ∨ t' = .error := by
  cases h with
  | same => exact .inl rfl
  | lost => exact .inr rfl
  | array => exact absurd rfl (hp _).1
  | option => exact absurd rfl (hp _).2.1
  | result => exact absurd rfl (hp _).2.2

theorem of_error (h : Ty.error.Blurs t) : t = .error := by
  cases h <;> rfl

theorem of_array (h : (Ty.array s).Blurs t) : t = .error ∨ ∃ s', t = .array s' ∧ s.Blurs s' := by
  cases h with
  | same => exact .inr ⟨s,rfl,.same s⟩
  | lost => exact .inl rfl
  | array h => exact .inr ⟨_,rfl,h⟩

theorem compatible (hs : s.Blurs s') (ht : t.Blurs t') (h : s.compatible t = true) :
    s'.compatible t' = true := by
  induction hs generalizing t t' with
  | lost => rfl
  | same s =>
    induction ht generalizing s with
    | same => exact h
    | lost => exact compatible_error_right s
    | array _ ih | option _ ih | result _ ih => cases s <;> first | rfl | exact ih _ h | cases h
  | array _ ih | option _ ih | result _ ih =>
    cases ht with
    | lost => rfl
    | same => cases t <;> first | rfl | exact ih (.same _) h | cases h
    | array ht | option ht | result ht => first | exact ih ht h | cases h

theorem unify_error_right (t : Ty) : t.unify .error = some .error := by
  cases t <;> rfl

theorem unify (hs : s.Blurs s') (ht : t.Blurs t') (h : s.unify t = some r) :
    ∃ r', s'.unify t' = some r' ∧ r.Blurs r' := by
  induction hs generalizing t t' r with
  | lost => exact ⟨.error,rfl,.lost r⟩
  | same s =>
    induction ht generalizing s r with
    | same => exact ⟨r,h,.same r⟩
    | lost => exact ⟨.error,unify_error_right s,.lost r⟩
    | @array u u' hu ih | @option u u' hu ih | @result u u' hu ih =>
      cases s with
      | error => exact ⟨.error,rfl,.lost r⟩
      | hole =>
        cases h
        exact ⟨_,rfl,by constructor; exact hu⟩
      | array v | option v | result v =>
        first
        | obtain ⟨w,hw,rfl⟩ := Option.map_eq_some_iff.mp h
          obtain ⟨w',hw',hblurs⟩ := ih v hw
          exact ⟨_,congrArg (Option.map _) hw',by constructor; exact hblurs⟩
        | cases h
      | _ => cases h
  | @array u u' hu ih | @option u u' hu ih | @result u u' hu ih =>
    cases ht with
    | lost => exact ⟨.error,unify_error_right _,.lost r⟩
    | same =>
      cases t with
      | error =>
        cases h
        exact ⟨.error,rfl,.same _⟩
      | hole =>
        cases h
        exact ⟨_,rfl,by constructor; exact hu⟩
      | array v | option v | result v =>
        first
        | obtain ⟨w,hw,rfl⟩ := Option.map_eq_some_iff.mp h
          obtain ⟨w',hw',hblurs⟩ := ih (.same v) hw
          exact ⟨_,congrArg (Option.map _) hw',by constructor; exact hblurs⟩
        | cases h
      | _ => cases h
    | array ht | option ht | result ht =>
      first
      | obtain ⟨w,hw,rfl⟩ := Option.map_eq_some_iff.mp h
        obtain ⟨w',hw',hblurs⟩ := ih ht hw
        exact ⟨_,congrArg (Option.map _) hw',by constructor; exact hblurs⟩
      | cases h

theorem ne_void (h : t.Blurs t') (ht : t ≠ .void) : t' ≠ .void := by
  rintro rfl
  cases h
  exact ht rfl

theorem ne_hole (h : t.Blurs t') (ht : t ≠ .hole) : t' ≠ .hole := by
  rintro rfl
  cases h
  exact ht rfl

theorem hasHole (h : t.Blurs t') (ht : t.hasHole = false) : t'.hasHole = false := by
  induction h with
  | same => exact ht
  | lost => rfl
  | array _ ih | option _ ih | result _ ih => exact ih ht

theorem isNumeric (h : t.Blurs t') (ht : t.isNumeric = true) : t' = .error ∨ t'.isNumeric = true := by
  cases h <;> simp_all [Ty.isNumeric]

theorem unaryOp {op : UnaryOp} (h : t.Blurs t') (ht : op.type? t = some r) :
    ∃ r', op.type? t' = some r' ∧ r.Blurs r' := by
  cases h with
  | same => exact ⟨r,ht,.same r⟩
  | lost => exact ⟨.error,rfl,.lost r⟩
  | array | option | result => cases op <;> cases ht

theorem scalar (h : t.Blurs t') (ht : t.isScalar = true) : t' = t ∨ t' = .error := by
  cases h with
  | same => exact .inl rfl
  | lost => exact .inr rfl
  | array | option | result => cases ht

theorem binaryOp {op : BinaryOp} (hs : s.Blurs s') (ht : t.Blurs t') (h : op.type? s t = some r) :
    ∃ r', op.type? s' t' = some r' ∧ r.Blurs r' := by
  by_cases hl : s' = .error ∨ t' = .error
  · refine ⟨.error,?_,.lost r⟩
    simp only [BinaryOp.type?, Bool.or_eq_true, decide_eq_true_eq, hl, if_true]
  · obtain ⟨hs',ht'⟩ := not_or.mp hl
    have hscalar := (BinaryOp.takes_of_type? h (fun he => hs' (of_error (he ▸ hs)))
      fun he => ht' (of_error (he ▸ ht))).isScalar
    rw [(hs.scalar hscalar.1).resolve_right hs',(ht.scalar hscalar.2).resolve_right ht']
    exact ⟨r,h,.same r⟩

theorem fits {p : PatternForm} (h : t.Blurs t') (hp : (Check.patternFits p t).1 = true) :
    t' = .error ∨ (Check.patternFits p t').1 = true := by
  cases p <;> cases h <;> simp_all [Check.patternFits, Ty.isNumeric]

theorem bound (p : PatternForm) (h : t.Blurs t') :
    (Check.patternFits p t).2.Blurs (Check.patternFits p t').2 := by
  cases p with
  | int | bool | text | wild | enum => exact .same _
  | bind => exact h
  | some | none | ok =>
    cases h with
    | same => exact .same _
    | lost => exact .lost _
    | array h | option h | result h => first | exact h | exact .same _
  | err =>
    cases h with
    | same => exact .same _
    | lost => exact .lost _
    | array h | option h | result h => exact .same _

theorem isMatchable (h : t.Blurs t') (ht : Check.isMatchable t = true) :
    t' = .error ∨ Check.isMatchable t' = true := by
  cases h <;> simp_all [Check.isMatchable]

theorem isExhaustive {env : Check.Env} {cs : List Check.Cover} (h : t.Blurs t')
    (ht : Check.isExhaustive env t cs = true) : t' = .error ∨ Check.isExhaustive env t' cs = true := by
  cases h with
  | same => exact .inr ht
  | lost => exact .inl rfl
  | array | option | result => exact .inr ht

end Ty.Blurs

theorem Ty.not_mem_error {ts ts' : List Ty} (h : List.Forall₂ Ty.Blurs ts ts') (hts : .error ∉ ts') :
    .error ∉ ts := by
  induction h with
  | nil => exact hts
  | cons ht _ ih =>
    rw [List.mem_cons,not_or] at hts ⊢
    exact ⟨fun he => hts.1 (Ty.Blurs.of_error (he ▸ ht)).symm,ih hts.2⟩

namespace Builtin

def Searches (b : Builtin) (ts : List Ty) : Prop :=
  b = .arrayContains ∧ .error ∉ ts ∧ ts.head? = some (.array .error)

variable {b : Builtin} {ts : List Ty}

theorem result_of_mem (hlen : ts.length = b.arity) (h : .error ∈ ts) :
    b.result ts = .ok b.resultOnError := by
  have hc : ts.contains .error = true := by simpa using h
  simp only [result, hlen, hc, ne_eq, not_true, if_false, if_true]

theorem result_of_not_mem (hlen : ts.length = b.arity) (h : .error ∉ ts) :
    b.result ts = match b with
      | stringLen => b.textResult .integer ts
      | stringConcat => b.textResult .string ts
      | _ => b.arrayResult ts := by
  have hc : ts.contains .error = false := by simpa using h
  cases b <;> simp [result, hlen, h]

theorem blurs_resultOnError {r : Ty} (h : b.result ts = .ok r) :
    r.Blurs b.resultOnError := by
  by_cases hts : .error ∈ ts
  · rw [result_of_mem (length_of_result h) hts] at h
    exact Except.ok.inj h ▸ .same _
  · have htakes := takes_of_result h hts
    cases b with
    | arrayPop => exact .lost r
    | stringLen | stringConcat | arrayLen | arrayPush | arrayContains =>
      obtain ⟨rfl,-⟩ := htakes
      exact .same _

/-- An operation on what is left of its arguments has what is left of its result, unless it looks for an
item among elements that are lost: they are no scalars. -/
theorem result_blurs {ts' : List Ty} {r : Ty}
    (h : List.Forall₂ Ty.Blurs ts ts') (hr : b.result ts = .ok r) :
    (∃ r', b.result ts' = .ok r' ∧ r.Blurs r' ∧ ¬ b.Searches ts') ∨
      (b.result ts' = .error (.builtinScalar .error) ∧ b.Searches ts') := by
  have hlen : ts'.length = b.arity := h.length_eq ▸ length_of_result hr
  by_cases hts : .error ∈ ts'
  · exact .inl ⟨_,result_of_mem hlen hts,blurs_resultOnError hr,fun hs => hs.2.1 hts⟩
  · have htakes := takes_of_result hr (Ty.not_mem_error h hts)
    rw [result_of_not_mem hlen hts]
    have hkept {t : Ty} (hmem : t ∈ ts') : t ≠ .error := fun he => hts (he ▸ hmem)
    cases b with
    | stringLen =>
      obtain ⟨rfl,rfl⟩ := htakes
      obtain _ | ⟨ha,_ | _⟩ := h
      obtain rfl := (ha.scalar rfl).resolve_right (hkept (by simp))
      exact .inl ⟨_,rfl,.same _,nofun⟩
    | stringConcat =>
      obtain ⟨rfl,rfl⟩ := htakes
      obtain _ | ⟨ha,_ | ⟨hb,_ | _⟩⟩ := h
      obtain rfl := (ha.scalar rfl).resolve_right (hkept (by simp))
      obtain rfl := (hb.scalar rfl).resolve_right (hkept (by simp))
      exact .inl ⟨_,rfl,.same _,nofun⟩
    | arrayLen =>
      obtain ⟨rfl,t,rfl⟩ := htakes
      obtain _ | ⟨ha,_ | _⟩ := h
      obtain ⟨t',rfl,ht⟩ := ha.of_array.resolve_left (hkept (by simp))
      exact .inl ⟨_,rfl,.same _,nofun⟩
    | arrayPop =>
      obtain ⟨t,rfl,rfl⟩ := htakes
      obtain _ | ⟨ha,_ | _⟩ := h
      obtain ⟨t',rfl,ht⟩ := ha.of_array.resolve_left (hkept (by simp))
      exact .inl ⟨_,rfl,.option ht,nofun⟩
    | arrayPush =>
      obtain ⟨rfl,t,u,rfl,hfit⟩ := htakes
      obtain _ | ⟨ha,_ | ⟨hb,_ | _⟩⟩ := h
      obtain ⟨t',rfl,ht⟩ := ha.of_array.resolve_left (hkept (by simp))
      exact .inl ⟨.integer,by simp [arrayResult, ht.compatible hb hfit],.same _,nofun⟩
    | arrayContains =>
      obtain ⟨rfl,t,u,rfl,hfit,hscalar⟩ := htakes
      obtain _ | ⟨ha,_ | ⟨hb,_ | _⟩⟩ := h
      obtain ⟨t',rfl,ht⟩ := ha.of_array.resolve_left (hkept (by simp))
      have hfit' := ht.compatible hb hfit
      by_cases he : t' = .error
      · subst he
        exact .inr ⟨by simp [arrayResult, hfit', Ty.isScalar],rfl,hts,rfl⟩
      · have hsame : t' = t := by
          rcases hscalar with hscalar | rfl
          · exact (ht.scalar hscalar).resolve_right he
          · exact (ht.eq_or_lost (by simp)).resolve_right he
        refine .inl ⟨.boolean,?_,.same _,fun hs => he (by simpa using hs.2.2)⟩
        have helement : (t'.isScalar || decide (t' = .hole)) = true := by simpa [hsame] using hscalar
        simp [arrayResult, hfit', helement]

end Builtin

end Covenant
