import Covenant.Proofs.Typing.Accepts

/-! The common type of several expressions. Two types that fit each other have a least type that says all that
either of them says, so the common type of a list is the same in every order, but for the unit of its numbers. -/

namespace Covenant

namespace Ty

def isFaultless : Ty → Bool
  | error => false
  | array t | option t | result t => t.isFaultless
  | _ => true

def unitless : Ty → Ty
  | mana => integer
  | array t => array t.unitless
  | option t => option t.unitless
  | result t => result t.unitless
  | t => t

def join (ts : List Ty) : Option Ty := ts.foldlM unify hole

inductive Wraps : (Ty → Ty) → Prop
  | array : Wraps array
  | option : Wraps option
  | result : Wraps result

/-- The second type says all that the first one says; the unit of a number says nothing. -/
inductive Fills : Ty → Ty → Prop
  | hole (t : Ty) : Fills hole t
  | same (t : Ty) : Fills t t
  | number {s t : Ty} (hs : s.isNumeric = true) (ht : t.isNumeric = true) : Fills s t
  | part {w : Ty → Ty} {s t : Ty} (hw : Wraps w) (h : Fills s t) : Fills (w s) (w t)

variable {r s t u : Ty}

theorem compatible_comm (s t : Ty) : s.compatible t = t.compatible s := by
  fun_induction compatible s t with
  | case8 s t =>
    have hnum : (s.isNumeric && t.isNumeric) = (t.isNumeric && s.isNumeric) := Bool.and_comm ..
    cases s <;> cases t <;> simp_all [compatible, eq_comm]
  | _ => simp_all [compatible, compatible_error_right, compatible_hole_right]

namespace Fills

theorem of_part {w : Ty → Ty} (hw : Wraps w) (h : (w s).Fills u) : ∃ v, u = w v ∧ s.Fills v := by
  generalize hq : w s = q at h
  cases h with
  | hole => cases hw <;> cases hq
  | same => exact ⟨s,hq.symm,.same s⟩
  | number hs =>
    subst hq
    cases hw <;> cases hs
  | part hw' h => cases hw <;> cases hw' <;> cases hq <;> exact ⟨_,rfl,h⟩

theorem of_number (h : s.Fills u) (hs : s.isNumeric = true) : u.isNumeric = true := by
  cases h with
  | hole => cases hs
  | same => exact hs
  | number _ hu => exact hu
  | part hw => cases hw <;> cases hs

theorem trans (h : s.Fills t) (h' : t.Fills u) : s.Fills u := by
  induction h generalizing u with
  | hole t => exact .hole u
  | same t => exact h'
  | number hs ht => exact .number hs (h'.of_number ht)
  | part hw _ ih =>
    obtain ⟨v,rfl,hv⟩ := h'.of_part hw
    exact .part hw (ih hv)

/-- Two types that each say what the other one says differ in the unit of their numbers at most. -/
theorem unitless_eq (h : s.Fills t) (h' : t.Fills s) : s.unitless = t.unitless := by
  induction h with
  | hole t =>
    generalize hq : Ty.hole = q at h' ⊢
    cases h' with
    | hole => rw [← hq]
    | same => rfl
    | number _ hn =>
      subst hq
      cases hn
    | part hw => cases hw <;> cases hq
  | same t => rfl
  | @number s t hs ht => cases s <;> cases t <;> first | rfl | contradiction
  | part hw _ ih =>
    obtain ⟨v,hv,h'⟩ := h'.of_part hw
    cases hw <;> cases hv <;> simp only [unitless, ih h']

theorem hasHole (h : s.Fills t) (ht : t.hasHole = true) : s.hasHole = true := by
  induction h with
  | hole t => rfl
  | same t => exact ht
  | @number s t _ hn => cases t <;> contradiction
  | part hw _ ih => cases hw <;> exact ih ht

theorem valType_eq (h : s.Fills t) (hs : s ≠ .hole) : s.valType = t.valType := by
  cases h with
  | hole => contradiction
  | same => rfl
  | number hs ht => rw [valType_of_isNumeric hs,valType_of_isNumeric ht]
  | part hw => cases hw <;> rfl

theorem compatible (h : s.Fills t) : s.compatible t = true := by
  induction h with
  | hole t => rfl
  | same t => exact compatible_refl t
  | @number s t hs ht => cases s <;> cases t <;> first | rfl | contradiction
  | part hw _ ih => cases hw <;> exact ih

end Fills

theorem unify_isFaultless (h : s.unify t = some r) (hs : s.isFaultless = true) (ht : t.isFaultless = true) :
    r.isFaultless = true := by
  fun_induction unify s t generalizing r with
  | case1 | case2 | case9 => contradiction
  | case3 => exact Option.some.inj h ▸ ht
  | case4 => exact Option.some.inj h ▸ hs
  | case5 s t ih | case6 s t ih | case7 s t ih =>
    obtain ⟨c,hc,rfl⟩ := Option.map_eq_some_iff.mp h
    have hfaultless : c.isFaultless = true := ih hc hs ht
    exact hfaultless
  | case8 => exact Option.some.inj h ▸ hs

/-- The least type that says all that either of the two says. -/
def Least (s t r : Ty) : Prop := s.Fills r ∧ t.Fills r ∧ ∀ u, s.Fills u → t.Fills u → r.Fills u

theorem Least.part {w : Ty → Ty} (hw : Wraps w) (h : Least s t r) : Least (w s) (w t) (w r) := by
  obtain ⟨hsr,htr,hleast⟩ := h
  refine ⟨.part hw hsr,.part hw htr,fun u hu hu' => ?_⟩
  obtain ⟨v,rfl,hv⟩ := hu.of_part hw
  obtain ⟨v',heq,hv'⟩ := hu'.of_part hw
  obtain rfl : v = v' := by cases hw <;> cases heq <;> rfl
  exact .part hw (hleast v hv hv')

theorem unify_least (h : s.unify t = some r) (hs : s.isFaultless = true) (ht : t.isFaultless = true) :
    Least s t r := by
  fun_induction unify s t generalizing r with
  | case1 | case2 | case9 => contradiction
  | case3 t =>
    obtain rfl := Option.some.inj h
    exact ⟨.hole t,.same t,fun _ _ h => h⟩
  | case4 s =>
    obtain rfl := Option.some.inj h
    exact ⟨.same s,.hole s,fun _ h _ => h⟩
  | case5 s t ih | case6 s t ih | case7 s t ih =>
    obtain ⟨r,hr,rfl⟩ := Option.map_eq_some_iff.mp h
    exact .part (by constructor) (ih hr hs ht)
  | case8 s t _ _ _ _ _ _ _ hfit =>
    obtain rfl := Option.some.inj h
    have hts : t.Fills s := by
      simp only [Bool.or_eq_true, decide_eq_true_eq, Bool.and_eq_true] at hfit
      rcases hfit with rfl | ⟨hs,ht⟩
      · exact .same s
      · exact .number ht hs
    exact ⟨.same s,hts,fun _ h _ => h⟩

theorem compatible_of_isNumeric (hs : s.isNumeric = true) (ht : t.isNumeric = true) (u : Ty) :
    s.compatible u = t.compatible u := by
  cases s <;> cases t <;> first | contradiction | (cases u <;> rfl)

theorem compatible_unify (h : s.unify t = some r) (hs : s.isFaultless = true) (ht : t.isFaultless = true)
    (u : Ty) : r.compatible u = (s.compatible u && t.compatible u) := by
  fun_induction unify s t generalizing r u with
  | case1 | case2 | case9 => contradiction
  | case3 t =>
    obtain rfl := Option.some.inj h
    simp [compatible]
  | case4 s =>
    obtain rfl := Option.some.inj h
    simp [compatible]
  | case5 s t ih | case6 s t ih | case7 s t ih =>
    obtain ⟨r,hr,rfl⟩ := Option.map_eq_some_iff.mp h
    have hparts := ih hr hs ht
    cases u <;> simp_all [compatible, isNumeric]
  | case8 s t _ _ _ _ _ _ _ hfit =>
    obtain rfl := Option.some.inj h
    simp only [Bool.or_eq_true, decide_eq_true_eq, Bool.and_eq_true] at hfit
    rcases hfit with rfl | ⟨hs,ht⟩
    · simp
    · simp [compatible_of_isNumeric hs ht]

theorem foldlM_unify_least {common : Ty} {ts : List Ty} (h : ts.foldlM unify common = some r)
    (hc : common.isFaultless = true) (hts : ∀ t ∈ ts, t.isFaultless = true) :
    common.Fills r ∧ (∀ t ∈ ts, t.Fills r) ∧
      ∀ u, common.Fills u → (∀ t ∈ ts, t.Fills u) → r.Fills u := by
  induction ts generalizing common with
  | nil =>
    obtain rfl := Option.some.inj h
    exact ⟨.same _,by simp,fun _ h _ => h⟩
  | cons t ts ih =>
    obtain ⟨ht,hts⟩ := List.forall_mem_cons.mp hts
    rw [List.foldlM_cons] at h
    obtain ⟨c,hunify,h⟩ := Option.bind_eq_some_iff.mp h
    obtain ⟨hcr,htr,hleast⟩ := unify_least hunify hc ht
    obtain ⟨hcommon,hrest,hall⟩ := ih h (unify_isFaultless hunify hc ht) hts
    refine ⟨hcr.trans hcommon,List.forall_mem_cons.mpr ⟨htr.trans hcommon,hrest⟩,fun u hu hus => ?_⟩
    obtain ⟨htu,hus⟩ := List.forall_mem_cons.mp hus
    exact hall u (hleast u hu htu) hus

theorem foldlM_unify_isSome {common : Ty} {ts : List Ty} (hc : common.isFaultless = true)
    (hts : ∀ t ∈ ts, t.isFaultless = true) : (ts.foldlM unify common).isSome = true ↔
      (∀ t ∈ ts, common.compatible t = true) ∧ ∀ s ∈ ts, ∀ t ∈ ts, s.compatible t = true := by
  induction ts generalizing common with
  | nil => simp
  | cons t ts ih =>
    obtain ⟨ht,hts⟩ := List.forall_mem_cons.mp hts
    rw [List.foldlM_cons]
    cases hunify : common.unify t with
    | none =>
      have hfit : common.compatible t = false := by rw [← unify_isSome,hunify]; rfl
      simp [hfit]
    | some c =>
      have hfit : common.compatible t = true := by rw [← unify_isSome,hunify]; rfl
      have hcompat (u : Ty) := compatible_unify hunify hc ht u
      have hcomm (u : Ty) := compatible_comm u t
      simp only [Option.bind_eq_bind, Option.bind_some, ih (unify_isFaultless hunify hc ht) hts,
        List.forall_mem_cons, hfit, hcompat, hcomm, compatible_refl, Bool.and_eq_true, true_and]
      grind

theorem join_isSome {ts : List Ty} (hts : ∀ t ∈ ts, t.isFaultless = true) :
    (join ts).isSome = true ↔ ∀ s ∈ ts, ∀ t ∈ ts, s.compatible t = true := by
  rw [join,foldlM_unify_isSome rfl hts]
  simp [compatible]

theorem join_least {ts : List Ty} (h : join ts = some r) (hts : ∀ t ∈ ts, t.isFaultless = true) :
    (∀ t ∈ ts, t.Fills r) ∧ ∀ u, (∀ t ∈ ts, t.Fills u) → r.Fills u := by
  obtain ⟨-,hall,hleast⟩ := foldlM_unify_least h rfl hts
  exact ⟨hall,fun u => hleast u (.hole u)⟩

theorem ne_hole_of_hasHole (h : t.hasHole = false) : t ≠ hole := by
  rintro rfl
  cases h

end Ty

namespace Check

variable {env : Env} {s u : State} {common : Ty}

theorem ValuesAccepted.types_eq {es : List Expr} {rs : List Typed} (h : ValuesAccepted env s es rs u) :
    (rs.map (·.1)).map (·.type) = (rs.map (·.2)).map some := by
  induction es generalizing s rs with
  | nil =>
    cases h
    rfl
  | cons e es ih =>
    cases h with
    | cons he _ hes => exact congrArg₂ List.cons he.type_eq (ih hes)

theorem ArmsAccepted.foldlM {subject : Ty} {catchAll : Bool} {covered : List Cover} {as : List Arm}
    {r : List Arm × Ty × Bool × List Cover} (h : ArmsAccepted env s subject common catchAll covered as r u) :
    ∃ ts : List Ty, r.1.map (·.body.type) = ts.map some ∧ ts.foldlM Ty.unify common = some r.2.1 := by
  induction as generalizing s common catchAll covered r with
  | nil =>
    cases h
    exact ⟨[],rfl,rfl⟩
  | cons a as ih =>
    cases h with
    | cons hw hp he hc has =>
      obtain ⟨ts,hts,hjoin⟩ := ih has
      refine ⟨_ :: ts,congrArg₂ List.cons he.type_eq hts,?_⟩
      rw [List.foldlM_cons,hc]
      exact hjoin

theorem expr_array_join (n : Note) (es : List Expr) : Ends s (expr env (.array n es)) fun r _ =>
    ∃ (as : List Expr) (ts : List Ty) (t : Ty), r = (.array (n.typed (.array t)) as,.array t) ∧
      as.map (·.type) = ts.map some ∧ Ty.join ts = some t := by
  refine Ends.weaken (expr_accepts env _ s) fun r _ _ h => ?_
  cases h with
  | array hes hjoin => exact ⟨_,_,_,rfl,hes.types_eq,hjoin⟩

theorem expr_select_join (n : Note) (e : Expr) (as : List Arm) : Ends s (expr env (.select n e as)) fun r _ =>
    ∃ (a : Expr) (bs : List Arm) (ts : List Ty) (t : Ty), r = (.select (n.typed t) a bs,t) ∧
      bs.map (·.body.type) = ts.map some ∧ Ty.join ts = some t := by
  refine Ends.weaken (expr_accepts env _ s) fun r _ _ h => ?_
  cases h with
  | select _ _ _ has =>
    obtain ⟨ts,hts,hjoin⟩ := has.foldlM
    exact ⟨_,_,ts,_,rfl,hts,hjoin⟩

end Check

/-- Two types have a common one if and only if they fit each other, and so do the types of a list, in whatever
order. It is the same in every order but for the unit of its numbers; it fits each member, and is as settled
and as represented as each member that leaves nothing open. Accepted array literals and matches have the
common type of their parts. -/
theorem Ty.join_order_irrelevant :
    (∀ s t : Ty, s.isFaultless = true → t.isFaultless = true →
      ((s.unify t).isSome = true ↔ s.compatible t = true)) ∧
    (∀ ts : List Ty, (∀ t ∈ ts, t.isFaultless = true) →
      ((join ts).isSome = true ↔ ∀ s ∈ ts, ∀ t ∈ ts, s.compatible t = true) ∧
      (∀ us : List Ty, us.Perm ts → (join us).isSome = (join ts).isSome) ∧
      ∀ r, join ts = some r →
        (∀ us q, us.Perm ts → join us = some q → q.unitless = r.unitless) ∧
        (∀ t ∈ ts, r.compatible t = true) ∧
        (r.hasHole = true → ∀ t ∈ ts, t.hasHole = true) ∧
        ∀ t ∈ ts, t.hasHole = false → r.valType = t.valType) ∧
    ∀ (env : Check.Env) (s : Check.State) (n : Note),
      (∀ es, ((Check.expr env (.array n es)).run s).2.Clean → ∃ as ts t,
        ((Check.expr env (.array n es)).run s).1 = (.array (n.typed (.array t)) as,.array t) ∧
          as.map (·.type) = ts.map some ∧ join ts = some t) ∧
      ∀ e as, ((Check.expr env (.select n e as)).run s).2.Clean → ∃ a bs ts t,
        ((Check.expr env (.select n e as)).run s).1 = (.select (n.typed t) a bs,t) ∧
          bs.map (·.body.type) = ts.map some ∧ join ts = some t := by
  refine ⟨fun s t _ _ => by rw [unify_isSome],fun ts hts => ⟨join_isSome hts,fun us hperm => ?_,fun r hr => ?_⟩,
    fun env s n => ⟨fun es hc => (Check.expr_array_join n es hc).2,
      fun e as hc => (Check.expr_select_join n e as hc).2⟩⟩
  · have hus : ∀ t ∈ us, t.isFaultless = true := fun t ht => hts t (hperm.mem_iff.mp ht)
    rw [Bool.eq_iff_iff,join_isSome hus,join_isSome hts]
    simp only [hperm.mem_iff]
  · obtain ⟨hall,hleast⟩ := join_least hr hts
    refine ⟨fun us q hperm hq => ?_,fun t ht => ?_,fun hh t ht => (hall t ht).hasHole hh,
      fun t ht hh => ((hall t ht).valType_eq (ne_hole_of_hasHole hh)).symm⟩
    · have hus : ∀ t ∈ us, t.isFaultless = true := fun t ht => hts t (hperm.mem_iff.mp ht)
      obtain ⟨hall',hleast'⟩ := join_least hq hus
      exact (hleast' r fun t ht => hall t (hperm.mem_iff.mp ht)).unitless_eq
        (hleast q fun t ht => hall' t (hperm.mem_iff.mpr ht))
    · rw [compatible_comm]
      exact (hall t ht).compatible

/-- The order decides the unit, and only that. -/
theorem join_order_irrelevant_units :
    let ts : List Ty := [.array .hole, .array .mana, .array .integer]
    (∀ t ∈ ts, t.isFaultless = true) ∧ Ty.join ts = some (.array .mana) ∧
      Ty.join ts.reverse = some (.array .integer) ∧
      (Ty.array .integer).unitless = (Ty.array .mana).unitless ∧
      (∀ t ∈ ts, (Ty.array .mana).compatible t = true) := by
  intro ts
  have hts : ∀ t ∈ ts, t.isFaultless = true := by decide
  have hr : Ty.join ts = some (.array .mana) := by decide
  have hq : Ty.join ts.reverse = some (.array .integer) := by decide
  obtain ⟨hunit,hfit,-⟩ := (Ty.join_order_irrelevant.2.1 ts hts).2.2 _ hr
  exact ⟨hts,hr,hq,hunit _ _ ts.reverse_perm hq,hfit⟩

end Covenant
