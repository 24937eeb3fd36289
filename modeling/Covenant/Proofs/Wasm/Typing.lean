import Covenant.Proofs.Wasm.Stack

/-! Types of code. Code of type `ps → rs` takes operands `ps` and leaves `rs`, whatever lies below them.
Code that never goes on has every type. -/

namespace Covenant.Lower

open Wasm

namespace Stack

/-- A stack that can stand where another is expected: it is the same, or what is missing in it is taken
from below, where nothing is ever reached. -/
def Serves (s t : Stack) : Prop :=
  s = t ∨ (s.isDead = true ∧ s.vals <+: t.vals)

variable {s t u : Stack} {ts us : List ValType}

theorem Serves.refl (s : Stack) : s.Serves s := .inl rfl

theorem Serves.trans (h : s.Serves t) (h' : t.Serves u) : s.Serves u := by
  rcases h with rfl | ⟨hd,hp⟩
  · exact h'
  · rcases h' with rfl | ⟨-,hp'⟩
    · exact .inr ⟨hd,hp⟩
    · exact .inr ⟨hd,hp.trans hp'⟩

theorem dead_serves (s : Stack) : dead.Serves s := .inr ⟨rfl, List.nil_prefix⟩

theorem Serves.popIf {fits : ValType → Bool} (h : s.Serves t) (ht : t.popIf fits = some u) :
    ∃ v, s.popIf fits = some v ∧ v.Serves u := by
  rcases h with rfl | ⟨hd,hp⟩
  · exact ⟨u,ht,.refl u⟩
  · obtain ⟨vals,d⟩ := s
    obtain ⟨wals,e⟩ := t
    cases hd
    cases vals with
    | nil => exact ⟨⟨[],true⟩,rfl,.inr ⟨rfl, List.nil_prefix⟩⟩
    | cons x xs =>
      cases wals with
      | nil => exact absurd hp (by simp)
      | cons y ys =>
        obtain ⟨rfl,hxs⟩ := List.cons_prefix_cons.mp hp
        obtain ⟨hfits,heq⟩ := Option.ite_none_right_eq_some.mp ht
        cases heq
        exact ⟨⟨xs,true⟩,if_pos hfits,.inr ⟨rfl,hxs⟩⟩

theorem Serves.pops (h : s.Serves t) (ht : t.pops ts = some u) :
    ∃ v, s.pops ts = some v ∧ v.Serves u := by
  induction ts generalizing u with
  | nil =>
    cases ht
    exact ⟨s,rfl,h⟩
  | cons x xs ih =>
    obtain ⟨w,hw,hpop⟩ := Option.bind_eq_some_iff.mp ht
    obtain ⟨v,hv,hvw⟩ := ih hw
    obtain ⟨v',hv',hserves⟩ := hvw.popIf hpop
    exact ⟨v',Option.bind_eq_some_iff.mpr ⟨v,hv,hv'⟩,hserves⟩

theorem Serves.push (h : s.Serves t) (ts : List ValType) : (s.push ts).Serves (t.push ts) := by
  rcases h with rfl | ⟨hd,hp⟩
  · exact .refl _
  · exact .inr ⟨hd,(List.prefix_append_right_inj _).mpr hp⟩

theorem Serves.apply {f : FuncType} (h : s.Serves t) (ht : t.apply f = some u) :
    ∃ v, s.apply f = some v ∧ v.Serves u := by
  obtain ⟨w,hw,rfl⟩ := Option.map_eq_some_iff.mp ht
  obtain ⟨v,hv,hserves⟩ := h.pops hw
  exact ⟨v.push f.results,Option.map_eq_some_iff.mpr ⟨v,hv,rfl⟩,hserves.push _⟩

theorem Serves.closes (h : s.Serves t) (ht : t.closes ts = true) : s.closes ts = true := by
  obtain ⟨u,hu,hnil⟩ := (Option.any_eq_true _ _).mp ht
  obtain ⟨v,hv,hserves⟩ := h.pops hu
  refine (Option.any_eq_true _ _).mpr ⟨v,hv,?_⟩
  rcases hserves with rfl | ⟨-,hp⟩
  · exact hnil
  · rw [List.isEmpty_iff] at hnil ⊢
    rw [hnil] at hp
    exact List.prefix_nil.mp hp

theorem push_push (s : Stack) (ts us : List ValType) : (s.push ts).push us = s.push (ts ++ us) := by
  simp [push]

theorem pops_push (s : Stack) (ts : List ValType) : (s.push ts).pops ts = some s := by
  induction ts generalizing s with
  | nil => rfl
  | cons t ts ih =>
    have hpush : s.push (t :: ts) = (s.push [t]).push ts := (push_push s [t] ts).symm
    rw [hpush,Stack.pops,ih]
    exact if_pos (decide_eq_true rfl)

theorem apply_push (s : Stack) (ps rs : List ValType) :
    (s.push ps).apply ⟨ps, rs⟩ = some (s.push rs) := by
  rw [apply,pops_push]
  rfl

theorem closes_push (ts : List ValType) : (empty.push ts).closes ts = true := by
  rw [closes,pops_push]
  rfl

end Stack

variable {E : BodyScope} {L : List (List ValType)} {s t u : Stack}

theorem checkOp_serves {o : Op} (h : s.Serves t) (ht : checkOp E L o t = some u) :
    ∃ v, checkOp E L o s = some v ∧ v.Serves u := by
  cases o with
  | unreachable => exact ⟨.dead,rfl,Stack.dead_serves u⟩
  | br n =>
    obtain ⟨l,hl,hpops⟩ := Option.bind_eq_some_iff.mp ht
    obtain ⟨w,hw,rfl⟩ := Option.map_eq_some_iff.mp hpops
    obtain ⟨v,hv,-⟩ := h.pops hw
    refine ⟨.dead,?_,.refl _⟩
    exact Option.bind_eq_some_iff.mpr ⟨l,hl,Option.map_eq_some_iff.mpr ⟨v,hv,rfl⟩⟩
  | brIf n =>
    obtain ⟨w,hw,hrest⟩ := Option.bind_eq_some_iff.mp ht
    obtain ⟨l,hl,happly⟩ := Option.bind_eq_some_iff.mp hrest
    obtain ⟨v,hv,hserves⟩ := h.popIf hw
    obtain ⟨v',hv',hserves'⟩ := hserves.apply happly
    refine ⟨v',?_,hserves'⟩
    exact Option.bind_eq_some_iff.mpr ⟨v,hv,Option.bind_eq_some_iff.mpr ⟨l,hl,hv'⟩⟩
  | ret =>
    obtain ⟨w,hw,rfl⟩ := Option.map_eq_some_iff.mp ht
    obtain ⟨v,hv,-⟩ := h.pops hw
    exact ⟨.dead,Option.map_eq_some_iff.mpr ⟨v,hv,rfl⟩,.refl _⟩
  | drop => exact h.popIf ht
  | i32Const v => exact h.apply (f := ⟨[], [.i32]⟩) ht
  | i64Const v => exact h.apply (f := ⟨[], [.i64]⟩) ht
  | num o => exact h.apply (f := o.type) ht
  | _ =>
    obtain ⟨f,hf,happly⟩ := Option.bind_eq_some_iff.mp ht
    obtain ⟨v,hv,hserves⟩ := h.apply happly
    exact ⟨v,Option.bind_eq_some_iff.mpr ⟨f,hf,hv⟩,hserves⟩

theorem check_serves {i : Instr} (h : s.Serves t) (ht : check E L i t = some u) :
    ∃ v, check E L i s = some v ∧ v.Serves u := by
  cases i with
  | op o => exact checkOp_serves h ht
  | routine r => exact h.apply ht
  | block ty b =>
    obtain ⟨hb,heq⟩ := Option.ite_none_right_eq_some.mp ht
    cases heq
    exact ⟨s.push ty.toList,if_pos hb,h.push _⟩
  | loop ty b =>
    obtain ⟨hb,heq⟩ := Option.ite_none_right_eq_some.mp ht
    cases heq
    exact ⟨s.push ty.toList,if_pos hb,h.push _⟩
  | cond ty y n =>
    cases n with
    | none =>
      obtain ⟨w,hw,hite⟩ := Option.bind_eq_some_iff.mp ht
      obtain ⟨hy,heq⟩ := Option.ite_none_right_eq_some.mp hite
      cases heq
      obtain ⟨v,hv,hserves⟩ := h.popIf hw
      exact ⟨v,Option.bind_eq_some_iff.mpr ⟨v,hv,if_pos hy⟩,hserves⟩
    | some n =>
      obtain ⟨w,hw,hite⟩ := Option.bind_eq_some_iff.mp ht
      obtain ⟨hy,heq⟩ := Option.ite_none_right_eq_some.mp hite
      cases heq
      obtain ⟨v,hv,hserves⟩ := h.popIf hw
      exact ⟨v.push ty.toList,Option.bind_eq_some_iff.mpr ⟨v,hv,if_pos hy⟩,hserves.push _⟩

theorem checkAll_serves {is : List Instr} (h : s.Serves t) (ht : checkAll E L is t = some u) :
    ∃ v, checkAll E L is s = some v ∧ v.Serves u := by
  induction is generalizing s t with
  | nil =>
    cases ht
    exact ⟨s,rfl,h⟩
  | cons i is ih =>
    obtain ⟨w,hw,hrest⟩ := Option.bind_eq_some_iff.mp ht
    obtain ⟨v,hv,hserves⟩ := check_serves h hw
    obtain ⟨v',hv',hserves'⟩ := ih hserves hrest
    exact ⟨v',Option.bind_eq_some_iff.mpr ⟨v,hv,hv'⟩,hserves'⟩

theorem checkAll_append (is js : List Instr) (s : Stack) :
    checkAll E L (is ++ js) s = (checkAll E L is s).bind (checkAll E L js) := by
  induction is generalizing s with
  | nil => rfl
  | cons i is ih =>
    show (check E L i s).bind _ = ((check E L i s).bind _).bind _
    rw [Option.bind_assoc]
    exact congrArg _ (funext fun s => ih s)

def Typed (E : BodyScope) (L : List (List ValType)) (is : List Instr) (ps rs : List ValType) : Prop :=
  ∀ s : Stack, ∃ u, checkAll E L is (s.push ps) = some u ∧ u.Serves (s.push rs)

def Stops (E : BodyScope) (L : List (List ValType)) (is : List Instr) : Prop :=
  ∀ ps rs, Typed E L is ps rs

namespace Typed

variable {is js : List Instr} {ps qs rs : List ValType}

theorem nil : Typed E L [] ps ps := fun s => ⟨s.push ps,rfl,.refl _⟩

theorem append (hi : Typed E L is ps qs) (hj : Typed E L js qs rs) : Typed E L (is ++ js) ps rs := by
  intro s
  obtain ⟨u,hu,hserves⟩ := hi s
  obtain ⟨v,hv,hserves'⟩ := hj s
  obtain ⟨v',hv',hserves''⟩ := checkAll_serves hserves hv
  refine ⟨v',?_,hserves''.trans hserves'⟩
  rw [checkAll_append,hu]
  exact hv'

theorem frame (h : Typed E L is ps rs) (qs : List ValType) : Typed E L is (qs ++ ps) (qs ++ rs) := by
  intro s
  obtain ⟨u,hu,hserves⟩ := h (s.push qs)
  rw [Stack.push_push] at hu hserves
  exact ⟨u,hu,hserves⟩

theorem of_check {i : Instr} (h : ∀ s : Stack, check E L i (s.push ps) = some (s.push rs)) :
    Typed E L [i] ps rs := by
  intro s
  refine ⟨s.push rs,?_,.refl _⟩
  show (check E L i (s.push ps)).bind some = _
  rw [h]
  rfl

theorem cons {i : Instr} (hi : Typed E L [i] ps qs) (his : Typed E L is qs rs) :
    Typed E L (i :: is) ps rs := append hi his

theorem closes {ts : List ValType} (h : Typed E L is [] ts) :
    (checkAll E L is .empty).any (·.closes ts) = true := by
  obtain ⟨u,hu,hserves⟩ := h .empty
  exact (Option.any_eq_true _ _).mpr ⟨u,hu,hserves.closes (Stack.closes_push ts)⟩

theorem op {o : Op} (h : o.type? E = some ⟨ps, rs⟩) : Typed E L [.op o] ps rs := by
  refine of_check fun s => ?_
  have hcheck : checkOp E L o (s.push ps) = (o.type? E).bind fun t => (s.push ps).apply t := by
    cases o <;> first | rfl | cases h
  show checkOp E L o _ = _
  rw [hcheck,h]
  exact Stack.apply_push s ps rs

theorem routine (r : Routine) : Typed E L [.routine r] r.type.params r.type.results :=
  of_check fun s => Stack.apply_push s _ _

theorem drop (t : ValType) : Typed E L [.op .drop] [t] [] := of_check fun _ => rfl

theorem block {b : BlockType} (h : Typed E (b.toList :: L) is [] b.toList) :
    Typed E L [.block b is] [] b.toList :=
  of_check fun _ => if_pos h.closes

theorem loop {b : BlockType} (h : Typed E ([] :: L) is [] b.toList) :
    Typed E L [.loop b is] [] b.toList :=
  of_check fun _ => if_pos h.closes

theorem cond {b : BlockType} (hi : Typed E (b.toList :: L) is [] b.toList)
    (hj : Typed E (b.toList :: L) js [] b.toList) :
    Typed E L [.cond b is (some js)] [.i32] b.toList :=
  of_check fun _ => if_pos ⟨hi.closes,hj.closes⟩

theorem when (hi : Typed E ([] :: L) is [] []) : Typed E L [.cond none is none] [.i32] [] :=
  of_check fun _ => if_pos ⟨hi.closes,rfl⟩

theorem brIf {n : Nat} (h : L[n]? = some []) : Typed E L [.op (.brIf n)] [.i32] [] := by
  refine of_check fun s => ?_
  show ((s.push [.i32]).pop .i32).bind (fun s => L[n]?.bind fun l => s.apply ⟨l, l⟩) = _
  rw [h]
  rfl

end Typed

namespace Stops

variable {is js : List Instr} {ps rs : List ValType}

theorem trap : Stops E L [.trap] := fun _ _ _ => ⟨.dead,rfl,Stack.dead_serves _⟩

theorem br {n : Nat} (h : L[n]? = some []) : Stops E L [.op (.br n)] := by
  intro ps rs s
  refine ⟨.dead,?_,Stack.dead_serves _⟩
  show (L[n]?.bind fun l => ((s.push ps).pops l).map fun _ => Stack.dead).bind some = _
  rw [h]
  rfl

theorem ret (h : Typed E L is [] E.results) : Stops E L (is ++ [Instr.op .ret]) := by
  intro ps rs
  have hret : Typed E L [.op .ret] (ps ++ E.results) rs := by
    intro s
    refine ⟨.dead,?_,Stack.dead_serves _⟩
    show (((s.push (ps ++ E.results)).pops E.results).map fun _ => Stack.dead).bind some = _
    rw [← Stack.push_push,Stack.pops_push]
    rfl
  have his := h.frame ps
  rw [List.append_nil] at his
  exact his.append hret

/-- Nothing is reached after code that has stopped, if what follows is well-typed. -/
theorem append {qs : List ValType} (hi : Stops E L is) (hj : Typed E L js qs []) :
    Stops E L (is ++ js) := by
  intro ps rs
  have hframe := hj.frame rs
  rw [List.append_nil] at hframe
  exact (hi ps (rs ++ qs)).append hframe

theorem prepend (hi : Typed E L is [] []) (hj : Stops E L js) : Stops E L (is ++ js) := by
  intro ps rs
  have hframe := hi.frame ps
  rw [List.append_nil] at hframe
  exact hframe.append (hj ps rs)

end Stops

end Covenant.Lower
