import Covenant.Proofs.Typing.Rules

/-! Reasoning about checks. Problems are only ever added, so a check that ends without any was without
any all the way; what is known of an earlier point may then be used at the end. Every name in scope has a slot of its
type or is a constant, and slots are only ever added. -/

namespace Covenant

namespace Check

variable {α β : Type}

def State.Clean (s : State) : Prop := s.errors = [] ∧ s.strayReturn = false

/-- If nothing is found by the end of a check, then nothing was found before it, and it ends as
stated. -/
def Ends (s : State) (m : Checking α) (Q : α → State → Prop) : Prop :=
  (m.run s).2.Clean → s.Clean ∧ Q (m.run s).1 (m.run s).2

namespace Ends

variable {s : State} {m : Checking α} {f : α → Checking β} {Q R : α → State → Prop}
  {T : β → State → Prop}

protected theorem pure {a : α} (h : s.Clean → Q a s) : Ends s (pure a) Q :=
  fun hc => ⟨hc,h hc⟩

protected theorem bind (hm : Ends s m Q)
    (hf : ∀ a t, (t.Clean → s.Clean ∧ Q a t) → Ends t (f a) T) : Ends s (m >>= f) T := by
  intro hc
  obtain ⟨ht,hT⟩ := hf (m.run s).1 (m.run s).2 hm hc
  exact ⟨(hm ht).1,hT⟩

protected theorem and (hm : Ends s m Q) (hm' : Ends s m R) : Ends s m fun a t => Q a t ∧ R a t :=
  fun hc => ⟨(hm hc).1,(hm hc).2,(hm' hc).2⟩

theorem weaken (hm : Ends s m Q) (h : ∀ a t, s.Clean → Q a t → R a t) : Ends s m R := by
  intro hc
  obtain ⟨hs,hQ⟩ := hm hc
  exact ⟨hs,h _ _ hs hQ⟩


end Ends

section Steps

variable {s : State} {Q : α → State → Prop} {T : Ty → State → Prop}

theorem report_ends (p : Problem) (pos : Pos) : Ends s (report p pos) T := by
  intro hc
  have hne : (s.errors ++ [⟨p,pos⟩] : List Diagnostic) = [] := hc.1
  simp at hne

theorem report_map_ends (p : Problem) (pos : Pos) (f : Ty → α) :
    Ends s (do return f (← report p pos)) Q := by
  refine .bind (report_ends (T := fun _ _ => False) p pos) fun _ _ h => ?_
  exact .pure fun hc => (h hc).2.elim

theorem reportIf_ends (bad : Bool) (p : Problem) (pos : Pos) :
    Ends s (reportIf bad p pos) fun _ t => t = s ∧ bad = false := by
  cases bad with
  | false => exact .pure fun _ => ⟨rfl,rfl⟩
  | true => exact report_map_ends p pos fun _ => ()

theorem reportIf_true_ends (p : Problem) (pos : Pos) (a : α) :
    Ends s (do reportIf true p pos; return a) Q := by
  refine .bind (reportIf_ends true p pos) fun _ t h => .pure fun hc => ?_
  cases (h hc).2.2

theorem warn_ends (c : Caution) (pos : Pos) :
    Ends s (warn c pos) fun _ t => t.scope = s.scope ∧ t.loops = s.loops :=
  fun hc => ⟨hc,rfl,rfl⟩

theorem lookup_ends (x : String) :
    Ends s (lookup x) fun r t => t = s ∧ r = s.scope.get? x :=
  fun hc => ⟨hc,rfl,rfl⟩

theorem declare_ends (x : String) (t : Ty) (k : SymbolKind) (b : Bool) :
    Ends s (declare x t k b) fun r u => r.slot = some s.scope.slots.length ∧
      u = { s with scope := (s.scope.declare x t k b).2 } :=
  fun hc => ⟨hc,rfl,rfl⟩

theorem inFrame_ends {m : Checking α} {nested : Bool}
    (h : Ends { s with scope := s.scope.push nested } m Q) :
    Ends s (inFrame nested m) fun a t => ∃ u, Q a u ∧ t = { u with scope := u.scope.pop } := by
  intro hc
  obtain ⟨hs,hQ⟩ := h hc
  exact ⟨hs,_,hQ,rfl⟩

theorem inLoop_ends {m : Checking α} (h : Ends { s with loops := false :: s.loops } m Q) :
    Ends s (inLoop m) fun r t => ∃ u, Q r.1 u ∧ t = { u with loops := u.loops.tail } := by
  intro hc
  obtain ⟨hs,hQ⟩ := h hc
  exact ⟨hs,_,hQ,rfl⟩

theorem typeOr_ends (r : Option Ty) (p : Problem) (pos : Pos) :
    Ends s (typeOr r p pos) fun t u => u = s ∧ r = some t := by
  cases r with
  | none => exact report_ends p pos
  | some t => exact .pure fun _ => ⟨rfl,rfl⟩

theorem builtinResult_ends (b : Builtin) (ts : List Ty) (pos : Pos) :
    Ends s (builtinResult b ts pos) fun t u => u = s ∧ b.result ts = .ok t := by
  unfold builtinResult
  cases b.result ts with
  | error p => exact report_ends p pos
  | ok t => exact .pure fun _ => ⟨rfl,rfl⟩

theorem resolveType_ends (env : Env) (t : Ty) (pos : Pos) :
    Ends s (resolveType env t pos) fun u v => v = s ∧ env.resolve t = .ok u := by
  unfold resolveType
  cases env.resolve t with
  | error n => exact report_ends _ pos
  | ok u => exact .pure fun _ => ⟨rfl,rfl⟩

theorem needValue_ends {m : Checking Typed} {Q : Typed → State → Prop} (pos : Pos)
    (h : Ends s m Q) : Ends s (needValue pos m) fun r t => Q r t ∧ r.2 ≠ .void := by
  refine .bind h fun ⟨e,t⟩ u hu => ?_
  dsimp only
  by_cases ht : t = .void
  · rw [if_pos ht]
    exact report_map_ends _ _ fun t => (e,t)
  · rw [if_neg ht]
    exact .pure fun hc => ⟨(hu hc).2,ht⟩

theorem reportHiding_ends (env : Env) (w : Keyword) (x : String) (pos : Pos) :
    Ends s (reportHiding env w x pos) fun _ t => t.scope = s.scope ∧ t.loops = s.loops := by
  refine .bind (Q := fun _ t => t = s) (fun hc => ⟨hc,rfl⟩) fun a t h => ?_
  have hsame : t.Clean → t.scope = s.scope ∧ t.loops = s.loops := by
    intro hc
    rw [(h hc).2]
    exact ⟨rfl,rfl⟩
  dsimp only
  split
  · cases env.policy with
    | allow => exact .pure hsame
    | warn =>
      refine Ends.weaken (warn_ends _ pos) fun _ u hc hu => ?_
      exact ⟨hu.1.trans (hsame hc).1,hu.2.trans (hsame hc).2⟩
    | error => exact report_map_ends _ pos fun _ => ()
  · exact .pure hsame

end Steps

theorem ctorIdx_bind {α : Type} {m : Checking α} {f : α → Checking Typed} {k : Nat}
    (h : ∀ a t, ((f a).run t).1.1.ctorIdx = k) (s : State) : ((m >>= f).run s).1.1.ctorIdx = k :=
  h _ _

theorem expr_ctorIdx (env : Env) (e : Expr) (s : State) : ((expr env e).run s).1.1.ctorIdx = e.ctorIdx := by
  cases e with
  | block n ss tail d => cases tail <;> rw [expr] <;> rfl
  | _ =>
    rw [expr]
    repeat first
      | (refine ctorIdx_bind (fun _ _ => ?_) _; try dsimp only)
      | split
      | rfl

theorem stmt_assign_eq (env : Env) (pos : Pos) {a e : Expr} (h : a.isName = false) :
    stmt env (.assign pos a e) = (do
      let (a',u) ← expr env a
      let (e',t) ← needValue e.pos (expr env e)
      reportIf (!u.compatible t) (.assignedType u t) e.pos
      return (.assign pos a' e',false)) := by
  rw [stmt]
  rintro n x old rfl
  cases h

end Check

theorem getElem?_of_initial {α : Type} {xs ys : List α} {i : Nat} {a : α} (hp : xs <+: ys)
    (h : xs[i]? = some a) : ys[i]? = some a := by
  obtain ⟨hi,-⟩ := List.getElem?_eq_some_iff.mp h
  rw [← h]
  exact (List.prefix_iff_getElem?.mp hp i hi).trans (List.getElem?_eq_getElem hi).symm

theorem Symbol.IsVariable.mono {slots more : List Ty} {x : Symbol} (h : x.IsVariable slots)
    (hp : slots <+: more) : x.IsVariable more := by
  obtain ⟨hk,i,hi,ht⟩ := h
  exact ⟨hk,i,hi,getElem?_of_initial hp ht⟩

namespace Check

/-- The names in scope are what they are said to be. -/
structure Good (strict : Prop) (env : Env) (c : Scope) : Prop where
  frames : ∀ f ∈ c.frames, ∀ x ∈ f.symbols, x.IsVariable c.slots ∧ (strict → x.type.isSolid = true)
  globals : ∀ x ∈ c.globals, x.IsConstant env strict ∧ (strict → x.type.isSolid = true)

namespace Good

variable {strict : Prop} {env : Env} {c : Scope}

theorem push (h : Good strict env c) (nested : Bool) : Good strict env (c.push nested) := by
  refine ⟨?_,h.globals⟩
  rintro f hf x hx
  rcases List.mem_cons.mp hf with rfl | hf
  · cases hx
  · exact h.frames f hf x hx

theorem pop (h : Good strict env c) : Good strict env c.pop :=
  ⟨fun f hf => h.frames f (List.mem_of_mem_tail hf),h.globals⟩

theorem declare (h : Good strict env c) (x : String) {t : Ty} {k : SymbolKind} (b : Bool)
    (hk : k ≠ .constant) (ht : strict → t.isSolid = true) :
    Good strict env (c.declare x t k b).2 := by
  have hp : c.slots <+: c.slots ++ [t] := List.prefix_append _ _
  have hnew : Symbol.IsVariable (c.slots ++ [t]) ⟨x,t,b,k,some c.slots.length,none⟩ :=
    ⟨hk,c.slots.length,rfl,by simp⟩
  refine ⟨?_,h.globals⟩
  intro f hf y hy
  simp only [Scope.declare, Scope.allocate] at hf ⊢
  cases hfs : c.frames with
  | nil => simp [hfs] at hf
  | cons g gs =>
    rw [hfs] at hf
    have hold : ∀ f' ∈ g :: gs, y ∈ f'.symbols →
        y.IsVariable (c.slots ++ [t]) ∧ (strict → y.type.isSolid = true) := by
      intro f' hf' hy'
      obtain ⟨hv,hsolid⟩ := h.frames f' (hfs ▸ hf') y hy'
      exact ⟨hv.mono hp,hsolid⟩
    rcases List.mem_cons.mp hf with rfl | hf
    · rcases List.mem_cons.mp hy with rfl | hy
      · exact ⟨hnew,ht⟩
      · exact hold g (by simp) hy
    · exact hold f (by simp [hf]) hy

theorem get? (h : Good strict env c) {n : String} {x : Symbol} (hx : c.get? n = some x) :
    (x.IsVariable c.slots ∨ x.IsConstant env strict) ∧ (strict → x.type.isSolid = true) := by
  simp only [Scope.get?, Option.orElse_eq_orElse, Option.orElse_eq_or] at hx
  rcases Option.or_eq_some_iff.mp hx with hf | ⟨-,hg⟩
  · obtain ⟨f,hf,hx⟩ := List.exists_of_findSome?_eq_some hf
    obtain ⟨hv,hs⟩ := h.frames f hf x (List.mem_of_find?_eq_some hx)
    exact ⟨.inl hv,hs⟩
  · obtain ⟨hc,hs⟩ := h.globals x (List.mem_of_find?_eq_some hg)
    exact ⟨.inr hc,hs⟩

end Good

/-- A later state of checking in the same function. -/
structure Leads (s t : State) : Prop where
  globals : t.scope.globals = s.scope.globals
  slots : s.scope.slots <+: t.scope.slots
  loops : t.loops.length = s.loops.length

namespace Leads

variable {s t u : State}

theorem refl (s : State) : Leads s s := ⟨rfl,List.prefix_rfl,rfl⟩

theorem trans (h : Leads s t) (h' : Leads t u) : Leads s u :=
  ⟨h'.globals.trans h.globals,h.slots.trans h'.slots,h'.loops.trans h.loops⟩

theorem of_same (hs : t.scope = s.scope) (hl : t.loops = s.loops) : Leads s t := by
  obtain ⟨scope,errors,warnings,loops,stray⟩ := t
  obtain rfl : scope = s.scope := hs
  obtain rfl : loops = s.loops := hl
  exact ⟨rfl,List.prefix_rfl,rfl⟩

theorem isEmpty (h : Leads s t) : t.loops.isEmpty = s.loops.isEmpty := by
  have hl := h.loops
  cases hs : s.loops <;> cases ht : t.loops <;> simp_all

end Leads

end Check

end Covenant
