import Covenant.Proofs.Typing.Forms
import Covenant.Proofs.Typing.Functions

/-! What checking makes sure of beyond the types of nodes: the patterns of a match leave no value out, a
declared type has been resolved, and a `let` without one takes a type that is settled. -/

namespace Covenant

namespace Typing

/-- Some pattern takes every value, or the patterns together are all there are for a type. -/
def Covers (env : Check.Env) (subject : Ty) (ps : List PatternForm) : Prop :=
  (∃ p ∈ ps, p.isCatchAll = true) ∨
    Check.isExhaustive env subject (ps.filterMap Check.Cover.ofPattern?) = true

/-- What holds of a match and of a `let` in a checked tree. -/
def ensured (env : Check.Env) (T : Ty → Bool) : Rule where
  expr e := match e with
    | .select _ e as => ∀ t, e.type = some t → t ≠ .error → Covers env t (as.map (·.pattern.form))
    | _ => True
  stmt _ s := match s with
    | .bind _ _ (some u) _ _ => env.Resolved T u
    | .bind _ _ none e _ => ∀ t, e.type = some t → t.hasHole = false
    | _ => True
  guard _ := True

end Typing

namespace Check

open Typing

theorem isExhaustive_mono {env : Env} {t : Ty} {cs ds : List Cover} (h : ∀ c ∈ cs, c ∈ ds)
    (hcs : isExhaustive env t cs = true) : isExhaustive env t ds = true := by
  have hmem (c : Cover) (hc : cs.contains c = true) : ds.contains c = true := by
    rw [List.contains_iff_mem] at hc ⊢
    exact h c hc
  cases t with
  | boolean | option | result =>
    simp only [isExhaustive, Bool.and_eq_true] at hcs ⊢
    exact ⟨hmem _ hcs.1,hmem _ hcs.2⟩
  | enum n =>
    simp only [isExhaustive] at hcs ⊢
    split at hcs
    · simp only [List.all_eq_true] at hcs ⊢
      exact fun v hv => hmem _ (hcs v hv)
    · cases hcs
  | _ => cases hcs

theorem isCatchAll_setBinder (p : PatternForm) (b : Binder) : (p.setBinder b).isCatchAll = p.isCatchAll := by
  cases p <;> rfl

theorem ofPattern?_setBinder (p : PatternForm) (b : Binder) :
    Cover.ofPattern? (p.setBinder b) = Cover.ofPattern? p := by
  cases p <;> rfl

variable {env : Env} {T : Ty → Bool} {s u : State}

theorem PatternAccepted.form_eq {t : Ty} {p q : Pattern} (h : PatternAccepted env t s p q u) :
    q.form.isCatchAll = p.form.isCatchAll ∧ Cover.ofPattern? q.form = Cover.ofPattern? p.form := by
  cases h with
  | plain => exact ⟨rfl,rfl⟩
  | binds => exact ⟨isCatchAll_setBinder _ _,ofPattern?_setBinder _ _⟩

theorem ArmsAccepted.covers {t common : Ty} {catchAll : Bool} {covered : List Cover} {as : List Arm}
    {r : List Arm × Ty × Bool × List Cover} (h : ArmsAccepted env s t common catchAll covered as r u) :
    (r.2.2.1 = true → catchAll = true ∨ ∃ p ∈ r.1.map (·.pattern.form), p.isCatchAll = true) ∧
      ∀ c ∈ r.2.2.2, c ∈ covered ∨ c ∈ (r.1.map (·.pattern.form)).filterMap Cover.ofPattern? := by
  induction as generalizing s common catchAll covered r with
  | nil =>
    cases h
    exact ⟨.inl,fun _ => .inl⟩
  | cons a as ih =>
    obtain _ | ⟨-,hp,-,-,has⟩ := h
    obtain ⟨hcatch,hcovered⟩ := ih has
    obtain ⟨hall,hcover⟩ := hp.form_eq
    refine ⟨fun h => ?_,fun c h => ?_⟩
    · rcases hcatch h with h | ⟨p',hp',hall'⟩
      · rcases Bool.or_eq_true_iff.mp h with h | h
        · exact .inl h
        · exact .inr ⟨_,.head _,hall.trans h⟩
      · exact .inr ⟨p',.tail _ hp',hall'⟩
    · rw [List.mem_filterMap]
      rcases hcovered c h with h | h
      · rcases List.mem_append.mp h with h | h
        · exact .inr ⟨_,.head _,hcover.trans (Option.mem_toList.mp h)⟩
        · exact .inl h
      · obtain ⟨p',hp',hc⟩ := List.mem_filterMap.mp h
        exact .inr ⟨p',.tail _ hp',hc⟩

theorem covers_of_arms {t : Ty} {as : List Arm} {r : List Arm × Ty × Bool × List Cover} (ht : t ≠ .error)
    (h : ArmsAccepted env s t .hole false [] as r u)
    (hall : t = .error ∨ r.2.2.1 = true ∨ isExhaustive env t r.2.2.2 = true) :
    Covers env t (r.1.map (·.pattern.form)) := by
  obtain ⟨hcatch,hcovered⟩ := h.covers
  rcases hall.resolve_left ht with hall | hall
  · exact .inl ((hcatch hall).resolve_left (by simp))
  · exact .inr (isExhaustive_mono (fun c hc => (hcovered c hc).resolve_left (by simp)) hall)

theorem bind_ensured {pos : Pos} {x : String} {d d' : Option Ty} {e a : Expr} {t t' : Ty} {slot slot' : Option Nat}
    {l m : Bool} (h : (Stmt.bind pos x d e slot).Every (formed T) l)
    (hd : letType env pos x d (a,t) = pure (d',t')) (ha : a.type = some t) :
    (ensured env T).stmt m (.bind pos x d' a slot') := by
  cases letType_fits hd with
  | declared hr => exact ⟨_,h.1,hr⟩
  | inferred hhole =>
    intro u hu
    obtain rfl := Option.some.inj (ha.symm.trans hu)
    exact hhole

mutual

theorem ExprAccepted.ensured {s u : State} (h : ExprAccepted env s e r u) (he : e.Every (formed T) l) (m : Bool) :
    r.1.Every (ensured env T) m := by
  cases h with
  | int | bool | text | noneLit | name | enum => trivial
  | unary h | field h | wrap h => exact ⟨trivial,h.ensured he.2 m⟩
  | binary h _ h' | index h _ h' => exact ⟨trivial,h.ensured he.2.1 m,h'.ensured he.2.2 m⟩
  | user _ h | builtin _ _ h | host _ _ _ h | array h | record _ h => exact ⟨trivial,h.ensured he.2 m⟩
  | method h _ h' | methodLost h h' => exact ⟨trivial,h.ensured he.2.1 m,h'.ensured he.2.2 m⟩
  | select h _ _ h' hall =>
    refine ⟨fun t ht hne => ?_,h.ensured he.2.1 m,h'.ensured he.2.2 m⟩
    obtain rfl := Option.some.inj (h.type_eq.symm.trans ht)
    exact covers_of_arms hne h' hall
  | unit h => exact ⟨trivial,h.ensured he.2 m⟩
  | value h h' => exact ⟨trivial,h.ensured he.2.1 m,h'.ensured he.2.2 m⟩

theorem ValuesAccepted.ensured {s u : State} (h : ValuesAccepted env s es rs u) (hes : Expr.EveryIn (formed T) l es)
    (m : Bool) :
    Expr.EveryIn (ensured env T) m (rs.map (·.1)) := by
  cases h with
  | nil => trivial
  | cons h _ h' => exact ⟨h.ensured hes.1 m,h'.ensured hes.2 m⟩

theorem InitsAccepted.ensured {s u : State} (h : InitsAccepted env s d seen fs r u)
    (hfs : FieldInit.EveryIn (formed T) l fs) (m : Bool) :
    FieldInit.EveryIn (ensured env T) m r.1 := by
  cases h with
  | nil => trivial
  | cons h _ _ _ _ h' => exact ⟨h.ensured hfs.1 m,h'.ensured hfs.2 m⟩

theorem ArmsAccepted.ensured {s u : State} (h : ArmsAccepted env s t common catchAll covered as r u)
    (has : Arm.EveryIn (formed T) l as) (m : Bool) :
    Arm.EveryIn (ensured env T) m r.1 := by
  cases h with
  | nil => trivial
  | cons _ _ h _ h' => exact ⟨h.ensured has.1 m,h'.ensured has.2 m⟩

theorem StmtAccepted.ensured {s u : State} (h : StmtAccepted env s x r u) (hx : x.Every (formed T) l) (m : Bool) :
    r.1.Every (ensured env T) m := by
  cases h with
  | bind h _ hd => exact ⟨bind_ensured hx hd h.type_eq,h.ensured hx.2 m⟩
  | assignName _ _ h => exact ⟨trivial,h.ensured hx.2 m⟩
  | assign hname h h' =>
    obtain ⟨-,ha,he⟩ := (Stmt.every_assign hname).mp hx
    exact (Stmt.every_assign (h.isName_eq.trans hname)).mpr ⟨trivial,h.ensured ha m,h'.ensured he m⟩
  | retUnit | leave | next => trivial
  | retValue _ h | expr h | cond h => exact ⟨trivial,h.ensured hx.2 m⟩
  | loop h _ _ h' | each h _ _ _ h' => exact ⟨trivial,h.ensured hx.2.1 m,h'.ensured hx.2.2 true⟩

theorem StmtsAccepted.ensured {s u : State} (h : StmtsAccepted env s ended warned xs r u)
    (hxs : Stmt.EveryIn (formed T) l xs) (m : Bool) :
    Stmt.EveryIn (ensured env T) m r.1 := by
  cases h with
  | nil => trivial
  | cons _ h h' => exact ⟨h.ensured hxs.1 m,h'.ensured hxs.2 m⟩

theorem BlockAccepted.ensured {s u : State} (h : BlockAccepted env s b r u) (hb : b.Every (formed T) l) (m : Bool) :
    r.1.Every (ensured env T) m := by
  cases h with
  | mk h => exact h.ensured hb m

theorem ChainAccepted.ensured {s u : State} (h : ChainAccepted env s c r u) (hc : c.Every (formed T) l) (m : Bool) :
    r.1.Every (ensured env T) m := by
  cases h with
  | stop => trivial
  | otherwise h => exact h.ensured hc m
  | branch h _ _ h' h'' =>
    exact ⟨trivial,h.ensured hc.2.1 m,h'.ensured hc.2.2.1 m,h''.ensured hc.2.2.2 m⟩

end

end Check

end Covenant
