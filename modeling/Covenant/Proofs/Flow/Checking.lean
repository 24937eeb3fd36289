import Covenant.Proofs.Flow.Basic
import Covenant.Proofs.Typing.Accepts

/-! What the checker says about the ends of code is right: where it says that control never goes on after a
piece of code, that code cannot be left at its end. The loops around the code are marked if a `break` can
leave them. -/

namespace Covenant.Check

/-- What may be left in what way: loops are marked before they are left by `break`, and functions
return a value if they have a result. -/
def Allowed (env : Env) (loops : List Bool) : Exit → Prop
  | .done => True
  | .leave => loops.head? = some true
  | .next => loops ≠ []
  | .ret b => ∃ f, env.current = some f ∧ f.result.isSome = b

/-- Code that is checked may mark the loop around it, and is left only in ways that are allowed then. -/
structure Exits (env : Env) (f : Flow) (before after : List Bool) : Prop where
  marks : after = before ∨ before ≠ [] ∧ after = true :: before.tail
  allowed : ∀ k, f k → Allowed env after k

namespace Exits

variable {env : Env} {f g h : Flow} {a b c : List Bool}

theorem here (l : List Bool) : Exits env (.only .done) l l :=
  ⟨.inl rfl,fun _ hk => hk ▸ trivial⟩

theorem later (hg : Exits env g b c) {k : Exit} (hk : Allowed env b k) : Allowed env c k := by
  rcases hg.marks with rfl | ⟨hne,rfl⟩
  · exact hk
  · cases k with
    | leave => exact rfl
    | next => exact List.cons_ne_nil _ _
    | done | ret => exact hk

theorem join (hf : Exits env f a b) (hg : Exits env g b c) (hh : ∀ k, h k → f k ∨ g k) :
    Exits env h a c where
  marks := by
    rcases hf.marks with rfl | ⟨hne,rfl⟩
    · exact hg.marks
    · rcases hg.marks with rfl | ⟨-,rfl⟩ <;> exact .inr ⟨hne,rfl⟩
  allowed k hk := (hh k hk).elim (fun hk => hg.later (hf.allowed k hk)) fun hk => hg.allowed k hk

theorem andThen (hf : Exits env f a b) (hg : Exits env g b c) : Exits env (f.andThen g) a c :=
  hf.join hg fun _ hk => hk.imp And.left And.right

theorem decides {p q : Prop} (hf : Exits env f a b) (hg : Exits env g b c) :
    Exits env (Flow.choice p q f g) a c :=
  hf.join hg fun _ hk => hk.imp And.right And.right

theorem of_nil (hf : Exits env f [] b) : b = [] :=
  hf.marks.resolve_right fun h => h.1 rfl

theorem rounds {p q : Prop} (hf : Exits env f a b) (hg : Exits env g (false :: b) c) :
    Exits env (.Rounds f p q g) a c.tail := by
  have htail : c.tail = b := by
    rcases hg.marks with rfl | ⟨-,rfl⟩ <;> rfl
  rw [htail]
  refine ⟨hf.marks,fun k hk => ?_⟩
  rcases hk.cases with rfl | hk | ⟨v,rfl,hk⟩
  · trivial
  · exact hf.allowed k hk
  · exact hg.allowed _ hk

/-- A loop that is not marked, and whose condition always holds, does not come to its end. -/
theorem rounds_endless {p q : Prop} (hg : Exits env g (false :: b) c) (hq : ¬ q)
    (hc : c.headD false = false) : ¬ Flow.Rounds f p q g .done := by
  intro hk
  have hleave := hg.allowed _ (hk.leave_of_done rfl hq)
  rw [Allowed] at hleave
  rw [List.headD_eq_head?_getD,hleave] at hc
  cases hc

end Exits

/-- Whether an expression says of itself that control does not go on after it. -/
def stops : Expr → Bool
  | .block _ _ _ d => d
  | e => neverEnds e

variable {env : Env} {s u v : State}

theorem binary_flow {n : Note} {op : BinaryOp} {a b : Expr} {l m o : List Bool}
    (ha : Exits env a.flow l m) (hb : Exits env b.flow m o) :
    Exits env (Expr.binary n op a b).flow l o := by
  by_cases hand : op = .and
  · rw [hand]
    exact ha.andThen (hb.decides (.here o))
  · by_cases hor : op = .or
    · rw [hor]
      exact ha.andThen ((Exits.here m).decides hb)
    · rw [Expr.flow_strict hand hor]
      exact ha.andThen hb

theorem stops_of_neverEnds {e : Expr} (h : neverEnds e = true) : stops e = true := by
  cases e with
  | block => cases h
  | _ => exact h

theorem stops_arms {n : Note} {e : Expr} {as : List Arm} (h : stops (.select n e as) = true) :
    ∀ a ∈ as, stops a.body = true := by
  intro a ha
  have hone := List.all_eq_true.mp h a ha
  cases hbody : a.body with
  | block m ss tail d =>
    rw [hbody] at hone
    exact hone
  | _ =>
    rw [hbody] at hone
    cases hone

theorem PatternAccepted.loops_eq {t : Ty} {p q : Pattern} (h : PatternAccepted env t s p q u) :
    u.loops = s.loops := by
  cases h <;> rfl

theorem ret_exits {f : Current} (hf : env.current = some f) (loops : List Bool) :
    Exits env (.only (.ret f.result.isSome)) loops loops := by
  refine ⟨.inl rfl,?_⟩
  rintro k rfl
  exact ⟨f,hf,rfl⟩

theorem not_mayBe_false {e : Expr} (h : isTrueLiteral e = true) : ¬ e.mayBe false := by
  cases e with
  | bool n b =>
    rintro rfl
    cases h
  | _ => cases h

theorem loop_exits {e : Expr} {b : Block} (pos : Pos) (he : Exits env e.flow s.loops u.loops)
    (hb : Exits env b.flow (false :: u.loops) v.loops) : Exits env (Stmt.loop pos e b).flow s.loops v.loops.tail ∧
      ((isTrueLiteral e && !v.loops.headD false) = true → ¬ (Stmt.loop pos e b).flow .done) := by
  refine ⟨he.rounds hb,fun h => ?_⟩
  obtain ⟨hlit,hnot⟩ := Bool.and_eq_true_iff.mp h
  exact hb.rounds_endless (not_mayBe_false hlit) (by simpa using hnot)

theorem leave_exits {marked : Bool} {outer : List Bool} (hl : s.loops = marked :: outer) :
    Exits env (.only .leave) s.loops (true :: outer) := by
  rw [hl]
  refine ⟨.inr ⟨List.cons_ne_nil _ _,rfl⟩,?_⟩
  rintro k rfl
  rfl

theorem next_exits (hl : s.loops.isEmpty = false) : Exits env (.only .next) s.loops s.loops := by
  refine ⟨.inl rfl,?_⟩
  rintro k rfl hnil
  rw [hnil] at hl
  cases hl

mutual

theorem ExprAccepted.exits {s u : State} (h : ExprAccepted env s e r u) :
    Exits env r.1.flow s.loops u.loops ∧ (stops r.1 = true → ¬ r.1.flow .done) := by
  cases h with
  | int | bool | text | noneLit | name | enum => exact ⟨.here _,nofun⟩
  | unary he | field he | wrap he => exact ⟨he.exits.1,nofun⟩
  | binary he _ hf => exact ⟨binary_flow he.exits.1 hf.exits.1,nofun⟩
  | user _ hes | builtin _ _ hes | host _ _ _ hes | array hes | record _ hes => exact ⟨hes.exits,nofun⟩
  | method he _ hes | methodLost he hes => exact ⟨he.exits.1.andThen hes.exits,nofun⟩
  | index he _ hi => exact ⟨he.exits.1.andThen hi.exits.1,nofun⟩
  | select he _ _ has =>
    obtain ⟨harms,hstop⟩ := has.exits
    refine ⟨he.exits.1.andThen harms,fun h hdone => ?_⟩
    rcases hdone with ⟨-,hne⟩ | ⟨-,hdone⟩
    · exact hne rfl
    · exact hstop (stops_arms h) hdone
  | unit hss =>
    obtain ⟨hflow,hstop⟩ := hss.exits
    exact ⟨hflow,fun h => (hstop h).resolve_left nofun⟩
  | value hss he =>
    obtain ⟨hflow,hstop⟩ := hss.exits
    refine ⟨hflow.andThen he.exits.1,fun h hdone => ?_⟩
    rcases hdone with ⟨-,hne⟩ | ⟨hdone,-⟩
    · exact hne rfl
    · exact (hstop h).resolve_left nofun hdone

theorem ValuesAccepted.exits {s u : State} (h : ValuesAccepted env s es rs u) :
    Exits env (Expr.flowIn (rs.map (·.1))) s.loops u.loops := by
  cases h with
  | nil => exact .here _
  | cons he _ hes => exact he.exits.1.andThen hes.exits

theorem InitsAccepted.exits {s u : State} (h : InitsAccepted env s d seen fs r u) :
    Exits env (FieldInit.flowIn r.1) s.loops u.loops := by
  cases h with
  | nil => exact .here _
  | cons he _ _ _ _ hfs => exact he.exits.1.andThen hfs.exits

theorem ArmsAccepted.exits {s u : State} (h : ArmsAccepted env s t common catchAll covered as r u) :
    Exits env (Arm.flowOf r.1) s.loops u.loops ∧ ((∀ a ∈ r.1, stops a.body = true) → ¬ Arm.flowOf r.1 .done) := by
  cases h with
  | nil => exact ⟨⟨.inl rfl,fun _ h => h.elim⟩,fun _ => id⟩
  | cons hw hp he _ has =>
    obtain ⟨hbody,hstop⟩ := he.exits
    obtain ⟨hrest,hreststop⟩ := has.exits
    rw [hp.loops_eq.trans hw.loops] at hbody
    refine ⟨hbody.join hrest fun k hk => hk,fun h => ?_⟩
    rw [List.forall_mem_cons] at h
    rintro (hdone | hdone)
    · exact hstop h.1 hdone
    · exact hreststop h.2 hdone

theorem StmtAccepted.exits {s u : State} (h : StmtAccepted env s x r u) :
    Exits env r.1.flow s.loops u.loops ∧ (r.2 = true → ¬ r.1.flow .done) := by
  cases h with
  | bind he _ _ hh => exact ⟨hh.loops.symm ▸ he.exits.1,nofun⟩
  | assignName _ _ he => exact ⟨(Exits.here _).andThen he.exits.1,nofun⟩
  | assign _ hf he => exact ⟨hf.exits.1.andThen he.exits.1,nofun⟩
  | retUnit hf hr =>
    have hret := ret_exits hf s.loops
    rw [hr] at hret
    exact ⟨hret,fun _ => nofun⟩
  | retValue hf he _ hr =>
    have hret := ret_exits hf u.loops
    rw [hr] at hret
    refine ⟨he.exits.1.andThen hret,fun _ hdone => ?_⟩
    rcases hdone with ⟨-,hne⟩ | ⟨-,hk⟩
    · exact hne rfl
    · cases hk
  | expr he => exact ⟨he.exits.1,fun h => he.exits.2 (stops_of_neverEnds h)⟩
  | cond hc => exact hc.exits
  | loop he _ _ hb => exact loop_exits _ he.exits.1 hb.exits.1
  | each he _ _ hh hss =>
    have hbody := hss.exits.1
    simp only [hh.loops] at hbody
    exact ⟨he.exits.1.andThen ((Exits.here _).rounds hbody),nofun⟩
  | leave hl => exact ⟨leave_exits hl,fun _ => nofun⟩
  | next hl => exact ⟨next_exits hl,fun _ => nofun⟩

theorem StmtsAccepted.exits {s u : State} (h : StmtsAccepted env s ended warned xs r u) :
    Exits env (Stmt.flowIn r.1) s.loops u.loops ∧ (r.2 = true → ended = true ∨ ¬ Stmt.flowIn r.1 .done) := by
  cases h with
  | nil => exact ⟨.here _,.inl⟩
  | cons hw hx hxs =>
    obtain ⟨hexits,hstop⟩ := hx.exits
    obtain ⟨hrest,hreststop⟩ := hxs.exits
    rw [hw.loops] at hexits
    refine ⟨hexits.andThen hrest,fun h => ?_⟩
    rcases hreststop h with hended | hnot
    · rcases Bool.or_eq_true_iff.mp hended with hended | hends
      · exact .inl hended
      · exact .inr fun hdone => hdone.elim (fun hd => hd.2 rfl) fun hd => hstop hends hd.1
    · exact .inr fun hdone => hdone.elim (fun hd => hd.2 rfl) fun hd => hnot hd.2

theorem BlockAccepted.exits {s u : State} (h : BlockAccepted env s b r u) :
    Exits env r.1.flow s.loops u.loops ∧ (r.2 = true → ¬ r.1.flow .done) := by
  cases h with
  | mk hss =>
    obtain ⟨hexits,hstop⟩ := hss.exits
    exact ⟨hexits,fun h => (hstop h).resolve_left nofun⟩

theorem ChainAccepted.exits {s u : State} (h : ChainAccepted env s c r u) :
    Exits env r.1.flow s.loops u.loops ∧ (r.2 = true → ¬ r.1.flow .done) := by
  cases h with
  | stop => exact ⟨.here _,nofun⟩
  | otherwise hb => exact hb.exits
  | branch he _ _ hb hrest =>
    obtain ⟨hbody,hstop⟩ := hb.exits
    obtain ⟨hrest,hreststop⟩ := hrest.exits
    refine ⟨he.exits.1.andThen (hbody.decides hrest),fun h hdone => ?_⟩
    obtain ⟨hends,hrestends⟩ := Bool.and_eq_true_iff.mp h
    rcases hdone with ⟨-,hne⟩ | ⟨-,⟨-,hdone⟩ | ⟨-,hdone⟩⟩
    · exact hne rfl
    · exact hstop hends hdone
    · exact hreststop hrestends hdone

end

end Covenant.Check
