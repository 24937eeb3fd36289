import Covenant.Proofs.Lower.Nesting
import Covenant.Proofs.Scalar.Expression

/-! The code of scalar statements follows their runs. A jump out of a loop becomes a branch over all the
constructs in between, and a loop that takes more rounds than it is given keeps the machine running. -/

namespace Covenant.Scalar

open Lower (Context Instr LoopLevels)
open Machine (Number Comes Lasts Config step branch)
open Meaning (World Val Eval SlotKind State Outcome)
open Typing (Site rule Gives)

inductive Answers : Option Val → List Number → Prop
  | nothing : Answers none []
  | word (w : Guard.Word) : Answers (some (.int w)) [.i64 w]
  | truth (b : Bool) : Answers (some (.bool b)) [.ofBool b]

theorem Answers.unique {v u : Option Val} {xs : List Number} (h : Answers v xs) (h' : Answers u xs) :
    v = u := by
  cases h with
  | nothing => cases h'; rfl
  | word w => cases h'; rfl
  | truth b =>
    generalize hx : [Number.ofBool b] = xs at h'
    cases h' with
    | nothing => cases hx
    | word w => cases hx
    | truth b' => cases b <;> cases b' <;> first | rfl | cases hx

/-- Where code stands: the operands below it, the constructs around it and the code after it. -/
structure Place where
  stack : List Number
  frames : List Machine.Frame
  rest : List Instr

def Place.at (P : Place) (locals : List Number) (code : List Instr) : Config :=
  ⟨P.stack, locals, P.frames, code ++ P.rest⟩

def SameWorld (s t : State) : Prop := t.heap = s.heap ∧ t.trace = s.trace

variable {s t : State} {p : Pos}

theorem SameWorld.trans {u : State} (h : SameWorld s t) (h' : SameWorld t u) : SameWorld s u :=
  ⟨h'.1.trans h.1,h'.2.trans h.2⟩

section

variable (arity : Nat) (types : List Ty) (c : Context) (P : Place) (s : State) (start : Config)

def Jumps (t : State) (level : LoopLevels → Nat) : Prop :=
  SameWorld s t ∧ ∃ l st locals, c.loop = some l ∧ Matches types t.slots locals ∧
    Comes arity start (branch arity st locals (c.distance (level l)) P.frames)

/-- From `start` the machine does what a run of statements from `s` has come to. A run that is late
lets it take at least `bound` steps. -/
def Follows (bound : Nat) : Outcome Unit → Prop
  | .done _ t => SameWorld s t ∧ ∃ locals, Matches types t.slots locals ∧
      Comes arity start (.running (P.at locals []))
  | .jump .leave t => Jumps arity types c P s start t (·.leave)
  | .jump .next t => Jumps arity types c P s start t (·.next)
  | .jump (.ret v) t => SameWorld s t ∧ ∃ xs, Answers v xs ∧ Comes arity start (.returned xs)
  | .trap _ t => SameWorld s t ∧ Comes arity start .trapped
  | .stuck => False
  | .late => Lasts arity bound start

end

section

variable {arity bound : Nat} {types : List Ty} {c : Context} {P : Place} {s t : State}
  {start mid : Config} {o : Outcome Unit}

theorem Follows.of_comes (hs : SameWorld s t) (hstart : Comes arity start (.running mid))
    (h : Follows arity types c P t mid bound o) : Follows arity types c P s start bound o := by
  cases o with
  | done a u =>
    obtain ⟨hu,locals,hm,hcomes⟩ := h
    exact ⟨hs.trans hu,locals,hm,hstart.trans hcomes⟩
  | jump j u =>
    cases j with
    | leave | next =>
      obtain ⟨hu,l,st,locals,hl,hm,hcomes⟩ := h
      exact ⟨hs.trans hu,l,st,locals,hl,hm,hstart.trans hcomes⟩
    | ret v =>
      obtain ⟨hu,xs,hv,hcomes⟩ := h
      exact ⟨hs.trans hu,xs,hv,hstart.trans hcomes⟩
  | trap k u => exact ⟨hs.trans h.1,hstart.trans h.2⟩
  | stuck => exact h
  | late => exact .trans hstart h

theorem Follows.of_step (hstart : step arity start = .running mid)
    (h : Follows arity types c P s mid bound o) : Follows arity types c P s start bound o :=
  h.of_comes ⟨rfl,rfl⟩ (.of_step hstart)

theorem Follows.succ (hstart : step arity start = .running mid)
    (h : Follows arity types c P s mid bound o) : Follows arity types c P s start (bound + 1) o := by
  cases o with
  | late => exact Lasts.succ hstart h
  | jump j t => cases j <;> exact h.of_step hstart
  | done | trap | stuck => exact h.of_step hstart

theorem Follows.andThen {run : Eval Unit} {again : Unit → Eval Unit} {Q : Place}
    (h : Follows arity types c Q s start bound (run s)) (hframes : Q.frames = P.frames)
    (hnext : ∀ t locals, SameWorld s t → Matches types t.slots locals →
      Comes arity start (.running (Q.at locals [])) →
        Follows arity types c P s start bound (again () t)) :
    Follows arity types c P s start bound ((run >>= again) s) := by
  rw [Eval.bind_apply,Eval.andThen]
  cases hrun : run s with
  | done a t =>
    rw [hrun] at h
    obtain ⟨ht,locals,hm,hcomes⟩ := h
    exact hnext t locals ht hm hcomes
  | jump j t =>
    rw [hrun] at h
    cases j with
    | leave | next =>
      obtain ⟨ht,l,st,locals,hl,hm,hcomes⟩ := h
      exact ⟨ht,l,st,locals,hl,hm,hframes ▸ hcomes⟩
    | ret v => exact h
  | trap k t =>
    rw [hrun] at h
    exact h
  | stuck =>
    rw [hrun] at h
    exact h
  | late =>
    rw [hrun] at h
    exact h

/-- A construct without results is left at its end, and jumps pass over it. -/
theorem Follows.leave_frame {jumps : Bool} {st : List Number} {fs : List Machine.Frame} {k : List Instr}
    (hc : c.Nested jumps)
    (h : Follows arity types (c.inside 1) ⟨[], ⟨none, 0, st, k⟩ :: fs, []⟩ s start bound o) :
    Follows arity types c ⟨st, fs, k⟩ s start bound o := by
  cases o with
  | done a t =>
    obtain ⟨ht,locals,hm,hcomes⟩ := h
    exact ⟨ht,locals,hm,hcomes.trans (.of_step rfl)⟩
  | jump j t =>
    cases j with
    | leave =>
      obtain ⟨ht,l,st,locals,hl,hm,hcomes⟩ := h
      rw [Context.distance_inside (hc.below l hl).1] at hcomes
      exact ⟨ht,l,st,locals,hl,hm,hcomes⟩
    | next =>
      obtain ⟨ht,l,st,locals,hl,hm,hcomes⟩ := h
      rw [Context.distance_inside (hc.below l hl).2] at hcomes
      exact ⟨ht,l,st,locals,hl,hm,hcomes⟩
    | ret v => exact h
  | trap k t => exact h
  | stuck => exact h
  | late => exact h

end

def Carries (arity : Nat) (c : Context) (w : World) (run : Eval Unit) (code : List Instr) : Prop :=
  ∀ s locals P, Matches w.types s.slots locals →
    Follows arity w.types c P s (P.at locals code) w.limit (run s)

variable {arity : Nat} {c : Context} {w : World} {S : Site} {jumps : Bool} {code code' : List Instr}
  {run run' : Eval Unit}

theorem Carries.nil : Carries arity c w (pure ()) [] := fun _ locals _ hm =>
  ⟨⟨rfl,rfl⟩,locals,hm,.refl _⟩

theorem Carries.append (h : Carries arity c w run code) (h' : Carries arity c w run' code') :
    Carries arity c w (do run; run') (code ++ code') := by
  intro s locals P hm
  have hfirst := h s locals ⟨P.stack, P.frames, code' ++ P.rest⟩ hm
  rw [Place.at,← List.append_assoc] at hfirst
  exact hfirst.andThen rfl fun t locals' ht hm' hcomes =>
    (h' t locals' P hm').of_comes ht hcomes

variable {e : Expr} {test body : List Instr} {locals : List Number} {rest : List Stmt}

theorem Carries.of_computes {t : Ty} {use : Val → Eval Unit} (h : Computes arity w t e code)
    (huse : ∀ v x s locals P, Shows (.ofType t) v x → Matches w.types s.slots locals →
      Follows arity w.types c P s ⟨x :: P.stack, locals, P.frames, code' ++ P.rest⟩ w.limit (use v s)) :
    Carries arity c w (do use (← Meaning.need (Meaning.expr w e))) (code ++ code') := by
  intro s locals P hm
  rw [Place.at,List.append_assoc]
  rcases h s locals hm with ⟨v,x,hv,hx,hputs⟩ | ⟨k,hk,htrap⟩
  · rw [Eval.bind_of_done (Meaning.need_of_done hv)]
    exact (huse v x s locals P hx hm).of_comes ⟨rfl,rfl⟩ (hputs _ _ _)
  · rw [Eval.bind_of_trap (Meaning.need_of_trap hk)]
    exact ⟨⟨rfl,rfl⟩,htrap _ _ _⟩

theorem write_of_compatible {t u : Ty} {v : Val} {x : Number} (slots : Meaning.Slots) (i : Nat)
    (h : t.compatible u = true) (hu : SlotKind.ofType u ≠ .other) (hv : Shows (.ofType u) v x) :
    ∃ slots', slots.write (.ofType t) i v = some slots' ∧ Shows (.ofType t) v x := by
  by_cases ht : SlotKind.ofType t = .other
  · rw [ht]
    exact ⟨_,rfl,.other v x⟩
  · rw [kind_of_compatible h ht hu]
    generalize SlotKind.ofType u = k at hv hu
    cases hv with
    | word w => exact ⟨_,rfl,.word w⟩
    | truth b => exact ⟨_,rfl,.truth b⟩
    | other => exact absurd rfl hu

theorem store_carries {i : Nat} {t : Ty} (ht : w.types[i]? = some t) (hgives : Gives e t)
    (he : Compiles arity c w e) : ∃ code, Makes (Lower.expr c e) code ∧
      Carries arity c w (do Meaning.writeSlot w.types (some i) (← Meaning.need (Meaning.expr w e)))
        (code ++ [Instr.set i]) := by
  obtain ⟨u,code,hu,hk,hmake,hcomp⟩ := he
  obtain ⟨u',hu',-,hfits⟩ := hgives
  cases hu.symm.trans hu'
  refine ⟨code,hmake,.of_computes hcomp fun v x s locals P hv hm => ?_⟩
  obtain ⟨slots,hwrite,hshow⟩ := write_of_compatible s.slots i hfits hk hv
  obtain ⟨hi,hm'⟩ := hm.write ht hwrite hshow
  have hrun : Meaning.writeSlot w.types (some i) v s = .done () { s with slots } := by
    simp [Meaning.writeSlot, ht, hwrite, Eval.orStuck, Eval.get, Eval.set, Eval.bind_apply, Eval.andThen]
  rw [hrun]
  refine ⟨⟨rfl,rfl⟩,_,hm',.of_step ?_⟩
  simp [step, Machine.op, Instr.set, Place.at, hi]

def Decides (arity : Nat) (w : World) (e : Expr) (code : List Instr) : Prop :=
  ∀ (s : State) (locals : List Number), Matches w.types s.slots locals →
    (∃ b, Meaning.truth (Meaning.expr w e) s = .done b s ∧ Puts arity code locals (.ofBool b)) ∨
    (∃ k, Meaning.truth (Meaning.expr w e) s = .trap k s ∧ Traps arity code locals)

theorem Compiles.decides (h : Compiles arity c w e) (hgives : Gives e .boolean) :
    ∃ code, Makes (Lower.expr c e) code ∧ Decides arity w e code := by
  obtain ⟨t,code,ht,hk,hmake,hcomp⟩ := h
  obtain ⟨u,hu,-,hfits⟩ := hgives
  cases ht.symm.trans hu
  have hkind := kind_of_compatible hfits (by simp [SlotKind.ofType]) hk
  refine ⟨code,hmake,fun s locals hm => ?_⟩
  rcases hcomp s locals hm with ⟨v,x,hv,hx,hputs⟩ | ⟨k,hk,htrap⟩
  · rw [← hkind] at hx
    cases hx with
    | truth b => exact .inl ⟨b,Meaning.truth_of_done hv,hputs⟩
  · exact .inr ⟨k,Meaning.truth_of_trap hk,htrap⟩

theorem branch_carries {yes : List Instr} {no : Option (List Instr)} (hc : c.Nested jumps)
    (h : Decides arity w e code) (hyes : Carries arity (c.inside 1) w run yes)
    (hno : Carries arity (c.inside 1) w run' (no.getD [])) :
    Carries arity c w (do if ← Meaning.truth (Meaning.expr w e) then run else run')
      (code ++ [Instr.cond none yes no]) := by
  intro s locals P hm
  rw [Place.at,List.append_assoc]
  rcases h s locals hm with ⟨b,hb,hputs⟩ | ⟨k,hk,htrap⟩
  · rw [Eval.bind_of_done hb]
    refine Follows.of_comes ⟨rfl,rfl⟩ (hputs _ _ _) (.of_step (step_cond b) ?_)
    let Q : Place := ⟨[], ⟨none, 0, P.stack, P.rest⟩ :: P.frames, []⟩
    cases b with
    | true =>
      have hin := hyes s locals Q hm
      simp only [Place.at, Q, List.append_nil] at hin
      exact hin.leave_frame hc
    | false =>
      have hin := hno s locals Q hm
      simp only [Place.at, Q, List.append_nil] at hin
      exact hin.leave_frame hc
  · rw [Eval.bind_of_trap hk]
    exact ⟨⟨rfl,rfl⟩,htrap _ _ _⟩

def loopCode (test body : List Instr) : List Instr :=
  test ++ [.num .i32Eqz, .op (.brIf 1), .block none body, .op (.br 0)]

/-- The loop and the block around it. -/
def loopFrames (P : Place) (inside : List Instr) : List Machine.Frame :=
  ⟨some inside, 0, [], []⟩ :: ⟨none, 0, P.stack, P.rest⟩ :: P.frames

/-- The block around the body, after which the next round begins. -/
def bodyPlace (P : Place) (inside : List Instr) : Place :=
  ⟨[], ⟨none, 0, [], [.op (.br 0)]⟩ :: loopFrames P inside, []⟩

theorem enter_body (P : Place) (h : Puts arity test locals (.ofBool true)) :
    Comes arity ⟨[], locals, loopFrames P (loopCode test body), loopCode test body⟩
      (.running ((bodyPlace P (loopCode test body)).at locals body)) := by
  refine h.comes (.step_trans rfl (.step_trans rfl (.of_step ?_)))
  simp [step, Place.at, bodyPlace]

theorem round_follows {inside : List Instr} {n : Nat} {P : Place} {start : Config}
    {body again : Eval Unit} (hn : n + 1 ≤ w.limit)
    (hbody : Follows arity w.types c.insideLoop (bodyPlace P inside) s start w.limit (body s))
    (hagain : ∀ t locals, Matches w.types t.slots locals →
      Follows arity w.types c P t ⟨[], locals, loopFrames P inside, inside⟩ n (again t)) :
    Follows arity w.types c P s start (n + 1) (Meaning.round body again s) := by
  have hnext (t : State) (locals : List Number) (ht : SameWorld s t) (hm : Matches w.types t.slots locals)
      (hcomes : Comes arity start (.running ⟨[], locals, loopFrames P inside, [.op (.br 0)]⟩)) :
      Follows arity w.types c P s start (n + 1) (again t) :=
    ((hagain t locals hm).succ rfl).of_comes ht hcomes
  rw [Meaning.round]
  cases hrun : body s with
  | done a t =>
    rw [hrun] at hbody
    obtain ⟨ht,locals,hm,hcomes⟩ := hbody
    exact hnext t locals ht hm (hcomes.trans (.of_step rfl))
  | jump j t =>
    rw [hrun] at hbody
    cases j with
    | leave =>
      obtain ⟨ht,l,st,locals,hl,hm,hcomes⟩ := hbody
      cases hl
      rw [Context.distance_insideLoop_leave] at hcomes
      exact ⟨ht,locals,hm,hcomes⟩
    | next =>
      obtain ⟨ht,l,st,locals,hl,hm,hcomes⟩ := hbody
      cases hl
      rw [Context.distance_insideLoop_next] at hcomes
      exact hnext t locals ht hm hcomes
    | ret v => exact hbody
  | trap k t =>
    rw [hrun] at hbody
    exact hbody
  | stuck =>
    rw [hrun] at hbody
    exact hbody
  | late =>
    rw [hrun] at hbody
    exact Lasts.mono hbody hn

theorem rounds_follow (htest : Decides arity w e test)
    (hbody : Carries arity c.insideLoop w run body) (P : Place) (n : Nat) (hn : n ≤ w.limit)
    (s : State) (locals : List Number) (hm : Matches w.types s.slots locals) :
    Follows arity w.types c P s ⟨[], locals, loopFrames P (loopCode test body), loopCode test body⟩ n
      (Meaning.whileLoop (Meaning.truth (Meaning.expr w e)) run n s) := by
  induction n generalizing s locals with
  | zero =>
    rw [Meaning.whileLoop]
    rcases htest s locals hm with ⟨b,hb,hputs⟩ | ⟨k,hk,htrap⟩
    · rw [Eval.bind_of_done hb]
      cases b with
      | true => exact Lasts.zero _
      | false =>
        exact ⟨⟨rfl,rfl⟩,locals,hm,hputs.comes (.step_trans rfl (.of_step rfl))⟩
    · rw [Eval.bind_of_trap hk]
      exact ⟨⟨rfl,rfl⟩,htrap _ _ _⟩
  | succ n ih =>
    rw [Meaning.whileLoop]
    rcases htest s locals hm with ⟨b,hb,hputs⟩ | ⟨k,hk,htrap⟩
    · rw [Eval.bind_of_done hb]
      cases b with
      | true =>
        have hin := hbody s locals (bodyPlace P (loopCode test body)) hm
        have hround := round_follows hn hin fun t locals' hm' => ih (Nat.le_of_succ_le hn) t locals' hm'
        exact hround.of_comes ⟨rfl,rfl⟩ (enter_body P hputs)
      | false =>
        exact ⟨⟨rfl,rfl⟩,locals,hm,hputs.comes (.step_trans rfl (.of_step rfl))⟩
    · rw [Eval.bind_of_trap hk]
      exact ⟨⟨rfl,rfl⟩,htrap _ _ _⟩

theorem loop_carries (htest : Decides arity w e test) (hbody : Carries arity c.insideLoop w run body) :
    Carries arity c w (Meaning.whileLoop (Meaning.truth (Meaning.expr w e)) run w.limit)
      (Lower.whileCode test body) := by
  intro s locals P hm
  have hrounds := rounds_follow htest hbody P w.limit (Nat.le_refl _) s locals hm
  exact (hrounds.of_step rfl).of_step rfl

def Lowered (arity : Nat) (c : Context) (w : World) (lower : Lower.M (List Instr)) (run : Eval Unit) : Prop :=
  ∃ code, Makes lower code ∧ Carries arity c w run code

theorem ret_lowered (harity : arity = 1) (he : Compiles arity c w e) :
    Lowered arity c w (Lower.stmt c (.ret p (some e))) (Meaning.stmt w (.ret p (some e))) := by
  obtain ⟨u,code,hu,hk,hmake,hcomp⟩ := he
  refine ⟨_,hmake.map,.of_computes hcomp fun v x s locals P hv hm => ?_⟩
  have hcomes : Comes arity ⟨x :: P.stack, locals, P.frames, .op .ret :: P.rest⟩ (.returned [x]) :=
    .of_step (by simp [step, Machine.op, harity])
  refine ⟨⟨rfl,rfl⟩,[x],?_,hcomes⟩
  generalize SlotKind.ofType u = k at hv hk
  cases hv with
  | word w => exact .word w
  | truth b => exact .truth b
  | other => exact absurd rfl hk

theorem expr_lowered (hscalar : e.isScalar = true) (he : Compiles arity c w e) :
    Lowered arity c w (Lower.stmt c (.expr p e)) (Meaning.stmt w (.expr p e)) := by
  obtain ⟨u,code,hu,hk,hmake,hcomp⟩ := he
  have hpushes : Lower.pushes c e = true := by
    cases e <;> first | rfl | cases hscalar
  refine ⟨_,hmake.map,?_⟩
  rw [Lower.unused,if_pos hpushes]
  intro s locals P hm
  rw [Place.at,List.append_assoc]
  rcases hcomp s locals hm with ⟨v,x,hv,hx,hputs⟩ | ⟨k,hk,htrap⟩
  · rw [Meaning.stmt,Eval.bind_of_done hv]
    exact ⟨⟨rfl,rfl⟩,locals,hm,hputs.comes (.of_step rfl)⟩
  · rw [Meaning.stmt,Eval.bind_of_trap hk]
    exact ⟨⟨rfl,rfl⟩,htrap _ _ _⟩

theorem leave_lowered (hc : c.Nested true) :
    Lowered arity c w (Lower.stmt c (.leave p)) (Meaning.stmt w (.leave p)) := by
  obtain ⟨l,hl⟩ := hc.loop rfl
  refine ⟨[.op (.br (c.distance l.leave))],?_,fun s locals P hm => ?_⟩
  · rw [Lower.stmt,hl]
    exact .pure _
  · exact ⟨⟨rfl,rfl⟩,l,P.stack,locals,hl,hm,.of_step rfl⟩

theorem next_lowered (hc : c.Nested true) :
    Lowered arity c w (Lower.stmt c (.next p)) (Meaning.stmt w (.next p)) := by
  obtain ⟨l,hl⟩ := hc.loop rfl
  refine ⟨[.op (.br (c.distance l.next))],?_,fun s locals P hm => ?_⟩
  · rw [Lower.stmt,hl]
    exact .pure _
  · exact ⟨⟨rfl,rfl⟩,l,P.stack,locals,hl,hm,.of_step rfl⟩

structure Fits (arity : Nat) (w : World) (S : Site) : Prop where
  types : w.types = S.slots
  strict : S.strict
  arity : arity = S.result.toList.length

theorem Fits.compiles (hf : Fits arity w S) (c : Context) (hx : e.isScalar = true)
    (h : e.Every (rule S) jumps) : Compiles arity c w e :=
  expr_compiles hf.types hf.strict e c hx h

theorem Fits.decides (hf : Fits arity w S) (c : Context) (hx : e.isScalar = true)
    (h : e.Every (rule S) jumps) (hgives : S.strict → Gives e .boolean) :
    ∃ code, Makes (Lower.expr c e) code ∧ Decides arity w e code :=
  (hf.compiles c hx h).decides (hgives hf.strict)

mutual

theorem stmt_lowered (hf : Fits arity w S) : ∀ (x : Stmt) (jumps : Bool) (c : Context),
    x.isScalar = true → x.Every (rule S) jumps → c.Nested jumps →
      Lowered arity c w (Lower.stmt c x) (Meaning.stmt w x)
  | .bind p x d e slot, jumps, c, hx, h, hc => by
    obtain ⟨i,t,rfl,ht,-,hgives⟩ := h.1 hf.strict
    obtain ⟨code,hmake,hcarries⟩ := store_carries (hf.types ▸ ht) hgives (hf.compiles c hx h.2)
    exact ⟨_,hmake.bind (.bind (.pure _) (.pure _)),hcarries⟩
  | .assign p (.name n x sym) e, jumps, c, hx, h, hc => by
    obtain ⟨v,rfl,⟨-,i,hi,ht⟩,-,-,hgives⟩ := h.1 hf.strict
    obtain ⟨code,hmake,hcarries⟩ := store_carries (hf.types ▸ ht) hgives (hf.compiles c hx h.2)
    refine ⟨code ++ [Instr.set i],?_,?_⟩
    · rw [Lower.stmt,Option.bind_some,hi]
      exact hmake.map
    · rw [Meaning.stmt,Option.bind_some,hi]
      exact hcarries
  | .ret p none, jumps, c, hx, h, hc => by
    have hnone : S.result = none := h hf.strict
    have hzero : arity = 0 := by rw [hf.arity,hnone]; rfl
    refine ⟨_,.pure _,fun s locals P hm => ⟨⟨rfl,rfl⟩,[],.nothing,.of_step ?_⟩⟩
    simp [step, Machine.op, Place.at, hzero]
  | .ret p (some e), jumps, c, hx, h, hc => by
    obtain ⟨t,ht,-⟩ := h.1 hf.strict
    have hone : arity = 1 := by rw [hf.arity,ht]; rfl
    exact ret_lowered hone (hf.compiles c hx h.2)
  | .expr p e, jumps, c, hx, h, hc => expr_lowered hx (hf.compiles c hx h.2)
  | .cond p ch, jumps, c, hx, h, hc => by
    obtain ⟨code,hmake,hcarries⟩ := chain_lowered hf ch jumps c hx h.2 hc
    exact ⟨code.getD [],hmake.map,hcarries⟩
  | .loop p e b, jumps, c, hx, h, hc => by
    have hx := Bool.and_eq_true_iff.mp hx
    obtain ⟨test,htest,hdecides⟩ := hf.decides (c.inside 2) hx.1 h.2.1 h.1
    obtain ⟨body,hbody,hcarries⟩ := block_lowered hf b true c.insideLoop hx.2 h.2.2 (.insideLoop c)
    exact ⟨_,htest.bind hbody.map,loop_carries hdecides hcarries⟩
  | .leave p, jumps, c, hx, h, hc => leave_lowered (h hf.strict ▸ hc)
  | .next p, jumps, c, hx, h, hc => next_lowered (h hf.strict ▸ hc)

theorem stmts_lowered (hf : Fits arity w S) : ∀ (xs : List Stmt) (jumps : Bool) (c : Context),
    Stmt.allScalar xs = true → Stmt.EveryIn (rule S) jumps xs → c.Nested jumps →
      Lowered arity c w (Lower.stmts c xs) (Meaning.stmts w xs)
  | [], _, _, _, _, _ => ⟨_,.pure _,.nil⟩
  | x :: xs, jumps, c, hx, h, hc => by
    have hx := Bool.and_eq_true_iff.mp hx
    obtain ⟨code,hmake,hcarries⟩ := stmt_lowered hf x jumps c hx.1 h.1 hc
    obtain ⟨rest,hrest,hcarries'⟩ := stmts_lowered hf xs jumps c hx.2 h.2 hc
    exact ⟨_,hmake.bind hrest.map,hcarries.append hcarries'⟩

theorem block_lowered (hf : Fits arity w S) : ∀ (b : Block) (jumps : Bool) (c : Context),
    b.isScalar = true → b.Every (rule S) jumps → c.Nested jumps →
      Lowered arity c w (Lower.block c b) (Meaning.block w b)
  | .mk _ xs, jumps, c, hx, h, hc => stmts_lowered hf xs jumps c hx h hc

theorem chain_lowered (hf : Fits arity w S) : ∀ (ch : Chain) (jumps : Bool) (c : Context),
    ch.isScalar = true → ch.Every (rule S) jumps → c.Nested jumps →
      ∃ code, Makes (Lower.chain c ch) code ∧ Carries arity c w (Meaning.chain w ch) (code.getD [])
  | .stop, _, _, _, _, _ => ⟨none,.pure _,.nil⟩
  | .otherwise b, jumps, c, hx, h, hc => by
    obtain ⟨code,hmake,hcarries⟩ := block_lowered hf b jumps c hx h hc
    exact ⟨some code,hmake.map,hcarries⟩
  | .branch p e b rest, jumps, c, hx, h, hc => by
    simp only [Chain.isScalar, Bool.and_eq_true] at hx
    obtain ⟨test,htest,hdecides⟩ := hf.decides c hx.1.1 h.2.1 h.1
    obtain ⟨yes,hyes,hcarries⟩ := block_lowered hf b jumps (c.inside 1) hx.1.2 h.2.2.1 (hc.inside 1)
    obtain ⟨no,hno,hcarries'⟩ := chain_lowered hf rest jumps (c.inside 1) hx.2 h.2.2.2 (hc.inside 1)
    exact ⟨_,htest.bind (hyes.bind hno.map),branch_carries hc hdecides hcarries hcarries'⟩

end

inductive Chooses (w : World) : Chain → State → List Stmt → State → Prop
  | first {p q : Pos} {e : Expr} {xs : List Stmt} {rest : Chain} {s t : State} :
    Meaning.truth (Meaning.expr w e) s = .done true t → Chooses w (.branch p e (.mk q xs) rest) s xs t
  | later {p : Pos} {e : Expr} {b : Block} {rest : Chain} {xs : List Stmt} {s t u : State} :
    Meaning.truth (Meaning.expr w e) s = .done false t → Chooses w rest t xs u →
      Chooses w (.branch p e b rest) s xs u
  | last {q : Pos} {xs : List Stmt} {s : State} : Chooses w (.otherwise (.mk q xs)) s xs s

inductive Rounds (w : World) (e : Expr) (b : Block) : State → State → Prop
  | none (s : State) : Rounds w e b s s
  | more {s t u v : State} : Meaning.truth (Meaning.expr w e) s = .done true t →
    Meaning.block w b t = .done () u ∨ Meaning.block w b t = .jump .next u → Rounds w e b u v →
      Rounds w e b s v

/-- A run of statements comes to a boundary: the statements that are left in that block, and the
state. -/
inductive Visits (w : World) : List Stmt → State → List Stmt → State → Prop
  | here (xs : List Stmt) (s : State) : Visits w xs s xs s
  | after {x : Stmt} {xs rest : List Stmt} {s t u : State} : Meaning.stmt w x s = .done () t →
    Visits w xs t rest u → Visits w (x :: xs) s rest u
  | branch {p : Pos} {ch : Chain} {xs ys rest : List Stmt} {s t u : State} : Chooses w ch s ys t →
    Visits w ys t rest u → Visits w (.cond p ch :: xs) s rest u
  | inLoop {p q : Pos} {e : Expr} {xs ys rest : List Stmt} {s t u v : State} :
    Rounds w e (.mk q ys) s t → Meaning.truth (Meaning.expr w e) t = .done true u →
      Visits w ys u rest v → Visits w (.loop p e (.mk q ys) :: xs) s rest v

def Reaches (arity : Nat) (types : List Ty) (start : Config) (rest : List Stmt) (s : State) : Prop :=
  ∃ c code P locals, Makes (Lower.stmts c rest) code ∧ Matches types s.slots locals ∧
    Comes arity start (.running (Place.at P locals code))

theorem Makes.unique {α : Type} {m : Lower.M α} {a b : α} (h : Makes m a) (h' : Makes m b) : a = b := by
  have hab := (h ⟨.empty,#[]⟩).symm.trans (h' ⟨.empty,#[]⟩)
  cases hab
  rfl

theorem Reaches.of_comes {types : List Ty} {start mid : Config}
    (h : Comes arity start (.running mid)) (h' : Reaches arity types mid rest s) :
    Reaches arity types start rest s := by
  obtain ⟨c,code,P,locals,hmake,hm,hcomes⟩ := h'
  exact ⟨c,code,P,locals,hmake,hm,h.trans hcomes⟩

theorem Decides.puts {b : Bool} (h : Decides arity w e code)
    (hm : Matches w.types s.slots locals) (hb : Meaning.truth (Meaning.expr w e) s = .done b t) :
    t = s ∧ Puts arity code locals (.ofBool b) := by
  rcases h s locals hm with ⟨b',hb',hputs⟩ | ⟨k,hk,-⟩
  · cases hb.symm.trans hb'
    exact ⟨rfl,hputs⟩
  · cases hb.symm.trans hk

theorem rounds_come {b : Block} (P : Place) (htest : Decides arity w e test)
    (hbody : Carries arity c.insideLoop w (Meaning.block w b) body) (h : Rounds w e b s t)
    (hm : Matches w.types s.slots locals) : ∃ locals', Matches w.types t.slots locals' ∧
      Comes arity ⟨[], locals, loopFrames P (loopCode test body), loopCode test body⟩
        (.running ⟨[], locals', loopFrames P (loopCode test body), loopCode test body⟩) := by
  induction h generalizing locals with
  | none s => exact ⟨locals,hm,.refl _⟩
  | @more s t u v htrue hround _ ih =>
    obtain ⟨rfl,hputs⟩ := htest.puts hm htrue
    have hin := hbody t locals (bodyPlace P (loopCode test body)) hm
    rcases hround with hdone | hnext
    · rw [hdone] at hin
      obtain ⟨-,mid,hmid,hcomes⟩ := hin
      obtain ⟨last,hlast,hrest⟩ := ih hmid
      exact ⟨last,hlast,(enter_body P hputs).trans (hcomes.trans (.step_trans rfl (.step_trans rfl hrest)))⟩
    · rw [hnext] at hin
      obtain ⟨-,l,st,mid,hl,hmid,hcomes⟩ := hin
      cases hl
      rw [Context.distance_insideLoop_next] at hcomes
      obtain ⟨last,hlast,hrest⟩ := ih hmid
      exact ⟨last,hlast,(enter_body P hputs).trans (.trans hcomes (.step_trans rfl hrest))⟩

theorem chooses_comes (hf : Fits arity w S) {ch : Chain} {xs : List Stmt} {s t : State}
    (h : Chooses w ch s xs t) {code : Option (List Instr)} (P : Place) (hx : ch.isScalar = true)
    (hrule : ch.Every (rule S) jumps) (hc : c.Nested jumps) (hmake : Makes (Lower.chain c ch) code)
    (hm : Matches w.types s.slots locals) :
    Stmt.allScalar xs = true ∧ Stmt.EveryIn (rule S) jumps xs ∧ t = s ∧ ∃ c' code' Q,
      c'.Nested jumps ∧ Makes (Lower.stmts c' xs) code' ∧
      Comes arity (P.at locals (code.getD [])) (.running (Place.at Q locals code')) := by
  induction h generalizing c code P with
  | @first p q e xs rest s t htrue =>
    simp only [Chain.isScalar, Bool.and_eq_true] at hx
    obtain ⟨test,htest,hdecides⟩ := hf.decides c hx.1.1 hrule.2.1 hrule.1
    obtain ⟨yes,hyes,-⟩ :=
      block_lowered hf (.mk q xs) jumps (c.inside 1) hx.1.2 hrule.2.2.1 (hc.inside 1)
    obtain ⟨no,hno,-⟩ :=
      chain_lowered hf rest jumps (c.inside 1) hx.2 hrule.2.2.2 (hc.inside 1)
    cases hmake.unique (htest.bind (hyes.bind hno.map))
    obtain ⟨rfl,hputs⟩ := hdecides.puts hm htrue
    refine ⟨hx.1.2,hrule.2.2.1,rfl,c.inside 1,yes,
      ⟨[], ⟨none, 0, P.stack, P.rest⟩ :: P.frames, []⟩,hc.inside 1,hyes,?_⟩
    rw [Option.getD_some,Place.at,List.append_assoc]
    refine hputs.comes (.of_step ?_)
    simp [step_cond, Place.at]
  | @later p e b rest xs s t u hfalse _ ih =>
    simp only [Chain.isScalar, Bool.and_eq_true] at hx
    obtain ⟨test,htest,hdecides⟩ := hf.decides c hx.1.1 hrule.2.1 hrule.1
    obtain ⟨yes,hyes,-⟩ :=
      block_lowered hf b jumps (c.inside 1) hx.1.2 hrule.2.2.1 (hc.inside 1)
    obtain ⟨no,hno,-⟩ :=
      chain_lowered hf rest jumps (c.inside 1) hx.2 hrule.2.2.2 (hc.inside 1)
    cases hmake.unique (htest.bind (hyes.bind hno.map))
    obtain ⟨rfl,hputs⟩ := hdecides.puts hm hfalse
    obtain ⟨hxs,hevery,rfl,c',code',Q,hc',hmake',hcomes⟩ :=
      ih ⟨[], ⟨none, 0, P.stack, P.rest⟩ :: P.frames, []⟩ hx.2 hrule.2.2.2 (hc.inside 1) hno hm
    refine ⟨hxs,hevery,rfl,c',code',Q,hc',hmake',?_⟩
    rw [Option.getD_some,Place.at,List.append_assoc]
    refine hputs.comes (.step_trans (step_cond false) ?_)
    simpa [Place.at] using hcomes
  | @last q xs s =>
    obtain ⟨code',hmake',-⟩ := stmts_lowered hf xs jumps c hx hrule hc
    have hblock : Makes (Lower.block c (.mk q xs)) code' := hmake'
    cases hmake.unique hblock.map
    exact ⟨hx,hrule,rfl,c,code',P,hc,hmake',.refl _⟩

/-- Wherever a run comes to a boundary of its statements, the machine comes to the code of what is left
there, and its locals show the slots. -/
theorem visits_reaches (hf : Fits arity w S) {xs : List Stmt} {s t : State} (h : Visits w xs s rest t)
     {code : List Instr} (P : Place) (hx : Stmt.allScalar xs = true)
    (hrule : Stmt.EveryIn (rule S) jumps xs) (hc : c.Nested jumps) (hmake : Makes (Lower.stmts c xs) code)
    (hm : Matches w.types s.slots locals) : Reaches arity w.types (P.at locals code) rest t := by
  induction h generalizing jumps c code locals P with
  | here xs s => exact ⟨c,code,P,locals,hmake,hm,.refl _⟩
  | @after x xs rest s t u hdone _ ih =>
    have hx := Bool.and_eq_true_iff.mp hx
    obtain ⟨first,hfirst,hcarries⟩ := stmt_lowered hf x jumps c hx.1 hrule.1 hc
    obtain ⟨second,hsecond,-⟩ := stmts_lowered hf xs jumps c hx.2 hrule.2 hc
    cases hmake.unique (hfirst.bind hsecond.map)
    have hrun := hcarries s locals ⟨P.stack, P.frames, second ++ P.rest⟩ hm
    rw [hdone] at hrun
    obtain ⟨-,locals',hm',hcomes⟩ := hrun
    rw [Place.at,← List.append_assoc] at hcomes
    exact .of_comes hcomes (ih P hx.2 hrule.2 hc hsecond hm')
  | @branch p ch xs ys rest s t u hchooses _ ih =>
    have hx := Bool.and_eq_true_iff.mp hx
    obtain ⟨first,hfirst,-⟩ := chain_lowered hf ch jumps c hx.1 hrule.1.2 hc
    obtain ⟨second,hsecond,-⟩ := stmts_lowered hf xs jumps c hx.2 hrule.2 hc
    have hcond : Makes (Lower.stmt c (.cond p ch)) (first.getD []) := hfirst.map
    cases hmake.unique (hcond.bind hsecond.map)
    obtain ⟨hys,hevery,rfl,c',code',Q,hc',hmake',hcomes⟩ := chooses_comes hf hchooses
      ⟨P.stack, P.frames, second ++ P.rest⟩ hx.1 hrule.1.2 hc hfirst hm
    rw [Place.at,← List.append_assoc] at hcomes
    exact .of_comes hcomes (ih Q hys hevery hc' hmake' hm)
  | @inLoop p q e xs ys rest s t u v hrounds htrue _ ih =>
    have hx := Bool.and_eq_true_iff.mp hx
    have hloop := Bool.and_eq_true_iff.mp hx.1
    obtain ⟨test,htest,hdecides⟩ := hf.decides (c.inside 2) hloop.1 hrule.1.2.1 hrule.1.1
    obtain ⟨body,hbody,hcarries⟩ :=
      block_lowered hf (.mk q ys) true c.insideLoop hloop.2 hrule.1.2.2 (.insideLoop c)
    obtain ⟨second,hsecond,-⟩ := stmts_lowered hf xs jumps c hx.2 hrule.2 hc
    have hwhile : Makes (Lower.stmt c (.loop p e (.mk q ys))) (Lower.whileCode test body) :=
      htest.bind hbody.map
    cases hmake.unique (hwhile.bind hsecond.map)
    let Q : Place := ⟨P.stack, P.frames, second ++ P.rest⟩
    obtain ⟨locals',hm',hcomes⟩ := rounds_come Q hdecides hcarries hrounds hm
    obtain ⟨rfl,hputs⟩ := hdecides.puts hm' htrue
    refine .of_comes (.step_trans rfl (.step_trans rfl (hcomes.trans (enter_body Q hputs)))) ?_
    exact ih _ hloop.2 hrule.1.2.2 (.insideLoop c) hbody hm'

theorem block_reaches (hf : Fits arity w S) {b : Block} {s t : State}
    (h : Visits w b.statements s rest t) {code : List Instr} (P : Place)
    (hx : b.isScalar = true) (hrule : b.Every (rule S) jumps) (hc : c.Nested jumps)
    (hmake : Makes (Lower.block c b) code) (hm : Matches w.types s.slots locals) :
    Reaches arity w.types (P.at locals code) rest t := by
  cases b with
  | mk pos xs => exact visits_reaches hf h P hx hrule hc hmake hm

end Covenant.Scalar
