import Covenant.Proofs.Renaming.Checking

/-! Checking a body depends on what is in scope and on what the declarations say, not on the order of the
declarations and not on what was found before. -/

namespace Covenant.Check

structure Log where
  errors : List Diagnostic
  warnings : List Warning
  strayReturn : Bool

def State.after (l : Log) (s : State) : State :=
  { s with
    errors := l.errors ++ s.errors
    warnings := l.warnings ++ s.warnings
    strayReturn := l.strayReturn || s.strayReturn }

section

variable {α β : Type}

/-- The second check does what the first one does, whatever was found before. Loops are left as they were
entered, and the constants are the same if they are `fixed`. -/
structure Follows (fixed : Prop) (m m' : Checking α) : Prop where
  run : ∀ l s, m'.run (s.after l) = ((m.run s).1,(m.run s).2.after l)
  loops : ∀ s, (m.run s).2.loops.length = s.loops.length
  globals : fixed → ∀ s, (m.run s).2.scope.globals = s.scope.globals

namespace Follows

variable {fixed : Prop} {m m' k k' : Checking α} {n n' : α → Checking β}

protected theorem pure (a : α) : Follows fixed (pure a) (pure a) :=
  ⟨fun _ _ => rfl,fun _ => rfl,fun _ _ => rfl⟩

protected theorem bind (hm : Follows fixed m m') (hn : ∀ a, Follows fixed (n a) (n' a)) :
    Follows fixed (m >>= n) (m' >>= n') where
  run l s := by
    rw [StateT.run_bind,StateT.run_bind,hm.run]
    exact (hn _).run l _
  loops s := ((hn _).loops _).trans (hm.loops s)
  globals h s := ((hn _).globals h _).trans (hm.globals h s)

protected theorem ite (P : Prop) [Decidable P] (hm : Follows fixed m m') (hk : Follows fixed k k') :
    Follows fixed (if P then m else k) (if P then m' else k') := by
  split
  · exact hm
  · exact hk

protected theorem get {n n' : State → Checking β} (h : ∀ l s, Follows fixed (n s) (n' (s.after l))) :
    Follows fixed (get >>= n) (get >>= n') where
  run l s := (h l s).run l s
  loops s := (h ⟨[],[],false⟩ s).loops s
  globals hfixed s := (h ⟨[],[],false⟩ s).globals hfixed s

theorem mono (hm : Follows True m m') : Follows fixed m m' :=
  ⟨hm.run,hm.loops,fun _ => hm.globals trivial⟩

end Follows

theorem report_follows (p : Problem) (pos : Pos) : Follows True (report p pos) (report p pos) where
  run l s := by
    have happend : l.errors ++ s.errors ++ [⟨p,pos⟩] = l.errors ++ (s.errors ++ [⟨p,pos⟩]) :=
      List.append_assoc _ _ _
    exact congrArg (fun es => (Ty.error,{ s.after l with errors := es })) happend
  loops _ := rfl
  globals _ _ := rfl

theorem reportIf_follows (bad : Bool) (p : Problem) (pos : Pos) :
    Follows True (reportIf bad p pos) (reportIf bad p pos) :=
  .ite _ (.bind (report_follows p pos) fun _ => .pure ()) (.pure ())

theorem warn_follows (c : Caution) (pos : Pos) : Follows True (warn c pos) (warn c pos) where
  run l s := by
    have happend : l.warnings ++ s.warnings ++ [⟨c,pos⟩] = l.warnings ++ (s.warnings ++ [⟨c,pos⟩]) :=
      List.append_assoc _ _ _
    exact congrArg (fun ws => ((),{ s.after l with warnings := ws })) happend
  loops _ := rfl
  globals _ _ := rfl

theorem modifyScope_follows {fixed : Prop} {f : Scope → Scope} (h : fixed → ∀ c, (f c).globals = c.globals) :
    Follows fixed (modify fun s : State => { s with scope := f s.scope })
      (modify fun s : State => { s with scope := f s.scope }) :=
  ⟨fun _ _ => rfl,fun _ => rfl,fun hfixed s => h hfixed s.scope⟩

theorem inFrame_follows {m m' : Checking α} (nested : Bool) (hm : Follows True m m') :
    Follows True (inFrame nested m) (inFrame nested m') :=
  .bind (modifyScope_follows (f := (·.push nested)) fun _ _ => rfl) fun _ => .bind hm fun a =>
    .bind (modifyScope_follows (f := Scope.pop) fun _ _ => rfl) fun _ => .pure a

theorem inLoop_follows {m m' : Checking α} (hm : Follows True m m') : Follows True (inLoop m) (inLoop m') where
  run l s := by
    let leave (r : α × State) : (α × Bool) × State :=
      ((r.1,r.2.loops.headD false),{ r.2 with loops := r.2.loops.tail })
    exact congrArg leave (hm.run l { s with loops := false :: s.loops })
  loops s := by
    have hloops : (m.run { s with loops := false :: s.loops }).2.loops.length = s.loops.length + 1 :=
      hm.loops { s with loops := false :: s.loops }
    exact List.length_tail.trans (congrArg (· - 1) hloops)
  globals _ s := hm.globals trivial { s with loops := false :: s.loops }

theorem lookup_follows (x : String) : Follows True (lookup x) (lookup x) :=
  .get fun _ _ => .pure _

theorem declare_follows (x : String) (t : Ty) (k : SymbolKind) (b : Bool) :
    Follows True (declare x t k b) (declare x t k b) :=
  ⟨fun _ _ => rfl,fun _ => rfl,fun _ _ => rfl⟩

end

/-- Two environments that say the same of every name. -/
structure Env.Agrees (env env' : Env) : Prop where
  policy : env'.policy = env.policy
  current : env'.current = env.current
  function? : ∀ f, env'.function? f = env.function? f
  record? : ∀ r, env'.record? r = env.record? r
  enum? : ∀ e, env'.enum? e = env.enum? e

section Steps

variable {env env' : Env}

theorem reportHiding_follows (h : env.Agrees env') (word : Keyword) (x : String) (pos : Pos) :
    Follows True (reportHiding env word x pos) (reportHiding env' word x pos) := by
  refine .get fun l s => .ite _ ?_ (.pure ())
  rw [h.policy]
  cases env.policy with
  | allow => exact .pure ()
  | warn => exact warn_follows _ pos
  | error => exact .bind (report_follows _ pos) fun _ => .pure ()

theorem strayReturn_follows : Follows True (modify fun s : State => { s with strayReturn := true })
    (modify fun s : State => { s with strayReturn := true }) where
  run l s := by
    have hstray : (l.strayReturn || true) = true := Bool.or_true _
    exact congrArg (fun b => ((),{ s.after l with strayReturn := b })) hstray.symm
  loops _ := rfl
  globals _ _ := rfl

theorem leave_run (pos : Pos) (s : State) : (stmt env (.leave pos)).run s = ((.leave pos,true),
    match s.loops with
    | [] => { s with errors := s.errors ++ [⟨.outsideLoop .breakWord,pos⟩] }
    | _ :: outer => { s with loops := true :: outer }) := by
  obtain ⟨scope,errors,warnings,loops,stray⟩ := s
  cases loops <;> rfl

theorem leave_follows (pos : Pos) : Follows True (stmt env (.leave pos)) (stmt env' (.leave pos)) where
  run l s := by
    obtain ⟨scope,errors,warnings,loops,stray⟩ := s
    rw [leave_run,leave_run]
    cases loops with
    | nil => simp [State.after]
    | cons left outer => rfl
  loops s := by
    obtain ⟨scope,errors,warnings,loops,stray⟩ := s
    cases loops <;> rfl
  globals _ s := by
    rw [leave_run]
    cases s.loops <;> rfl

theorem next_follows (pos : Pos) : Follows True (stmt env (.next pos)) (stmt env' (.next pos)) :=
  .get fun _ _ => .bind (reportIf_follows _ _ _) fun _ => .pure _

end Steps

section Trees

variable {α β : Type} {env env' : Env}

theorem Follows.same {m m' : Checking α} {f : α → α} (h : Follows True m m') (hf : f = id) :
    Follows True (f <$> m) m' := by
  rw [hf,id_map]
  exact h

def Follows.coupling (h : env.Agrees env') : Coupling .same env env' where
  alike := Env.alike_same h.current h.function? h.record? h.enum?
  Rel _ f m m' := Follows True (f <$> m) m'
  pure h := by
    rw [map_pure,h]
    exact .pure _
  bind hm hn := {
    run := fun l s => by
      rw [StateT.run_bind,hm.run]
      exact (hn _).run l _
    loops := fun s => ((hn _).loops _).trans (hm.loops s)
    globals := fun h s => ((hn _).globals h _).trans (hm.globals h s) }
  report _ pos := by
    rw [Problem.rename_same]
    exact (report_follows _ pos).same Ty.rename_same_eq_id
  range pos := (report_follows _ pos).same Ty.rename_same_eq_id
  warn _ pos := by
    rw [Caution.rename_same]
    exact (warn_follows _ pos).same rfl
  hide word x pos := (reportHiding_follows h word x pos).same rfl
  lookup x := (lookup_follows x).same (by simp)
  declare x t k b := by
    rw [Ty.rename_same]
    exact (declare_follows x t k b).same Symbol.rename_same_eq_id
  inFrame nested hm := inFrame_follows nested hm
  inLoop hm := inLoop_follows hm
  leave pos := (leave_follows pos).same (by rw [funext Stmt.rename_same]; rfl)
  next pos := (next_follows pos).same (by rw [funext Stmt.rename_same]; rfl)
  stray _ := strayReturn_follows.same rfl
  inside _ hm := hm

theorem resolveType_follows (h : env.Agrees env') (t : Ty) (pos : Pos) :
    Follows True (resolveType env t pos) (resolveType env' t pos) := by
  have hrel := resolveType_related (C := Follows.coupling h) t pos
  simpa [Follows.coupling] using hrel

theorem value_follows (h : env.Agrees env') (e : Expr) :
    Follows True (needValue e.pos (expr env e)) (needValue e.pos (expr env' e)) := by
  have hrel := (expr_related (C := Follows.coupling h) e).value
  have hsame : renameTyped .same = id := funext fun r => by simp [renameTyped]
  simpa [Follows.coupling, hsame] using hrel

theorem stmts_follow (h : env.Agrees env') (ss : List Stmt) (ended warned : Bool) :
    Follows True (stmts env ended warned ss) (stmts env' ended warned ss) := by
  have hrel := stmts_related (C := Follows.coupling h) ss ended warned
  have hsame : Stmt.renameIn .same = id := funext Stmt.renameIn_same
  simpa [Follows.coupling, hsame] using hrel

end Trees

end Covenant.Check
