import Covenant.Proofs.Renaming.Types

/-! Two runs of checking side by side, the second on renamed trees. What is in scope and what comes out of a
step is the same up to the renaming; how the findings compare is left open, and so are the policies. -/

namespace Covenant

section

variable (ρ : Renaming)

def Frame.rename (f : Frame) : Frame := { f with symbols := f.symbols.map (Symbol.rename ρ) }

def Scope.rename (s : Scope) : Scope :=
  ⟨s.globals.map (Symbol.rename ρ), s.frames.map (Frame.rename ρ), s.slots.map (Ty.rename ρ)⟩

namespace Check

def Signature.rename (s : Signature) : Signature :=
  ⟨ρ.function s.name, s.params.map (Ty.rename ρ), s.result.map (Ty.rename ρ)⟩

def Current.rename (c : Current) : Current := ⟨ρ.function c.name, c.result.map (Ty.rename ρ)⟩

def Env.rename (policy : Policy) (env : Env) : Env where
  policy := policy
  functions := env.functions.map (Signature.rename ρ)
  records := env.records.map (RecordDecl.rename ρ)
  enums := env.enums.map (EnumDecl.rename ρ)
  current := env.current.map (Current.rename ρ)

end Check

end

variable {ρ : Renaming}

theorem Frame.find?_rename [ρ.Faithful] (f : Frame) (x : String) :
    (f.rename ρ).find? (ρ.var x) = (f.find? x).map (Symbol.rename ρ) :=
  Covenant.find?_rename (f := Symbol.rename ρ) (g := Symbol.name) ρ.var_injective (fun _ => rfl) x f.symbols

namespace Scope

variable (s : Scope) (x : String)

theorem findIn?_rename [ρ.Faithful] (fs : List Frame) :
    findIn? (fs.map (Frame.rename ρ)) (ρ.var x) = (findIn? fs x).map (Symbol.rename ρ) := by
  induction fs with
  | nil => rfl
  | cons f fs ih =>
    rw [findIn?] at ih
    rw [findIn?,findIn?,List.map_cons,List.findSome?_cons,List.findSome?_cons,Frame.find?_rename,ih]
    cases f.find? x <;> rfl

theorem findGlobal?_rename [ρ.Faithful] :
    (s.rename ρ).findGlobal? (ρ.var x) = (s.findGlobal? x).map (Symbol.rename ρ) :=
  find?_rename (f := Symbol.rename ρ) (g := Symbol.name) ρ.var_injective (fun _ => rfl) x s.globals

theorem get?_rename [ρ.Faithful] : (s.rename ρ).get? (ρ.var x) = (s.get? x).map (Symbol.rename ρ) := by
  rw [get?,get?,findGlobal?_rename,Scope.rename,findIn?_rename]
  cases findIn? s.frames x <;> rfl

theorem getOuter?_rename [ρ.Faithful] :
    (s.rename ρ).getOuter? (ρ.var x) = (s.getOuter? x).map (Symbol.rename ρ) := by
  rw [getOuter?,getOuter?,← findIn?_rename,List.map_tail]
  rfl

theorem inNestedBody_rename : (s.rename ρ).inNestedBody = s.inNestedBody := by
  rw [inNestedBody,inNestedBody,Scope.rename,List.head?_map]
  cases s.frames.head? <;> rfl

theorem pop_rename : s.pop.rename ρ = (s.rename ρ).pop := by
  simp only [pop, Scope.rename, List.map_tail]

theorem declare_rename (t : Ty) (k : SymbolKind) (m : Bool) :
    (s.rename ρ).declare (ρ.var x) (t.rename ρ) k m =
      ((s.declare x t k m).1.rename ρ, (s.declare x t k m).2.rename ρ) := by
  obtain ⟨globals,frames,slots⟩ := s
  cases frames <;> simp [declare, allocate, Scope.rename, Symbol.rename, Frame.rename]

end Scope

def Problem.isHiding : Problem → Bool
  | .hides _ _ => true
  | _ => false

/-- Neither a hidden name nor a literal that is out of range. -/
def Problem.isOrdinary : Problem → Bool
  | .hides _ _ | .literalRange => false
  | _ => true

theorem Problem.isHiding_of_isOrdinary {p : Problem} (h : p.isOrdinary = true) : p.isHiding = false := by
  cases p <;> first | rfl | cases h

def Caution.isHiding : Caution → Bool
  | .hides _ _ => true
  | _ => false

namespace Check

structure Findings where
  errors : List Diagnostic
  warnings : List Warning
  deriving DecidableEq, Repr

namespace Findings

def report (f : Findings) (p : Problem) (pos : Pos) : Findings :=
  { f with errors := f.errors ++ [⟨p, pos⟩] }

def warn (f : Findings) (c : Caution) (pos : Pos) : Findings :=
  { f with warnings := f.warnings ++ [⟨c, pos⟩] }

def hide (f : Findings) (policy : Policy) (word : Keyword) (x : String) (pos : Pos) : Findings :=
  match policy with
  | .allow => f
  | .warn => f.warn (.hides word x) pos
  | .error => f.report (.hides word x) pos

end Findings

def State.findings (s : State) : Findings := ⟨s.errors, s.warnings⟩

/-- How the findings of two runs under given policies compare, step by step. -/
structure Watch (ρ : Renaming) where
  first : Policy
  second : Policy
  Holds : Findings → Findings → Prop
  start : Holds ⟨[], []⟩ ⟨[], []⟩
  report : ∀ {f g p}, p.isHiding = false → Holds f g → ∀ pos,
    Holds (f.report p pos) (g.report (p.rename ρ) (ρ.place pos))
  warn : ∀ {f g c}, c.isHiding = false → Holds f g → ∀ pos,
    Holds (f.warn c pos) (g.warn (c.rename ρ) (ρ.place pos))
  hide : ∀ {f g}, Holds f g → ∀ word x pos,
    Holds (f.hide first word x pos) (g.hide second word (ρ.var x) (ρ.place pos))

/-- Under one policy the second run finds what the first one does, renamed. -/
def Watch.exact (ρ : Renaming) (policy : Policy) : Watch ρ where
  first := policy
  second := policy
  Holds f g := g.errors = f.errors.map (Diagnostic.rename ρ) ∧ g.warnings = f.warnings.map (Warning.rename ρ)
  start := ⟨rfl,rfl⟩
  report _ h pos := by
    simp only [Findings.report, List.map_append, h.1]
    exact ⟨rfl,h.2⟩
  warn _ h pos := by
    simp only [Findings.warn, List.map_append, h.2]
    exact ⟨h.1,rfl⟩
  hide h word x pos := by
    cases policy with
    | allow => exact h
    | warn =>
      simp only [Findings.hide, Findings.warn, List.map_append, h.2]
      exact ⟨h.1,rfl⟩
    | error =>
      simp only [Findings.hide, Findings.report, List.map_append, h.1]
      exact ⟨rfl,h.2⟩

variable {W : Watch ρ}

structure Sim (W : Watch ρ) (s s' : State) : Prop where
  scope : s'.scope = s.scope.rename ρ
  loops : s'.loops = s.loops
  stray : s'.strayReturn = s.strayReturn
  findings : W.Holds s.findings s'.findings

theorem Sim.initial : Sim W .initial .initial := ⟨rfl,rfl,rfl,W.start⟩

def Carries {α β : Type} (W : Watch ρ) (f : α → β) (m : Checking α) (m' : Checking β) : Prop :=
  ∀ s s', Sim W s s' → (m' s').1 = f (m s).1 ∧ Sim W (m s).2 (m' s').2

namespace Carries

variable {α β γ δ : Type} {f : α → β} {g : γ → δ} {m k : Checking α} {m' k' : Checking β}

theorem pure {a : α} {b : β} (h : b = f a) : Carries W f (pure a) (pure b) :=
  fun _ _ hs => ⟨h,hs⟩

theorem bind_of {P : α → Prop} {n : α → Checking γ} {n' : β → Checking δ} (hm : Carries W f m m')
    (hP : ∀ s, P (m s).1) (hn : ∀ a, P a → Carries W g (n a) (n' (f a))) :
    Carries W g (m >>= n) (m' >>= n') := by
  intro s s' hs
  have hnext := hn (m s).1 (hP s)
  obtain ⟨ha,hs⟩ := hm s s' hs
  rw [← ha] at hnext
  exact hnext _ _ hs

theorem bind {n : α → Checking γ} {n' : β → Checking δ} (hm : Carries W f m m')
    (hn : ∀ a, Carries W g (n a) (n' (f a))) : Carries W g (m >>= n) (m' >>= n') :=
  hm.bind_of (P := fun _ => True) (fun _ => trivial) fun a _ => hn a

theorem map {r : α → γ} {r' : β → δ} (hm : Carries W f m m') (hr : ∀ a, r' (f a) = g (r a)) :
    Carries W g (r <$> m) (r' <$> m') := by
  intro s s' hs
  obtain ⟨ha,hs⟩ := hm s s' hs
  exact ⟨(congrArg r' ha).trans (hr _),hs⟩

theorem ite {P Q : Prop} [Decidable P] [Decidable Q] (hPQ : Q ↔ P) (hm : Carries W f m m')
    (hk : Carries W f k k') : Carries W f (if P then m else k) (if Q then m' else k') := by
  by_cases hP : P
  · rw [if_pos hP,if_pos (hPQ.mpr hP)]
    exact hm
  · rw [if_neg hP,if_neg (hPQ.not.mpr hP)]
    exact hk

theorem get {n : State → Checking γ} {n' : State → Checking δ}
    (h : ∀ t t', Sim W t t' → Carries W g (n t) (n' t')) :
    Carries W g (MonadState.get >>= n) (MonadState.get >>= n') :=
  fun s s' hs => h s s' hs s s' hs

theorem modify {u u' : State → State} (h : ∀ s s', Sim W s s' → Sim W (u s) (u' s')) :
    Carries W id (modify u) (modify u') :=
  fun s s' hs => ⟨rfl,h s s' hs⟩

end Carries

theorem report_carries {p : Problem} (hp : p.isHiding = false) (pos : Pos) :
    Carries W (Ty.rename ρ) (report p pos) (report (p.rename ρ) (ρ.place pos)) := by
  intro s s' hs
  exact ⟨rfl,hs.scope,hs.loops,hs.stray,W.report hp hs.findings pos⟩

theorem reportIf_carries {p : Problem} {bad bad' : Bool} (hbad : bad' = bad) (hp : p.isHiding = false)
    (pos : Pos) : Carries W id (reportIf bad p pos) (reportIf bad' (p.rename ρ) (ρ.place pos)) := by
  subst hbad
  cases bad' with
  | true => exact (report_carries hp pos).bind fun _ => .pure rfl
  | false => exact .pure rfl

theorem warn_carries {c : Caution} (hc : c.isHiding = false) (pos : Pos) :
    Carries W id (warn c pos) (warn (c.rename ρ) (ρ.place pos)) := by
  intro s s' hs
  exact ⟨rfl,hs.scope,hs.loops,hs.stray,W.warn hc hs.findings pos⟩

theorem pushFrame_carries (nested : Bool) : Carries W id (pushFrame nested) (pushFrame nested) :=
  .modify fun s s' hs => ⟨by rw [hs.scope]; rfl,hs.loops,hs.stray,hs.findings⟩

theorem popFrame_carries : Carries W id popFrame popFrame :=
  .modify fun s s' hs => ⟨by rw [hs.scope,Scope.pop_rename],hs.loops,hs.stray,hs.findings⟩

theorem inFrame_carries {α β : Type} {f : α → β} {m : Checking α} {m' : Checking β} (nested : Bool)
    (hm : Carries W f m m') : Carries W f (inFrame nested m) (inFrame nested m') :=
  .bind (pushFrame_carries nested) fun _ => .bind hm fun _ => .bind popFrame_carries fun _ => .pure rfl

theorem inLoop_carries {α β : Type} {f : α → β} {m : Checking α} {m' : Checking β}
    (hm : Carries W f m m') : Carries W (Prod.map f id) (inLoop m) (inLoop m') := by
  intro s s' hs
  have hstart : Sim W { s with loops := false :: s.loops } { s' with loops := false :: s'.loops } :=
    ⟨hs.scope,congrArg (List.cons false) hs.loops,hs.stray,hs.findings⟩
  obtain ⟨ha,hend⟩ := hm _ _ hstart
  refine ⟨Prod.ext ha ?_,hend.scope,congrArg List.tail hend.loops,hend.stray,hend.findings⟩
  exact congrArg (List.headD · false) hend.loops

theorem lookup_carries [ρ.Faithful] (x : String) :
    Carries W (Option.map (Symbol.rename ρ)) (lookup x) (lookup (ρ.var x)) :=
  .get fun s s' hs => .pure (by rw [hs.scope,Scope.get?_rename])

theorem declare_carries (x : String) (t : Ty) (k : SymbolKind) (m : Bool) :
    Carries W (Symbol.rename ρ) (declare x t k m) (declare (ρ.var x) (t.rename ρ) k m) := by
  intro s s' hs
  have hdeclared := Scope.declare_rename (ρ := ρ) s.scope x t k m
  rw [← hs.scope] at hdeclared
  refine ⟨?_,?_,hs.loops,hs.stray,hs.findings⟩
  · exact congrArg Prod.fst hdeclared
  · exact congrArg Prod.snd hdeclared

def State.hidesOuter (s : State) (x : String) : Bool :=
  s.scope.inNestedBody && ((s.scope.getOuter? x).isSome || (s.scope.findGlobal? x).isSome)

def State.found (s : State) (f : Findings) : State := { s with errors := f.errors, warnings := f.warnings }

theorem reportHiding_run (env : Env) (word : Keyword) (x : String) (pos : Pos) (s : State) :
    reportHiding env word x pos s =
      ((), if s.hidesOuter x then s.found (s.findings.hide env.policy word x pos) else s) := by
  change (ite (s.hidesOuter x = true) _ _ : Checking Unit) s = _
  cases s.hidesOuter x with
  | false => rfl
  | true => cases env.policy <;> rfl

theorem reportHiding_carries [ρ.Faithful] {env : Env} (henv : env.policy = W.first) (word : Keyword)
    (x : String) (pos : Pos) : Carries W id (reportHiding env word x pos)
      (reportHiding (env.rename ρ W.second) word (ρ.var x) (ρ.place pos)) := by
  intro s s' hs
  have hhides : s'.hidesOuter (ρ.var x) = s.hidesOuter x := by
    rw [State.hidesOuter,hs.scope,Scope.inNestedBody_rename,Scope.getOuter?_rename,Scope.findGlobal?_rename,
      Option.isSome_map,Option.isSome_map]
    rfl
  rw [reportHiding_run,reportHiding_run,hhides]
  refine ⟨rfl,?_⟩
  dsimp only
  split
  · exact ⟨hs.scope,hs.loops,hs.stray,henv ▸ W.hide hs.findings word x pos⟩
  · exact hs

end Check

end Covenant
