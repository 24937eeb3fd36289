import Covenant.Proofs.Lower.Validity
import Covenant.Proofs.Renaming.Program
import Covenant.Proofs.Scoping.Program

/-! Where names are hidden. Going through the body of a function with nothing but names in sight finds each
`let` and `for` of a nested body whose name is known outside of that body; these are the ones that checking
warns of. What is done about them changes nothing else: the renaming that changes nothing keeps two runs of checking
together whose findings differ in nothing but hidden names. -/

namespace Covenant

/-- The error that a hidden name is when it is not just a warning. -/
def Warning.toError? (w : Warning) : Option Diagnostic :=
  match w.caution with
  | .hides word x => some ⟨.hides word x, w.pos⟩
  | _ => none

theorem Warning.toError?_eq_none {c : Caution} (h : c.isHiding = false) (pos : Pos) :
    toError? ⟨c,pos⟩ = none := by
  cases c <;> first | rfl | cases h

theorem Warning.toError?_isSome (w : Warning) : w.toError?.isSome = w.caution.isHiding := by
  obtain ⟨c,pos⟩ := w
  cases c <;> rfl

@[simp] theorem Problem.isHiding_hides (word : Keyword) (x : String) : (hides word x).isHiding = true := rfl

@[simp] theorem Caution.isHiding_hides (word : Keyword) (x : String) : (hides word x).isHiding = true := rfl

namespace Check

structure Findings.Under (policy : Policy) (f g : Findings) : Prop where
  errors : g.errors.filter (!·.problem.isHiding) = f.errors
  warnings : g.warnings.filter (!·.caution.isHiding) = f.warnings.filter (!·.caution.isHiding)
  hiddenErrors : g.errors.filter (·.problem.isHiding) =
    if policy = .error then f.warnings.filterMap Warning.toError? else []
  hiddenWarnings : g.warnings.filter (·.caution.isHiding) =
    if policy = .warn then f.warnings.filter (·.caution.isHiding) else []

def Watch.warned (policy : Policy) : Watch .same where
  first := .warn
  second := policy
  Holds := Findings.Under policy
  start := ⟨rfl,rfl,by simp,by simp⟩
  report hp h pos := by
    obtain ⟨herrors,hwarnings,hhidden,hhidden'⟩ := h
    exact ⟨by simp [Findings.report, Problem.rename_same, hp, herrors],hwarnings,
      by simp [Findings.report, Problem.rename_same, hp, hhidden],hhidden'⟩
  warn hc h pos := by
    obtain ⟨herrors,hwarnings,hhidden,hhidden'⟩ := h
    refine ⟨herrors,by simp [Findings.warn, Caution.rename_same, hc, hwarnings],?_,
      by simp [Findings.warn, Caution.rename_same, hc, hhidden']⟩
    simpa [Findings.warn, Warning.toError?_eq_none hc] using hhidden
  hide h word x pos := by
    obtain ⟨herrors,hwarnings,hhidden,hhidden'⟩ := h
    cases policy with
    | allow => exact ⟨herrors,by simpa [Findings.hide, Findings.warn] using hwarnings,hhidden,hhidden'⟩
    | warn =>
      refine ⟨herrors,?_,hhidden,?_⟩
      · simpa [Findings.hide, Findings.warn] using hwarnings
      · simpa [Findings.hide, Findings.warn] using hhidden'
    | error =>
      refine ⟨?_,?_,?_,hhidden'⟩
      · simpa [Findings.hide, Findings.report, Findings.warn] using herrors
      · simpa [Findings.hide, Findings.warn, Findings.report] using hwarnings
      · simp only [if_true] at hhidden
        simp [Findings.hide, Findings.warn, Findings.report, hhidden, Warning.toError?, List.filter_cons]

end Check

def Checked.findings (c : Checked) : Check.Findings := ⟨c.errors, c.warnings⟩

theorem Program.check_under (policy : Policy) (p : Program) :
    (p.check policy).program = (p.check .warn).program ∧
      (p.check policy).strayReturn = (p.check .warn).strayReturn ∧
      Check.Findings.Under policy (p.check .warn).findings (p.check policy).findings := by
  obtain ⟨hprogram,hend⟩ := Check.program_carries (W := .warned policy) p _ _ .initial
  rw [p.rename_same] at hprogram hend
  exact ⟨hprogram.trans (Program.rename_same _),hend.stray,hend.findings⟩

theorem Program.prepared_under (z : Optimize.Solver) (o : Options) (policy : Policy) (p : Program) :
    p.prepared z { o with shadowing := policy } = p.prepared z { o with shadowing := .warn } := by
  simp only [prepared, (p.check_under policy).1]
  rfl

theorem Program.compile_bytes_of_accepted {z : Optimize.Solver} {o : Options} {p : Program}
    (h : (p.check o.shadowing).accepted = true) :
    (p.compile z o).map (·.bytes) = (((p.prepared z o).lower o).mapError .lower).map (·.bytes) := by
  simp only [Checked.accepted, Bool.and_eq_true, Bool.not_eq_true'] at h
  simp only [compile, h.1, h.2, prepared]
  simp only [Bool.not_true, Bool.false_eq_true, if_false]
  split <;> rename_i h <;> rw [h] <;> rfl

/-- The names at a place: those of the innermost body, those from around it, and what has been hidden so far. -/
structure Sight where
  inner : List String
  outer : List String
  nested : Bool
  hidden : List Warning
  deriving DecidableEq, Repr

namespace Sight

def declare (v : Sight) (word : Keyword) (x : String) (pos : Pos) : Sight where
  inner := x :: v.inner
  outer := v.outer
  nested := v.nested
  hidden := if v.nested && v.outer.contains x then v.hidden ++ [⟨.hides word x, pos⟩] else v.hidden

def bind (v : Sight) (p : Pattern) : Sight :=
  { v with inner := (p.form.binder?.map (·.name)).toList ++ v.inner }

def enter (v : Sight) : Sight := ⟨[], v.inner ++ v.outer, true, v.hidden⟩

def leave (v before : Sight) : Sight := { before with hidden := v.hidden }

end Sight

mutual

def Expr.sight : Expr → Sight → Sight
  | .int _ _, v | .bool _ _, v | .text _ _, v | .name _ _ _, v | .noneLit _, v | .enum _ _ _ _, v => v
  | .unary _ _ e, v | .field _ e _, v | .wrap _ _ e, v => e.sight v
  | .binary _ _ a b, v | .index _ a b, v => b.sight (a.sight v)
  | .call _ _ es, v | .array _ es, v => Expr.sightIn es v
  | .method _ e _ es _, v => Expr.sightIn es (e.sight v)
  | .record _ _ fs, v => FieldInit.sightIn fs v
  | .select _ e as, v => Arm.sightIn as (e.sight v)
  | .block _ ss none _, v => Stmt.sightIn ss v
  | .block _ ss (some e) _, v => e.sight (Stmt.sightIn ss v)

def Expr.sightIn : List Expr → Sight → Sight
  | [], v => v
  | e :: es, v => Expr.sightIn es (e.sight v)

def FieldInit.sightIn : List FieldInit → Sight → Sight
  | [], v => v
  | .mk _ _ e :: fs, v => FieldInit.sightIn fs (e.sight v)

/-- An arm is a nested body that starts with the names of its pattern. -/
def Arm.sightIn : List Arm → Sight → Sight
  | [], v => v
  | .mk _ p e :: as, v => Arm.sightIn as ((e.sight (v.enter.bind p)).leave v)

def Stmt.sight : Stmt → Sight → Sight
  | .bind pos x _ e _, v => (e.sight v).declare .letWord x pos
  | .assign _ a e, v => e.sight (a.sight v)
  | .ret _ none, v | .leave _, v | .next _, v => v
  | .ret _ (some e), v | .expr _ e, v => e.sight v
  | .cond _ c, v => c.sight v
  | .loop _ e b, v => b.sight (e.sight v)
  | .each pos x e (.mk _ ss) _, v =>
    (Stmt.sightIn ss ((e.sight v).enter.declare .forWord x pos)).leave (e.sight v)

def Stmt.sightIn : List Stmt → Sight → Sight
  | [], v => v
  | s :: ss, v => Stmt.sightIn ss (s.sight v)

def Block.sight : Block → Sight → Sight
  | .mk _ ss, v => (Stmt.sightIn ss v.enter).leave v

def Chain.sight : Chain → Sight → Sight
  | .stop, v => v
  | .otherwise b, v => b.sight v
  | .branch _ e b c, v => c.sight (b.sight (e.sight v))

end

/-- Goes through a function. Its body shares the frame of its parameters and is no nested body. -/
def FunctionDecl.hide (constants : List String) (hidden : List Warning) (d : FunctionDecl) : List Warning :=
  (Stmt.sightIn d.body.statements ⟨(d.params.map (·.name)).reverse, constants, false, hidden⟩).hidden

def Program.hidings (p : Program) : List Warning :=
  p.functions.foldl (FunctionDecl.hide (p.constants.map (·.name)).reverse) []

def Frame.names (f : Frame) : List String := f.symbols.map (·.name)

theorem Scope.isSome_findIn? (fs : List Frame) (x : String) :
    (findIn? fs x).isSome = (fs.flatMap Frame.names).contains x := by
  rw [Bool.eq_iff_iff]
  simp [findIn?, Frame.find?, Frame.names, List.findSome?_isSome_iff]

theorem Scope.isSome_findGlobal? (c : Scope) (x : String) :
    (c.findGlobal? x).isSome = (c.globals.map (·.name)).contains x := by
  rw [Bool.eq_iff_iff]
  simp [findGlobal?]

namespace Check

def State.sight (s : State) : Sight where
  inner := s.scope.frames.head?.elim [] Frame.names
  outer := s.scope.frames.tail.flatMap Frame.names ++ s.scope.globals.map (·.name)
  nested := s.scope.inNestedBody
  hidden := s.warnings.filter (·.caution.isHiding)

/-- Inside of a frame, a check that warns of hidden names leads from one sight to another. The frames around stay
as they are. -/
def Shows (env : Env) (f : Sight → Sight) (s u : State) : Prop :=
  env.policy = .warn → s.scope.frames ≠ [] → u.sight = f s.sight ∧ u.scope.frames ≠ [] ∧
    u.scope.frames.tail = s.scope.frames.tail ∧ u.scope.globals = s.scope.globals

section Shows

variable {env : Env} {f g : Sight → Sight} {s u v : State} {x : String} {pos : Pos}

theorem Shows.here : Shows env id s s := fun _ hs => ⟨rfl,hs,rfl,rfl⟩

theorem Shows.trans (h : Shows env f s u) (h' : Shows env g u v) : Shows env (g ∘ f) s v := by
  intro henv hs
  obtain ⟨hsight,hu,htail,hglobals⟩ := h henv hs
  obtain ⟨hsight',hv,htail',hglobals'⟩ := h' henv hu
  exact ⟨hsight'.trans (congrArg g hsight),hv,htail'.trans htail,hglobals'.trans hglobals⟩

theorem Shows.nested (h : Shows env f { s with scope := s.scope.push true } u) :
    Shows env (fun v => (f v.enter).leave v) s { u with scope := u.scope.pop } := by
  intro henv hs
  obtain ⟨hsight,-,htail,hglobals⟩ := h henv (List.cons_ne_nil _ _)
  have htail : u.scope.frames.tail = s.scope.frames := htail
  have henter : State.sight { s with scope := s.scope.push true } = s.sight.enter := by
    cases hframes : s.scope.frames with
    | nil => exact absurd hframes hs
    | cons => simp [State.sight, Scope.push, Sight.enter, Scope.inNestedBody, Frame.names, hframes]
  have hhidden : u.warnings.filter (·.caution.isHiding) = (f s.sight.enter).hidden := by
    rw [← henter,← hsight]
    rfl
  have hglobals : u.scope.globals = s.scope.globals := hglobals
  refine ⟨?_,fun hnil => hs (htail.symm.trans hnil),congrArg List.tail htail,hglobals⟩
  simp only [State.sight, Sight.leave, Scope.pop, Scope.inNestedBody, htail, hglobals, hhidden]

theorem Shows.bound (t : Ty) (k : SymbolKind) (m : Bool) :
    Shows env (fun v => { v with inner := x :: v.inner }) s { s with scope := (s.scope.declare x t k m).2 } := by
  intro _ hs
  cases hframes : s.scope.frames with
  | nil => exact absurd hframes hs
  | cons => simp [State.sight, Scope.declare, Scope.allocate, Scope.inNestedBody, Frame.names, hframes]

theorem Remarks.shows {b : Bool} {c : Caution} (hc : c.isHiding = false)
    (h : Remarks (if b then warn c pos else pure ()) s u) : Shows env id s u := by
  have hrun := h.run
  cases b with
  | false =>
    cases hrun
    exact .here
  | true =>
    cases hrun
    exact fun _ hs => ⟨by simp [State.sight, hc],hs,rfl,rfl⟩

theorem Remarks.declares {word : Keyword} (h : Remarks (reportHiding env word x pos) s u) (t : Ty) (k : SymbolKind)
    (m : Bool) : Shows env (·.declare word x pos) s { u with scope := (u.scope.declare x t k m).2 } := by
  intro henv hs
  have hrun := h.run
  have hfound : u.warnings.filter (·.caution.isHiding) = (s.sight.declare word x pos).hidden := by
    simp only [Sight.declare, State.sight, List.contains_append, ← Scope.isSome_findIn?, ← Scope.isSome_findGlobal?]
    have hreport : (reportHiding env word x pos).run s = (if s.scope.inNestedBody &&
        ((s.scope.getOuter? x).isSome || (s.scope.findGlobal? x).isSome) then warn (.hides word x) pos
        else pure () : Checking Unit).run s := by
      rw [reportHiding,henv]
      rfl
    rw [hreport,Scope.getOuter?] at hrun
    split at hrun
    · rename_i hhides
      cases hrun
      rw [if_pos hhides]
      simp
    · rename_i hhides
      cases hrun
      rw [if_neg hhides]
  obtain ⟨hsight,hne,htail,hglobals⟩ := Shows.bound (s := u) (x := x) t k m henv (h.scope.symm ▸ hs)
  refine ⟨hsight.trans ?_,hne,htail.trans (h.scope ▸ rfl),hglobals.trans (h.scope ▸ rfl)⟩
  simp only [State.sight, Sight.declare, h.scope] at hfound ⊢
  rw [hfound]

theorem PatternAccepted.shows {t : Ty} {p q : Pattern} (h : PatternAccepted env t s p q u) :
    Shows env (·.bind q) s u := by
  intro henv hs
  cases h with
  | plain _ _ hb =>
    refine ⟨?_,hs,rfl,rfl⟩
    simp only [Sight.bind, hb]
    rfl
  | binds _ _ hb =>
    simp only [Sight.bind, binder?_setBinder hb]
    exact Shows.bound _ _ _ henv hs

mutual

theorem ExprAccepted.shows {s u : State} (h : ExprAccepted env s e r u) : Shows env r.1.sight s u := by
  cases h with
  | int | bool | text | noneLit | name | enum => exact .here
  | unary he | field he | wrap he => exact he.shows
  | binary he _ hf => exact he.shows.trans hf.shows
  | user _ hes | builtin _ _ hes | host _ _ _ hes | array hes | record _ hes => exact hes.shows
  | method he _ hes | methodLost he hes => exact he.shows.trans hes.shows
  | index he _ hi => exact he.shows.trans hi.shows
  | select he _ _ has => exact he.shows.trans has.shows
  | unit hss => exact hss.shows
  | value hss he => exact hss.shows.trans he.shows

theorem ValuesAccepted.shows {s u : State} (h : ValuesAccepted env s es rs u) :
    Shows env (Expr.sightIn (rs.map (·.1))) s u := by
  cases h with
  | nil => exact .here
  | cons he _ hes => exact he.shows.trans hes.shows

theorem InitsAccepted.shows {s u : State} (h : InitsAccepted env s d seen fs r u) :
    Shows env (FieldInit.sightIn r.1) s u := by
  cases h with
  | nil => exact .here
  | cons he _ _ _ _ hfs => exact he.shows.trans hfs.shows

theorem ArmsAccepted.shows {s u : State} (h : ArmsAccepted env s t common catchAll covered as r u) :
    Shows env (Arm.sightIn r.1) s u := by
  cases h with
  | nil => exact .here
  | cons hw hp he _ has => exact ((hw.shows rfl).trans (hp.shows.trans he.shows).nested).trans has.shows

theorem StmtAccepted.shows {s u : State} {x : Stmt} (h : StmtAccepted env s x r u) : Shows env r.1.sight s u := by
  cases h with
  | bind he _ _ hh => exact he.shows.trans (hh.declares _ _ _)
  | assignName _ _ he => exact he.shows
  | assign _ hf he => exact hf.shows.trans he.shows
  | retUnit | leave | next => exact .here
  | retValue _ he | expr he => exact he.shows
  | cond hc => exact hc.shows
  | loop he _ _ hb => exact he.shows.trans hb.shows
  | each he _ _ hh hss => exact he.shows.trans ((hh.declares _ _ _).trans hss.shows).nested

theorem StmtsAccepted.shows {s u : State} (h : StmtsAccepted env s ended warned xs r u) :
    Shows env (Stmt.sightIn r.1) s u := by
  cases h with
  | nil => exact .here
  | cons hw hx hxs => exact ((hw.shows rfl).trans hx.shows).trans hxs.shows

theorem BlockAccepted.shows {s u : State} (h : BlockAccepted env s b r u) : Shows env r.1.sight s u := by
  cases h with
  | mk hss => exact hss.shows.nested

theorem ChainAccepted.shows {s u : State} (h : ChainAccepted env s c r u) : Shows env r.1.sight s u := by
  cases h with
  | stop => exact .here
  | otherwise hb => exact hb.shows
  | branch he _ _ hb hrest => exact (he.shows.trans hb.shows).trans hrest.shows

end

theorem withParams_shows (ps : List Param) :
    Shows env (fun v => { v with inner := (ps.map (·.name)).reverse ++ v.inner }) s
      { s with scope := withParams s.scope ps } := by
  induction ps generalizing s with
  | nil => exact .here
  | cons p ps ih =>
    have hfirst : Shows env _ s { s with scope := (s.scope.declare p.name p.type .param true).2 } :=
      .bound p.type .param true
    simpa [Function.comp_def, withParams] using hfirst.trans ih

end Shows

theorem FunctionAccepted.hides {env : Env} {s u : State} {f f' : FunctionDecl} (h : FunctionAccepted env s f f' u)
    (henv : env.policy = .warn) : u.scope.globals = s.scope.globals ∧
      u.sight.hidden = f'.hide (s.scope.globals.map (·.name)) s.sight.hidden := by
  obtain @⟨ss,ends,u,hss,-⟩ := h
  have hparams : Shows env _ { s with scope := s.scope.beginFunction.push false } _ := withParams_shows f.params
  obtain ⟨hsight,hne,-,hglobals⟩ := hparams henv (List.cons_ne_nil _ _)
  obtain ⟨hbody,-,-,hkept⟩ := hss.shows henv hne
  refine ⟨hkept.trans hglobals,(congrArg Sight.hidden hbody).trans ?_⟩
  rw [hsight,FunctionDecl.hide]
  simp [State.sight, Scope.push, Scope.beginFunction, Scope.inNestedBody, Frame.names, Block.statements]

theorem Each.hides {env : Env} {s u : State} {fs gs : List FunctionDecl} (h : Each (FunctionAccepted env) s fs gs u)
    (henv : env.policy = .warn) :
    u.sight.hidden = gs.foldl (FunctionDecl.hide (s.scope.globals.map (·.name))) s.sight.hidden := by
  induction h with
  | nil => rfl
  | cons hf _ ih =>
    obtain ⟨hglobals,hhidden⟩ := hf.hides henv
    rw [ih,hglobals,hhidden]
    rfl

theorem Each.names {env : Env} {s u : State} {cs cs' : List ConstDecl} (h : Each (ConstantAccepted env) s cs cs' u)
    (henv : env.Proper) (hw : ∀ c ∈ cs, c.type.isProper = true ∧ c.value.Every written false) (hs : Fresh True env s) :
    u.warnings = s.warnings ∧ u.scope.globals.map (·.name) =
      (cs'.map (·.name)).reverse ++ s.scope.globals.map (·.name) := by
  induction h with
  | nil => exact ⟨rfl,rfl⟩
  | cons hc _ ih =>
    obtain ⟨hfirst,hrest⟩ := List.forall_mem_cons.mp hw
    obtain ⟨hnext,-,hrule⟩ := hc.sound (fun _ => henv) (fun _ => hfirst) hs
    obtain ⟨hwarnings,hglobals⟩ := ih hrest hnext
    refine ⟨hwarnings.trans (hrule trivial).2,hglobals.trans ?_⟩
    simp [hc.globals]

end Check

namespace Program

variable {p : Program}

theorem check_warn_accepted {policy : Policy} (h : (p.check policy).accepted = true) :
    (p.check .warn).accepted = true := by
  obtain ⟨-,hstray,hfindings⟩ := p.check_under policy
  simp only [Checked.accepted, Bool.and_eq_true, List.isEmpty_iff, Bool.not_eq_true'] at h ⊢
  have herrors : (p.check policy).errors.filter (!·.problem.isHiding) = (p.check .warn).errors := hfindings.errors
  exact ⟨by rw [← herrors,h.1]; rfl,hstray.symm.trans h.2⟩

theorem warnings_eq_hidings (hwritten : p.Written) (h : (p.check .warn).accepted = true) :
    (p.check .warn).warnings.filter (·.caution.isHiding) = (p.check .warn).program.hidings := by
  obtain ⟨env,d,hstages⟩ := check_stages h
  have henv : env.policy = .warn := by rw [hstages.env_eq]
  obtain ⟨hquiet,hnames⟩ := hstages.constantSteps.names (hstages.proper hwritten) hwritten.constants
    (Check.initial_fresh True env)
  have hentry : Check.entryStage env d p = (Check.functionStage env d p).2 :=
    (Check.checkEntry_ends d p.pos hstages.entry).2.1
  have hwarnings : (p.check .warn).warnings = (Check.functionStage env d p).2.warnings := by
    rw [check_eq hstages.toCollects,hentry]
  rw [hwarnings,hidings,hstages.checked_functions,hstages.checked_constants]
  refine (hstages.functionSteps.hides henv).trans ?_
  rw [hnames,Check.State.sight,hquiet]
  simp [Check.State.initial, Scope.empty]

theorem errors_allow (p : Program) : (p.check .allow).errors = (p.check .warn).errors := by
  have hfindings := (p.check_under .allow).2.2
  have hnone : (p.check .allow).errors.filter (·.problem.isHiding) = [] := hfindings.hiddenErrors
  rw [List.filter_eq_nil_iff] at hnone
  have hsame : (p.check .allow).errors.filter (!·.problem.isHiding) = (p.check .allow).errors :=
    List.filter_eq_self.mpr fun e he => by simpa using hnone e he
  exact hsame.symm.trans hfindings.errors

theorem warnings_allow (p : Program) :
    (p.check .allow).warnings = (p.check .warn).warnings.filter (!·.caution.isHiding) := by
  have hfindings := (p.check_under .allow).2.2
  have hnone : (p.check .allow).warnings.filter (·.caution.isHiding) = [] := hfindings.hiddenWarnings
  rw [List.filter_eq_nil_iff] at hnone
  have hsame : (p.check .allow).warnings.filter (!·.caution.isHiding) = (p.check .allow).warnings :=
    List.filter_eq_self.mpr fun w hw => by simpa using hnone w hw
  exact hsame.symm.trans hfindings.warnings

theorem errors_error (p : Program) :
    (p.check .error).errors.filter (!·.problem.isHiding) = (p.check .allow).errors ∧
      (p.check .error).errors.filter (·.problem.isHiding) = (p.check .warn).warnings.filterMap Warning.toError? := by
  have hfindings := (p.check_under .error).2.2
  exact ⟨hfindings.errors.trans p.errors_allow.symm,hfindings.hiddenErrors⟩

theorem accepted_error (p : Program) : (p.check .error).accepted = true ↔ (p.check .allow).accepted = true ∧
    ∀ w ∈ (p.check .warn).warnings, w.caution.isHiding = false := by
  obtain ⟨hother,hhidden⟩ := p.errors_error
  have hstray : (p.check .error).strayReturn = (p.check .allow).strayReturn :=
    (p.check_under .error).2.1.trans (p.check_under .allow).2.1.symm
  have hwarned : (p.check .warn).warnings.filterMap Warning.toError? = [] ↔
      ∀ w ∈ (p.check .warn).warnings, w.caution.isHiding = false := by
    simp [← Warning.toError?_isSome, List.filterMap_eq_nil_iff]
  have hsplit : (p.check .error).errors = [] ↔ (p.check .allow).errors = [] ∧
      (p.check .warn).warnings.filterMap Warning.toError? = [] := by
    rw [← hother,← hhidden,List.filter_eq_nil_iff,List.filter_eq_nil_iff,List.eq_nil_iff_forall_not_mem]
    exact ⟨fun h => ⟨fun e he => absurd he (h e),fun e he => absurd he (h e)⟩,
      fun h e he => (h.2 e he) (by simpa using h.1 e he)⟩
  simp only [Checked.accepted, Bool.and_eq_true, List.isEmpty_iff, Bool.not_eq_true', hsplit, hstray, hwarned]
  exact and_right_comm

/-- What is done about hidden names changes nothing but what is found. The checked program is the same. As errors,
the hidden names are found among the others, one for each that is warned of; to allow them leaves out the warnings.
So a program is accepted with hidden names as errors if it is accepted and has none, and all policies that accept it
give the same module. In an accepted program, the hidden names are those that going through its functions with
nothing but names in sight finds. -/
theorem policy_changes_findings_only (p : Program) (hwritten : p.Written) :
    (∀ policy, (p.check policy).program = (p.check .warn).program) ∧
    (p.check .warn).errors = (p.check .allow).errors ∧
    (p.check .error).errors.filter (!·.problem.isHiding) = (p.check .allow).errors ∧
    (p.check .error).errors.filter (·.problem.isHiding) = (p.check .warn).warnings.filterMap Warning.toError? ∧
    (p.check .allow).warnings = (p.check .warn).warnings.filter (!·.caution.isHiding) ∧
    ((p.check .error).accepted = true ↔ (p.check .allow).accepted = true ∧
      ∀ w ∈ (p.check .warn).warnings, w.caution.isHiding = false) ∧
    (∀ (z : Optimize.Solver) (o : Options) (first second : Policy), (p.check first).accepted = true →
      (p.check second).accepted = true → (p.compile z { o with shadowing := first }).map (·.bytes) =
        (p.compile z { o with shadowing := second }).map (·.bytes)) ∧
    ∀ policy, (p.check policy).accepted = true →
      (p.check .warn).warnings.filter (·.caution.isHiding) = (p.check .warn).program.hidings := by
  refine ⟨fun policy => (p.check_under policy).1,p.errors_allow.symm,p.errors_error.1,p.errors_error.2,
    p.warnings_allow,p.accepted_error,fun z o first second hfirst hsecond => ?_,fun policy h => ?_⟩
  · rw [compile_bytes_of_accepted (o := { o with shadowing := first }) hfirst,
      compile_bytes_of_accepted (o := { o with shadowing := second }) hsecond,p.prepared_under z o first,
      p.prepared_under z o second]
    rfl
  · exact warnings_eq_hidings hwritten (check_warn_accepted h)

end Program

theorem shadowing_written : shadowing.Written where
  functions := by
    rintro f (_ | ⟨_,⟨⟩⟩)
    exact ⟨⟨by decide,by decide⟩,by simp [Block.Every, Stmt.EveryIn, Stmt.Every, Expr.Every, Expr.EveryIn, Arm.EveryIn,
      written, Build.isPlace]⟩
  records := by rintro r ⟨⟩
  constants := by
    rintro c (_ | ⟨_,⟨⟩⟩)
    exact ⟨rfl,trivial⟩

/-- The `for` hides the parameter; the second `let` is in no nested body, and the pattern hides nothing. -/
theorem policy_changes_findings_only_shadowing : (shadowing.check .warn).accepted = true ∧
    (shadowing.check .error).accepted = false ∧
    (shadowing.check .warn).warnings.filter (·.caution.isHiding) = [⟨.hides .forWord "a", .unknown⟩] := by
  have haccepted : (shadowing.check .warn).accepted = true := by decide +kernel
  obtain ⟨-,-,-,-,-,hiff,-,hhidings⟩ := Program.policy_changes_findings_only shadowing shadowing_written
  have hfound := (hhidings .warn haccepted).trans
    (by decide +kernel : (shadowing.check .warn).program.hidings = [⟨.hides .forWord "a", .unknown⟩])
  refine ⟨haccepted,Bool.not_eq_true _ ▸ fun h => ?_,hfound⟩
  have hnone := List.filter_eq_nil_iff.mpr fun w hw => Bool.not_eq_true _ ▸ (hiff.mp h).2 w hw
  exact List.cons_ne_nil _ _ (hfound.symm.trans hnone)

end Covenant
