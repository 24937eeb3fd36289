import Covenant.Proofs.Typing.Constants
import Covenant.Proofs.Typing.Stages

/-! Checking whole programs: an accepted program obeys the typing rules in all its functions, and the names
of its declarations are distinct. -/

namespace Covenant

namespace Check

open Typing

variable {strict : Prop} {env : Env} {s u : State}

theorem initial_fresh (strict : Prop) (env : Env) : Fresh strict env .initial :=
  ⟨⟨by simp [Scope.beginFunction],by simp [Scope.beginFunction, State.initial, Scope.empty]⟩,rfl⟩

theorem withParams_good {c : Scope} {ps : List Param} (hps : strict → ∀ p ∈ ps, p.type.isProper = true)
    (hg : Good strict env c) :
    Good strict env (withParams c ps) ∧ (withParams c ps).slots = c.slots ++ ps.map (·.type) := by
  induction ps generalizing c with
  | nil => exact ⟨hg,by simp [withParams]⟩
  | cons p ps ih =>
    have hfirst : Good strict env (c.declare p.name p.type .param true).2 :=
      hg.declare _ _ (by decide) fun hst => Ty.isSolid_of_isProper (hps hst p (.head _))
    obtain ⟨hgood,hslots⟩ := ih (fun hst q hq => hps hst q (.tail _ hq)) hfirst
    refine ⟨hgood,hslots.trans ?_⟩
    simp [Scope.declare, Scope.allocate]

theorem FunctionAccepted.typed (henv : strict → env.Proper) {f f' : FunctionDecl}
    (h : FunctionAccepted env s f f' u) (hw : strict → f.HeadProper ∧ f.body.Every written false)
    (hs : Fresh strict env s) :
    Fresh strict env u ∧ signatureOf f' = signatureOf f ∧ f'.Typed strict env := by
  obtain @⟨ss,ends,u,hss,-⟩ := h
  let env' : Env := { env with current := some ⟨f.name,f.result⟩ }
  have hstart : Good strict env' (s.scope.beginFunction.push false) :=
    ⟨(hs.1.push false).frames,(hs.1.push false).globals⟩
  obtain ⟨hgood,hslots⟩ := withParams_good (fun hst => (hw hst).1.params) hstart
  have henv' : strict → env'.Proper := fun hst => ⟨(henv hst).params,(henv hst).results,(henv hst).fields⟩
  have hpost := hss.sound henv' hgood fun hst => Block.every_iff.mp (hw hst).2
  refine ⟨⟨⟨by simp [Scope.beginFunction],hpost.good.globals⟩,?_⟩,rfl,?_,?_⟩
  · have hlen := hpost.leads.loops
    rw [hs.2] at hlen
    exact List.length_eq_zero_iff.mp hlen
  · have hprefix := hpost.leads.slots
    rw [hslots] at hprefix
    exact hprefix
  · have hevery := hpost.every _ List.prefix_rfl
    rw [hs.2] at hevery
    exact hevery

namespace Stages

variable {policy : Policy} {p : Program} {d : Declared}

theorem constants_fresh (h : Stages policy p env d) (hw : strict → p.Written) :
    Fresh strict env (constantStage env p).2 := by
  refine (h.constantSteps.keeps (Q := fun _ _ => True) (fun c hc _ _ _ hstep hs => ⟨?_,trivial⟩)
    (initial_fresh strict env)).1
  exact (hstep.sound (fun hst => h.proper (hw hst)) (fun hst => (hw hst).constants c hc) hs).1

theorem body_written (h : Stages policy p env d) (hw : p.Written) {f : FunctionDecl} (hf : f ∈ d.functions) :
    f.HeadProper ∧ f.body.Every written false := by
  obtain ⟨g,hg,hfrom⟩ := exists_of_forall₂ h.heads f hf
  exact ⟨hfrom.proper (hw.functions g hg).1,hfrom.body ▸ (hw.functions g hg).2⟩

theorem functions_typed (h : Stages policy p env d) (hw : strict → p.Written) :
    List.Forall₂ (fun f f' => signatureOf f' = signatureOf f ∧ f'.Typed strict env) d.functions
      (functionStage env d p).1 :=
  (h.functionSteps.keeps (fun _ hf _ _ _ hstep hs => hstep.typed (fun hst => h.proper (hw hst))
    (fun hst => h.body_written (hw hst) hf) hs) (h.constants_fresh hw)).2

theorem signatures (h : Stages policy p env d) :
    (p.check policy).program.functions.map signatureOf = d.functions.map signatureOf := by
  rw [h.checked_functions]
  exact map_eq_of_forall₂ ((h.functions_typed False.elim).imp fun _ _ h => h.1)

theorem checked_records (h : Stages policy p env d) : (p.check policy).program.records = d.records := by
  rw [Program.check_eq h.toCollects]
  refine recordsOf_place _ ?_
  rw [recordsOf_placeConstants]
  simpa using congrArg List.length h.matched.2

theorem checked_enums (h : Stages policy p env d) : (p.check policy).program.enums = p.enums := by
  rw [Program.check_eq h.toCollects]
  exact enumsOf_place _ _ _ _

theorem checked_env (h : Stages policy p env d) : (p.check policy).program.env policy = env := by
  rw [Program.env,h.signatures,h.checked_records,h.checked_enums,h.env_eq]
  rfl

end Stages

end Check

open Check (Ends State constantsOf)

variable {policy : Policy} {p : Program}

/-- Checking is sound: an accepted program is typed, and has the enums it was given. -/
theorem Program.check_typed (h : (p.check policy).accepted = true) :
    (p.check policy).program.Typed p.Written policy ∧ (p.check policy).program.enums = p.enums := by
  obtain ⟨env,d,hstages⟩ := check_stages h
  have hnames : (p.check policy).program.functions.map (·.name) = p.functions.map (·.name) := by
    have hsigs := congrArg (List.map Check.Signature.name) hstages.signatures
    rw [List.map_map,List.map_map] at hsigs
    exact hsigs.trans hstages.matched.1
  refine ⟨⟨?_,?_,hnames ▸ hstages.distinct.functions,?_,?_⟩,hstages.checked_enums⟩
  · rw [hstages.checked_env]
    exact hstages.proper
  · rw [hstages.checked_env,hstages.checked_functions]
    intro f hf
    obtain ⟨-,-,-,htyped⟩ := Check.exists_of_forall₂ (hstages.functions_typed id) f hf
    exact htyped
  · rw [hstages.checked_records,hstages.matched.2]
    exact hstages.distinct.records
  · rw [hstages.checked_enums]
    exact hstages.distinct.enums

theorem Program.check_entry (h : (p.check policy).accepted = true) :
    entryPoint ∈ (p.check policy).program.functions.map (·.name) := by
  obtain ⟨env,d,hstages⟩ := check_stages h
  have hsigs := congrArg (List.map Check.Signature.name) hstages.signatures
  rw [List.map_map,List.map_map] at hsigs
  have hentry : entryPoint ∈ d.functions.map (·.name) := (Check.checkEntry_ends d p.pos hstages.entry).2.2
  exact hsigs.symm ▸ hentry

theorem Program.check_each {K : List ConstDecl → State → Prop} {P : List ConstDecl → FunctionDecl → Prop}
    (h : (p.check policy).accepted = true)
    (hconst : ∀ env, Ends .initial (Check.constants env p.items) fun is u => K (constantsOf is) u)
    (hfun : ∀ env cs f s, (s.Clean → s.loops = [] ∧ K cs s) →
      Ends s (Check.function env f) fun f' u => K cs u ∧ P cs f') :
    ∀ d ∈ (p.check policy).program.functions, P (p.check policy).program.constants d := by
  obtain ⟨env,d,hstages⟩ := check_stages h
  rw [hstages.checked_functions,hstages.checked_constants]
  let cs := (Check.constantStage env p).1
  have hknown : K cs (Check.constantStage env p).2 := by
    have hends := hconst env
    rw [Check.constants_eq] at hends
    have hcs := (hends hstages.constants).2
    have hlength : cs.length = (constantsOf p.items).length := Check.length_mapM _ _
    rwa [← Check.constantsOf_placeConstants hlength]
  have hone (f : FunctionDecl) (s : State) (hs : s.Clean → Check.Fresh False env s ∧ K cs s) :
      Ends s (Check.function env f) fun f' u => (Check.Fresh False env u ∧ K cs u) ∧ P cs f' := by
    intro hc
    obtain ⟨hcs,haccepted⟩ := Check.function_accepts f hc
    obtain ⟨-,hK,hP⟩ := hfun env cs f s (fun hc => ⟨(hs hc).1.2,(hs hc).2⟩) hc
    exact ⟨hcs,⟨(haccepted.typed False.elim False.elim (hs hcs).1).1,hK⟩,hP⟩
  exact (Check.Ends.mapM hone (fun _ => ⟨hstages.constants_fresh False.elim,hknown⟩) hstages.functions).2

end Covenant
