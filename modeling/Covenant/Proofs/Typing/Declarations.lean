import Covenant.Proofs.Typing.Ensuring

/-! What checking makes sure of in a whole program: every declared type has been resolved, the variants of
an enum have names of their own, and the rules for matches and variables hold in all bodies. -/

namespace Covenant

namespace Check

variable {env : Env} {T : Ty → Bool} {s : State}

/-- The types of functions and records are resolved, and tags are told apart by their names. -/
structure Env.Settled (env : Env) (T : Ty → Bool) : Prop where
  params : ∀ f ∈ env.functions, ∀ t ∈ f.params, env.Resolved T t
  results : ∀ f ∈ env.functions, ∀ t, f.result = some t → env.Resolved T t
  fields : ∀ r ∈ env.records, ∀ f ∈ r.fields, env.Resolved T f.type
  variants : ∀ e ∈ env.enums, e.variants.Nodup

theorem Env.Settled.proper (h : env.Settled T) (hT : ∀ t, T t = true → t.isProper = true) : env.Proper where
  params f hf t ht := (h.params f hf t ht).isProper hT
  results f hf t ht := (h.results f hf t ht).isProper hT
  fields r hr f hf := (h.fields r hr f hf).isProper hT

namespace Collects

variable {policy : Policy} {p : Program} {d : Declared} (h : Collects policy p env d) (hp : p.Formed T)
include h hp

theorem settled : env.Settled T where
  params s hs t ht := by
    rw [h.env_eq] at hs
    obtain ⟨f,hf,rfl⟩ := List.mem_map.mp hs
    obtain ⟨q,hq,rfl⟩ := List.mem_map.mp ht
    obtain ⟨g,hg,hfrom⟩ := exists_of_forall₂ h.heads f hf
    obtain ⟨q',hq',t,hty,rfl⟩ := exists_of_forall₂ hfrom.params q hq
    exact ⟨q'.type,(hp.functions g hg).1.params q' hq',hty⟩
  results s hs t ht := by
    rw [h.env_eq] at hs
    obtain ⟨f,hf,rfl⟩ := List.mem_map.mp hs
    obtain ⟨g,hg,hfrom⟩ := exists_of_forall₂ h.heads f hf
    obtain ⟨u,hu,hty⟩ := hfrom.result_from ht
    exact ⟨u,(hp.functions g hg).1.result u hu,hty⟩
  fields r hr f hf := by
    rw [h.env_eq] at hr
    obtain ⟨q,hq,fs,hfields,rfl⟩ := exists_of_forall₂ h.records r hr
    obtain ⟨g,hg,t,hty,rfl⟩ := exists_of_forall₂ hfields f hf
    exact ⟨g.type,hp.records q hq g hg,hty⟩
  variants := by
    rw [h.env_eq]
    exact h.distinct.variants

theorem body_formed {f : FunctionDecl} (hf : f ∈ d.functions) : f.body.Every (formed T) false := by
  obtain ⟨g,hg,hfrom⟩ := exists_of_forall₂ h.heads f hf
  exact hfrom.body ▸ (hp.functions g hg).2

end Collects

open Typing

theorem ensured_current (env : Env) (T : Ty → Bool) (c : Option Current) :
    ensured { env with current := c } T = ensured env T := by
  have hsame : Env.resolve { env with current := c } = env.resolve := funext (Env.resolve_congr rfl rfl)
  simp only [ensured, Env.Resolved, hsame]
  rfl

theorem FunctionAccepted.ensured {u : State} {f f' : FunctionDecl} (h : FunctionAccepted env s f f' u)
    (hf : f.body.Every (formed T) false) : f'.body.Every (Typing.ensured env T) false := by
  obtain @⟨ss,ends,u,hss,-⟩ := h
  rw [← ensured_current env T (some ⟨f.name,f.result⟩)]
  exact hss.ensured (Block.every_iff.mp hf) false

def ConstantSound (env : Env) (T : Ty → Bool) (c : ConstDecl) : Prop :=
  env.Resolved T c.type ∧ c.value.Every (rule ⟨env,[],True⟩) false ∧ c.value.Every (ensured env T) false

theorem ConstantAccepted.settled (henv : env.Proper) (hT : ∀ t, T t = true → t.isProper = true) {u : State}
    {c c' : ConstDecl} (h : ConstantAccepted env s c c' u) (hc : T c.type = true ∧ c.value.Every (formed T) false)
    (hs : Fresh True env s) : Fresh True env u ∧ ConstantSound env T c' := by
  obtain ⟨htype,hvalue⟩ := hc
  obtain ⟨hfresh,hty,hrule⟩ :=
    h.sound (fun _ => henv) (fun _ => ⟨hT _ htype,hvalue.join (formed_join hT) hvalue⟩) hs
  refine ⟨hfresh,⟨c.type,htype,hty⟩,(hrule trivial).1,?_⟩
  cases h with
  | mk _ _ _ he => exact he.ensured hvalue false

end Check

open Typing Check

/-- What checking makes sure of in an accepted program whose declared types meet a condition. -/
structure Program.Ensured (T : Ty → Bool) (policy : Policy) (q : Program) : Prop where
  settled : (q.env policy).Settled T
  constants : ∀ c ∈ q.constants, ConstantSound (q.env policy) T c
  functions : ∀ f ∈ q.functions, f.body.Every (ensured (q.env policy) T) false

theorem Program.check_ensured {T : Ty → Bool} {policy : Policy} {p : Program} (hp : p.Formed T)
    (hT : ∀ t, T t = true → t.isProper = true) (h : (p.check policy).accepted = true) :
    (p.check policy).program.Ensured T policy := by
  obtain ⟨env,d,hstages⟩ := check_stages h
  have hsettled := hstages.settled hp
  have hconstants := (hstages.constantSteps.keeps (fun c hc _ _ _ hstep hs =>
    hstep.settled (hsettled.proper hT) hT (hp.constants c hc) hs) (initial_fresh True env)).2
  have hfunctions := (hstages.functionSteps.keeps (I := fun _ => True) (fun f hf _ _ _ hstep _ =>
    ⟨trivial,hstep.ensured (hstages.body_formed hp hf)⟩) trivial).2
  refine ⟨?_,?_,?_⟩
  · rw [hstages.checked_env]
    exact hsettled
  · rw [hstages.checked_env,hstages.checked_constants]
    intro c hc
    obtain ⟨-,-,hsound⟩ := exists_of_forall₂ hconstants c hc
    exact hsound
  · rw [hstages.checked_env,hstages.checked_functions]
    intro f hf
    obtain ⟨-,-,hensured⟩ := exists_of_forall₂ hfunctions f hf
    exact hensured

end Covenant
