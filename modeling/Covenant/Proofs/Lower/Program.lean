import Covenant.Proofs.Lower.Assembly
import Covenant.Proofs.Lower.Body
import Covenant.Proofs.Lower.Hosts
import Covenant.Proofs.Typing.Program
import Mathlib.Data.List.Nodup

/-! The functions of a module are valid: those of the program if no open type is left where a value is
wanted, and the routines in any case. -/

namespace Covenant

open Wasm Typing

theorem find?_of_nodup {α : Type} {f : α → String} {xs : List α} {a : α} (h : (xs.map f).Nodup)
    (ha : a ∈ xs) : xs.find? (f · = f a) = some a := by
  cases hfind : xs.find? (f · = f a) with
  | none => simpa using List.find?_eq_none.mp hfind a ha
  | some b =>
    have hb : f b = f a := by simpa using List.find?_some hfind
    exact congrArg some (List.inj_on_of_nodup_map h (List.mem_of_find?_eq_some hfind) ha hb)

theorem find?_reverse_of_nodup {α : Type} {f : α → String} {xs : List α} (h : (xs.map f).Nodup)
    (x : String) : xs.reverse.find? (f · = x) = xs.find? (f · = x) := by
  cases hfirst : xs.find? (f · = x) with
  | none =>
    rw [List.find?_eq_none] at hfirst ⊢
    exact fun a ha => hfirst a (List.mem_reverse.mp ha)
  | some a =>
    have hx : f a = x := by simpa using List.find?_some hfirst
    have hnodup : (xs.reverse.map f).Nodup := by
      rw [List.map_reverse]
      exact List.nodup_reverse.mpr h
    rw [← hx]
    exact find?_of_nodup hnodup (List.mem_reverse.mpr (List.mem_of_find?_eq_some hfirst))

def Program.site (policy : Policy) (strict : Prop) (p : Program) (d : FunctionDecl) : Site :=
  ⟨{ p.env policy with current := some ⟨d.name,d.result⟩ },d.slots,strict⟩

def Program.Settled (policy : Policy) (p : Program) : Prop :=
  ∀ d ∈ p.functions, d.body.Every (settled (p.site policy True d)) false

namespace Lower

variable {p : Program} {policy : Policy} {o : Options} {c : Context} {d : FunctionDecl}
  {pool pool' : Memory.Pool} {strict : Prop}

theorem target?_of_getElem? {i : Nat} {base : Nat}
    (hn : (p.functions.map (·.name)).Nodup) (hc : c.targets = targets base p.functions)
    (hd : p.functions[i]? = some d) :
    c.target? d.name = some ⟨d.name,base + i,signature (d.params.map (·.type)) d.result⟩ := by
  let t : Target := ⟨d.name,base + i,signature (d.params.map (·.type)) d.result⟩
  have hnames : (targets base p.functions).map (·.name) = p.functions.map (·.name) :=
    List.ext_getElem? fun j => by simp [targets, Function.comp_def]
  have hmem : t ∈ targets base p.functions :=
    List.mem_map.mpr ⟨(d,i),List.mem_zipIdx_iff_getElem?.mpr hd,rfl⟩
  rw [Context.target?,hc,find?_reverse_of_nodup (hnames ▸ hn)]
  exact find?_of_nodup (f := (·.name)) (a := t) (hnames ▸ hn) hmem

def callable (p : Program) (rs : List Routine) : List FuncType :=
  ((programImports p).map fun f => signature f.params f.result) ++
    p.functions.map (fun d => signature (d.params.map (·.type)) d.result) ++ rs.map Routine.type

theorem callable_function {i : Nat} (rs : List Routine) (hd : p.functions[i]? = some d) :
    (callable p rs)[(programImports p).length + i]? = some (signature (d.params.map (·.type)) d.result) := by
  have hlt := (List.getElem?_eq_some_iff.mp hd).1
  rw [callable,List.append_assoc,List.getElem?_append_right (by simp),
    List.getElem?_append_left (by simpa using hlt)]
  simp [hd]

theorem callable_import {h : HostFunction} {i : Nat} (rs : List Routine)
    (hp : p.Typed strict policy) (hs : strict) (hc : c.imports = programImports p)
    (hh : h ∈ HostFunction.all) (hi : c.importIndex? h = some i) :
    (callable p rs)[i]? = some (signature h.params h.result) := by
  rw [Context.importIndex?,hc] at hi
  obtain ⟨hlt,hname,-⟩ := List.findIdx?_eq_some_iff_getElem.mp hi
  have hmem := mem_of_mem_distinctImports (List.getElem_mem hlt)
  obtain ⟨d,hd,hm⟩ := List.mem_flatMap.mp hmem
  have hknown := hosts_walk hs (hp.functions d hd).body _ hm
  obtain ⟨hparams,hresult⟩ := host_of_importName _ hknown h hh (of_decide_eq_true hname)
  rw [callable,List.append_assoc,List.getElem?_append_left (by simpa using hlt),List.getElem?_map,
    List.getElem?_eq_getElem hlt,Option.map_some,hparams,hresult]

theorem function_of_signature {f : String} {sig : Check.Signature}
    (h : (p.site policy strict d).env.function? f = some sig) :
    ∃ (i : Nat) (e : FunctionDecl), p.functions[i]? = some e ∧ e.name = f ∧ Check.signatureOf e = sig := by
  have hmem := List.mem_of_find?_eq_some h
  obtain ⟨e,he,rfl⟩ := List.mem_map.mp hmem
  have hname : decide (e.name = f) = true :=
    List.find?_some (p := fun s : Check.Signature => decide (s.name = f)) h
  obtain ⟨i,hi⟩ := List.mem_iff_getElem?.mp he
  exact ⟨i,e,hi,of_decide_eq_true hname,rfl⟩

theorem linked_context (hp : p.Typed strict policy) (hs : strict)
    (hd : d ∈ p.functions) (rs : List Routine) (depth : Nat) (loop : Option LoopLevels) :
    Linked (callable p rs) { context o p with slots := d.slots, depth, loop } (p.site policy strict d) where
  strict := hs
  proper := ⟨(hp.proper hs).params,(hp.proper hs).results,(hp.proper hs).fields⟩
  slots := rfl
  records x := find?_reverse_of_nodup hp.recordNames x
  result t ht := Ty.ne_error_of_isSolid (Ty.isSolid_of_isProper
    ((hp.proper hs).results _ (List.mem_map_of_mem hd) t ht))
  targets f sig hsig := by
    obtain ⟨i,e,hi,rfl,rfl⟩ := function_of_signature hsig
    exact ⟨_,target?_of_getElem? hp.functionNames rfl hi,rfl,callable_function rs hi⟩
  hosts h hh i hi := callable_import rs hp hs rfl hh hi

theorem function_spec {b : Body} (h : function c d pool = .ok (b,pool')) :
    ∃ code s t, block { c with slots := d.slots, depth := 0, loop := none } d.body ⟨pool,#[]⟩ =
        .ok (code,s) ∧ c.target? d.name = some t ∧ pool' = s.pool ∧
      b = ⟨t.type,(d.slots.drop d.params.length).map Ty.valType ++ s.temps.toList,
        if d.result.isSome then code ++ [Instr.trap] else code⟩ := by
  unfold function at h
  simp only [StateT.run] at h
  cases hrun : block { c with slots := d.slots, depth := 0, loop := none } d.body ⟨pool,#[]⟩ with
  | error e =>
    rw [hrun] at h
    cases h
  | ok r =>
    obtain ⟨code,s⟩ := r
    rw [hrun] at h
    have htarget : ({ c with slots := d.slots, depth := 0, loop := none } : Context).target? d.name =
        c.target? d.name := rfl
    cases ht : c.target? d.name with
    | none => simp [htarget, ht, bind, Except.bind, throw, throwThe, MonadExceptOf.throw] at h
    | some t =>
      simp only [htarget, ht, bind, Except.bind, pure, Except.pure, Except.ok.injEq, Prod.mk.injEq] at h
      exact ⟨code,s,t,rfl,rfl,h.2.symm,h.1.symm⟩

theorem locals_eq {env : Check.Env} (h : d.Typed strict env) :
    (d.params.map (·.type)).map Ty.valType ++ (d.slots.drop d.params.length).map Ty.valType =
      d.slots.map Ty.valType := by
  obtain ⟨more,hmore⟩ := h.params
  rw [← hmore,← List.map_append,List.drop_left' (List.length_map ..)]

theorem function_typed {b : Body} (hp : p.Typed strict policy) (hs : strict) (hd : d ∈ p.functions)
    (hset : d.body.Every (settled (p.site policy strict d)) false) (rs : List Routine) (g : List Global)
    (h : function (context o p) d pool = .ok (b,pool')) :
    b.type = signature (d.params.map (·.type)) d.result ∧
      Typed (bodyScope (callable p rs) g b) [b.type.results] b.code [] b.type.results := by
  obtain ⟨code,s,t,hcode,ht,-,rfl⟩ := function_spec h
  obtain ⟨i,hi⟩ := List.mem_iff_getElem?.mp hd
  have htarget := target?_of_getElem? (c := context o p) hp.functionNames rfl hi
  cases ht.symm.trans htarget
  refine ⟨rfl,?_⟩
  have hlinked := linked_context (o := o) hp hs hd rs 0 none
  have hlowers := (lowers_walk (g := g) (S := p.site policy strict d)).onBlock d.body (hp.functions d hd).body hset
    _ hlinked
  obtain ⟨-,htyped⟩ := hlowers _ _ _ hcode
  have hlabels : Context.Labels { context o p with slots := d.slots, depth := 0, loop := none }
      [d.result.toList.map Ty.valType] := ⟨rfl,nofun⟩
  have hbody := htyped s.temps.toList List.prefix_rfl _ hlabels
  have hscope : bodyScope (callable p rs) g ⟨signature (d.params.map (·.type)) d.result,
      (d.slots.drop d.params.length).map Ty.valType ++ s.temps.toList,
      if d.result.isSome then code ++ [Instr.trap] else code⟩ =
      scope (callable p rs) g (p.site policy strict d) s.temps.toList := by
    rw [bodyScope,scope]
    congr 1
    show (d.params.map (·.type)).map Ty.valType ++ (_ ++ _) = d.slots.map Ty.valType ++ _
    rw [← locals_eq (hp.functions d hd),List.append_assoc]
  rw [hscope]
  show Typed _ [d.result.toList.map Ty.valType] (if d.result.isSome then code ++ [Instr.trap] else code) []
    (d.result.toList.map Ty.valType)
  cases hresult : d.result with
  | none =>
    rw [hresult] at hbody
    exact hbody
  | some r =>
    rw [hresult] at hbody
    exact .append hbody (Stops.trap _ _)

theorem bodies_cons {ds : List FunctionDecl} {bs : List Body} (h : bodies c (d :: ds) pool = .ok (bs,pool')) :
    ∃ b q cs, function c d pool = .ok (b,q) ∧ bodies c ds q = .ok (cs,pool') ∧ bs = b :: cs := by
  simp only [bodies, bind, Except.bind] at h
  cases hf : function c d pool with
  | error e => simp [hf] at h
  | ok r =>
    obtain ⟨b,q⟩ := r
    cases hb : bodies c ds q with
    | error e => simp [hf, hb] at h
    | ok s =>
      obtain ⟨cs,q'⟩ := s
      simp only [hf, hb, pure, Except.pure, Except.ok.injEq, Prod.mk.injEq] at h
      obtain ⟨rfl,rfl⟩ := h
      exact ⟨b,q,cs,rfl,hb,rfl⟩

theorem bodies_spec {ds : List FunctionDecl} {bs : List Body} (h : bodies c ds pool = .ok (bs,pool')) :
    List.Forall₂ (fun d b => ∃ q q', function c d q = .ok (b,q')) ds bs := by
  induction ds generalizing pool pool' bs with
  | nil =>
    cases h
    exact .nil
  | cons d ds ih =>
    obtain ⟨b,q,cs,hf,hbs,rfl⟩ := bodies_cons h
    exact .cons ⟨pool,q,hf⟩ (ih hbs)

theorem routine_isValid {G : List FuncType} {g : Global} {number : String → Option Nat} (r : Routine)
    (hg : g.type = .i32) (hm : g.isMutable = true)
    (hn : Numbered (bodyScope G [g] (routineBody r)) number (Instr.routinesOf r.code)) :
    (Instr.piecesOf r.code : Code).isValid (bodyScope G [g] (routineBody r)) number = true :=
  isValid_piecesOf hn (routine_typed rfl r rfl rfl rfl hg hm).closes

theorem numbered_callable {rs qs : List Routine} {E : BodyScope} {n : Nat} (hE : E.functions = callable p rs)
    (hn : n = p.functions.length) (hq : ∀ r ∈ qs, r ∈ rs) :
    Numbered E (routineNumber ((programImports p).length + n) rs) qs := by
  intro r hr
  obtain ⟨k,hk,hget⟩ := routineNumber_spec ((programImports p).length + n) (hq r hr)
  refine ⟨_,hk,?_⟩
  rw [hE,callable,List.getElem?_append_right (by simp [hn]),List.getElem?_map]
  simp [hn, hget]

theorem bodies_isValid {own : List Body} {g : Global}
    (hp : p.Typed strict policy) (hs : strict) (hset : p.Settled policy)
    (hg : g.type = .i32) (hm : g.isMutable = true)
    (hown : bodies (context o p) p.functions pool = .ok (own,pool')) :
    own.map (·.type) = p.functions.map (fun d => signature (d.params.map (·.type)) d.result) ∧
    ∀ b ∈ own ++ (neededRoutines own).map routineBody, (Instr.piecesOf b.code : Code).isValid
      (bodyScope (callable p (neededRoutines own)) [g] b)
      (routineNumber ((programImports p).length + own.length) (neededRoutines own)) = true := by
  have hspec := bodies_spec hown
  have hlen := hspec.length_eq
  have htyped {i : Nat} {b : Body} (hb : own[i]? = some b) : ∃ d, p.functions[i]? = some d ∧
      b.type = signature (d.params.map (·.type)) d.result ∧
      Typed (bodyScope (callable p (neededRoutines own)) [g] b) [b.type.results] b.code []
        b.type.results := by
    obtain ⟨hlt,rfl⟩ := List.getElem?_eq_some_iff.mp hb
    obtain ⟨q,q',hf⟩ := hspec.get (hlen ▸ hlt) hlt
    have hd := List.getElem_mem (hlen ▸ hlt)
    exact ⟨_,List.getElem?_eq_getElem _,
      function_typed hp hs hd (hset _ hd) (neededRoutines own) [g] hf⟩
  refine ⟨?_,?_⟩
  · refine List.ext_getElem? fun i => ?_
    rw [List.getElem?_map,List.getElem?_map]
    cases hb : own[i]? with
    | none => rw [List.getElem?_eq_none (hlen ▸ List.getElem?_eq_none_iff.mp hb)]; rfl
    | some b =>
      obtain ⟨d,hd,htype,-⟩ := htyped hb
      rw [hd,Option.map_some,Option.map_some,htype]
  · intro b hb
    rcases List.mem_append.mp hb with hb | hb
    · obtain ⟨i,hi⟩ := List.mem_iff_getElem?.mp hb
      obtain ⟨d,-,-,hcode⟩ := htyped hi
      exact isValid_piecesOf (numbered_callable rfl hlen.symm fun r hr => mem_needed_of_code hb hr)
        hcode.closes
    · obtain ⟨q,hq,rfl⟩ := List.mem_map.mp hb
      exact routine_isValid q hg hm
        (numbered_callable rfl hlen.symm fun r hr => mem_needed_of_routine hq hr)

theorem lower_spec {image : Image} (h : p.lower o = .ok image) :
    ∃ entry own pool, (context o p).target? entryPoint = some entry ∧
      bodies (context o p) p.functions .empty = .ok (own,pool) ∧
      max o.initialPages pool.pages ≤ o.maxPages ∧
      image.module = assemble o (programImports p) entry.index
        (own ++ (neededRoutines own).map routineBody) pool ∧
      image.module.bytes? (routineNumber ((programImports p).length + own.length) (neededRoutines own)) =
        some image.bytes := by
  unfold Program.lower at h
  cases ht : (context o p).target? entryPoint with
  | none => simp [ht, throw, throwThe, MonadExceptOf.throw] at h
  | some entry =>
    cases hb : bodies (context o p) p.functions .empty with
    | error e => simp [ht, hb, bind, Except.bind] at h
    | ok r =>
      obtain ⟨own,pool⟩ := r
      simp only [ht, hb, bind, Except.bind] at h
      split at h
      · cases h
      · rename_i hpages
        split at h
        · rename_i bytes hbytes
          cases h
          exact ⟨entry,own,pool,rfl,rfl,Nat.le_of_not_lt hpages,rfl,hbytes⟩
        · cases h

theorem lower_isValid {image : Image} (hp : p.Typed strict policy) (hs : strict)
    (hset : p.Settled policy) (h : p.lower o = .ok image) :
    ∃ number, image.module.bytes? number = some image.bytes ∧
      ∀ f ∈ image.module.functions, image.module.isValidBody number f = true ∧
        ∃ is, f.code = Instr.piecesOf is := by
  obtain ⟨entry,own,pool,-,hown,-,hmodule,hbytes⟩ := lower_spec h
  refine ⟨_,hbytes,?_⟩
  obtain ⟨htypes,hvalid⟩ := bodies_isValid (g := ⟨.i32,true,pool.heapBase⟩) hp hs hset rfl rfl hown
  have hbuilt := assemble_built o (programImports p) entry.index (own ++ (neededRoutines own).map routineBody) pool
  rw [hmodule]
  refine fun f hf => ⟨hbuilt.isValidBody rfl ?_ f hf,hbuilt.code f hf⟩
  have hcallable : ((programImports p).map fun f => signature f.params f.result) ++
      (own ++ (neededRoutines own).map routineBody).map (·.type) = callable p (neededRoutines own) := by
    rw [callable,List.map_append,htypes,List.map_map,List.append_assoc]
    rfl
  rw [hcallable]
  exact hvalid

end Lower

end Covenant
