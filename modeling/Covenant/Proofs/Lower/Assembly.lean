import Covenant.Lower.Program
import Covenant.Proofs.Typing.Scopes
import Covenant.Proofs.Wasm.Validation

/-! What a module holds after it is put together: each function with its type, its locals and its code,
and each routine under its number. -/

namespace Covenant.Lower

open Wasm

theorem indexIn_spec (t : FuncType) (types : List FuncType) :
    types <+: (t.indexIn types).1 ∧ (t.indexIn types).1[(t.indexIn types).2]? = some t := by
  rw [FuncType.indexIn]
  cases h : types.findIdx? (· = t) with
  | none => exact ⟨List.prefix_append _ _,by simp⟩
  | some i =>
    obtain ⟨hlt,heq,-⟩ := List.findIdx?_eq_some_iff_getElem.mp h
    exact ⟨List.prefix_rfl,by simpa [hlt] using heq⟩

structure Implements (types : List FuncType) (f : Wasm.Function) (b : Body) : Prop where
  type : types[f.type]? = some b.type
  locals : f.locals = b.locals
  code : f.code = Instr.piecesOf b.code

/-- A module has imports of these types and functions of these bodies. -/
structure Built (m : Module) (ts : List FuncType) (bs : List Body) : Prop where
  imports : List.Forall₂ (fun i t => m.types[i.type]? = some t) m.imports ts
  functions : List.Forall₂ (Implements m.types) m.functions bs

namespace Built

variable {m : Module} {ts : List FuncType} {bs : List Body}

theorem empty : Built .empty [] [] := ⟨.nil,.nil⟩

theorem extend {types : List FuncType} (h : Built m ts bs) (ht : m.types <+: types) :
    Built { m with types } ts bs where
  imports := h.imports.imp fun _ _ hi => getElem?_of_initial ht hi
  functions := h.functions.imp fun _ _ hf => ⟨getElem?_of_initial ht hf.type,hf.locals,hf.code⟩

theorem addImport (host : String) (f : HostFunction) (h : Built m ts bs) :
    Built (addImport host m f) (ts ++ [signature f.params f.result]) bs := by
  obtain ⟨hpre,hi⟩ := indexIn_spec (signature f.params f.result) m.types
  have hext := h.extend hpre
  exact ⟨List.rel_append hext.imports (.cons hi .nil),hext.functions⟩

theorem addFunction (b : Body) (h : Built m ts bs) : Built (addFunction m b) ts (bs ++ [b]) := by
  obtain ⟨hpre,hi⟩ := indexIn_spec b.type m.types
  have hext := h.extend hpre
  exact ⟨hext.imports,List.rel_append hext.functions (.cons ⟨hi,rfl,rfl⟩ .nil)⟩

theorem addImports (host : String) (fs : List HostFunction) (h : Built m ts bs) :
    Built (fs.foldl (Lower.addImport host) m) (ts ++ fs.map fun f => signature f.params f.result) bs := by
  induction fs generalizing m ts with
  | nil => simpa using h
  | cons f fs ih => simpa using ih (h.addImport host f)

theorem addFunctions (cs : List Body) (h : Built m ts bs) :
    Built (cs.foldl Lower.addFunction m) ts (bs ++ cs) := by
  induction cs generalizing m bs with
  | nil => simpa using h
  | cons c cs ih => simpa using ih (h.addFunction c)

theorem types_eq (h : Built m ts bs) : m.functionTypes? = some (ts ++ bs.map (·.type)) := by
  have hmap {is : List Nat} {us : List FuncType}
      (h : List.Forall₂ (fun i t => m.types[i]? = some t) is us) : is.mapM (m.types[·]?) = some us := by
    induction h with
    | nil => rfl
    | cons hi _ ih => simp [List.mapM_cons, hi, ih]
  refine hmap (List.rel_append ?_ ?_)
  · exact List.forall₂_map_left_iff.mpr h.imports
  · exact List.forall₂_map_left_iff.mpr (List.forall₂_map_right_iff.mpr
      (h.functions.imp fun _ _ hf => hf.type))

theorem implements (h : Built m ts bs) {f : Wasm.Function} (hf : f ∈ m.functions) :
    ∃ b ∈ bs, Implements m.types f b := by
  obtain ⟨i,hi,rfl⟩ := List.mem_iff_getElem.mp hf
  exact ⟨_,List.getElem_mem _,h.functions.get hi (h.functions.length_eq ▸ hi)⟩

theorem code (h : Built m ts bs) (f : Wasm.Function) (hf : f ∈ m.functions) :
    ∃ is, f.code = Instr.piecesOf is := by
  obtain ⟨b,-,hb⟩ := h.implements hf
  exact ⟨b.code,hb.code⟩

end Built

/-- What a body may refer to in a module that has imports and bodies of these types. -/
def bodyScope (G : List FuncType) (g : List Global) (b : Body) : BodyScope :=
  ⟨G, b.type.params ++ b.locals, g, true, b.type.results⟩

theorem Built.isValidBody {m : Module} {ts : List FuncType} {bs : List Body} {number : String → Option Nat}
    (h : Built m ts bs) (hm : m.memory.isSome = true)
    (hb : ∀ b ∈ bs, (Instr.piecesOf b.code : Code).isValid
      (bodyScope (ts ++ bs.map (·.type)) m.globals b) number = true) :
    ∀ f ∈ m.functions, m.isValidBody number f = true := by
  intro f hf
  obtain ⟨b,hmem,himpl⟩ := h.implements hf
  have hvalid := hb b hmem
  rw [Module.isValidBody,h.types_eq,himpl.type,himpl.code,himpl.locals,hm]
  exact hvalid

theorem assemble_built (o : Options) (imports : List HostFunction) (entry : Nat) (bs : List Body)
    (pool : Memory.Pool) : Built (assemble o imports entry bs pool)
      (imports.map fun f => signature f.params f.result) bs := by
  have h := (Built.empty.addImports o.hostModule imports).addFunctions bs
  rw [List.nil_append,List.nil_append] at h
  exact ⟨h.imports,h.functions⟩

theorem indexIn_nodup (t : FuncType) {types : List FuncType} (h : types.Nodup) :
    (t.indexIn types).1.Nodup := by
  rw [FuncType.indexIn]
  cases hfind : types.findIdx? (· = t) with
  | some i => exact h
  | none =>
    have hnew : ∀ u ∈ types, u ≠ t := by simpa using hfind
    simpa [List.nodup_append, h] using hnew

theorem assemble_types_nodup (o : Options) (imports : List HostFunction) (entry : Nat) (bs : List Body)
    (pool : Memory.Pool) : (assemble o imports entry bs pool).types.Nodup := by
  have himports (fs : List HostFunction) (m : Module) (h : m.types.Nodup) :
      (fs.foldl (addImport o.hostModule) m).types.Nodup := by
    induction fs generalizing m with
    | nil => exact h
    | cons f fs ih => exact ih _ (indexIn_nodup _ h)
  have hbodies (bs : List Body) (m : Module) (h : m.types.Nodup) : (bs.foldl addFunction m).types.Nodup := by
    induction bs generalizing m with
    | nil => exact h
    | cons b bs ih => exact ih _ (indexIn_nodup _ h)
  exact hbodies bs _ (himports imports .empty List.nodup_nil)

theorem assemble_imports (o : Options) (imports : List HostFunction) (entry : Nat) (bs : List Body)
    (pool : Memory.Pool) : List.Forall₂ (fun i h => i.module = o.hostModule ∧ i.name = h.importName)
      (assemble o imports entry bs pool).imports imports := by
  have hbodies (bs : List Body) (m : Module) : (bs.foldl addFunction m).imports = m.imports := by
    induction bs generalizing m with
    | nil => rfl
    | cons b bs ih => exact ih _
  have himports (fs gs : List HostFunction) (m : Module)
      (h : List.Forall₂ (fun i h => i.module = o.hostModule ∧ i.name = h.importName) m.imports gs) :
      List.Forall₂ (fun i h => i.module = o.hostModule ∧ i.name = h.importName)
        (fs.foldl (addImport o.hostModule) m).imports (gs ++ fs) := by
    induction fs generalizing m gs with
    | nil => simpa using h
    | cons f fs ih =>
      have hone := ih (gs ++ [f]) (addImport o.hostModule m f) (List.rel_append h (.cons ⟨rfl,rfl⟩ .nil))
      simpa using hone
  have hall := himports imports [] .empty .nil
  rw [← hbodies bs] at hall
  exact hall

theorem routineNumber_spec (base : Nat) {rs : List Routine} {r : Routine} (h : r ∈ rs) :
    ∃ k, routineNumber base rs r.name = some (base + k) ∧ rs[k]? = some r := by
  have hsome : (rs.findIdx? (·.name = r.name)).isSome = true := by
    rw [List.findIdx?_isSome]
    exact List.any_eq_true.mpr ⟨r,h,decide_eq_true rfl⟩
  obtain ⟨k,hk⟩ := Option.isSome_iff_exists.mp hsome
  obtain ⟨hlt,hname,-⟩ := List.findIdx?_eq_some_iff_getElem.mp hk
  refine ⟨k,by rw [routineNumber,hk]; rfl,?_⟩
  rw [List.getElem?_eq_getElem hlt,Routine.name_injective (of_decide_eq_true hname)]

mutual

theorem routines_pieces : ∀ i : Instr, Code.routines i.pieces = i.routines.map Routine.name
  | .op _ | .routine _ => rfl
  | .block _ b | .loop _ b => by
    have hb := routines_piecesOf b
    simpa [Instr.pieces, Instr.routines, Code.routines] using hb
  | .cond _ y none => by
    have hy := routines_piecesOf y
    simpa [Instr.pieces, Instr.routines, Code.routines] using hy
  | .cond _ y (some n) => by
    have hy := routines_piecesOf y
    have hn := routines_piecesOf n
    simp only [Code.routines] at hy hn
    simp [Instr.pieces, Instr.routines, Code.routines, hy, hn]

theorem routines_piecesOf : ∀ is : List Instr,
    Code.routines (Instr.piecesOf is) = (Instr.routinesOf is).map Routine.name
  | [] => rfl
  | i :: is => by
    have hi := routines_pieces i
    have his := routines_piecesOf is
    simp only [Code.routines] at hi his
    simp [Instr.piecesOf, Instr.routinesOf, Code.routines, hi, his]

end

theorem mem_neededRoutines {bs : List Body} {r : Routine} : r ∈ neededRoutines bs ↔
    let called := bs.flatMap fun b => Instr.routinesOf b.code
    r ∈ called ∨ r ∈ called.flatMap Routine.needs := by
  have hall : r ∈ Routine.all := by cases r <;> decide
  simp [neededRoutines, hall]

theorem mem_needed_of_code {bs : List Body} {b : Body} {r : Routine} (hb : b ∈ bs)
    (hr : r ∈ Instr.routinesOf b.code) : r ∈ neededRoutines bs :=
  mem_neededRoutines.mpr (.inl (List.mem_flatMap.mpr ⟨b,hb,hr⟩))

theorem routinesOf_code (r : Routine) : Instr.routinesOf r.code = r.needs := by
  cases r <;> rfl

theorem needs_of_needs {q r : Routine} (h : q ∈ r.needs) : q.needs = [] := by
  cases r with
  | concat =>
    obtain rfl := List.mem_singleton.mp h
    rfl
  | _ => cases h

theorem mem_needed_of_routine {bs : List Body} {q r : Routine} (hq : q ∈ neededRoutines bs)
    (hr : r ∈ Instr.routinesOf q.code) : r ∈ neededRoutines bs := by
  rw [routinesOf_code] at hr
  rcases mem_neededRoutines.mp hq with hcalled | hneeded
  · exact mem_neededRoutines.mpr (.inr (List.mem_flatMap.mpr ⟨q,hcalled,hr⟩))
  · obtain ⟨s,-,hs⟩ := List.mem_flatMap.mp hneeded
    rw [needs_of_needs hs] at hr
    cases hr

end Covenant.Lower
