import Covenant.Memory.Layout
import Covenant.Proofs.Renaming.Basic

/-! What depends on types and names only up to renaming: how types agree, what operators and built-in
operations yield, and what is found under a name. -/

namespace Covenant

variable {ρ : Renaming}

section Lists

variable {α β : Type} {f : α → β} {g : α → String} {g' : β → String} {r : String → String}

theorem decide_name (hr : Function.Injective r) (hg : ∀ a, g' (f a) = r (g a)) (a : α) (x : String) :
    decide (g' (f a) = r x) = decide (g a = x) := by
  rw [hg,decide_eq_decide]
  exact hr.eq_iff

theorem find?_rename (hr : Function.Injective r) (hg : ∀ a, g' (f a) = r (g a)) (x : String)
    (xs : List α) : (xs.map f).find? (g' · = r x) = (xs.find? (g · = x)).map f := by
  induction xs with
  | nil => rfl
  | cons a xs ih =>
    rw [List.map_cons,List.find?_cons,List.find?_cons,decide_name hr hg]
    cases decide (g a = x) with
    | true => rfl
    | false => exact ih

theorem findIdx?_rename (hr : Function.Injective r) (hg : ∀ a, g' (f a) = r (g a)) (x : String)
    (xs : List α) : (xs.map f).findIdx? (g' · = r x) = xs.findIdx? (g · = x) := by
  induction xs with
  | nil => rfl
  | cons a xs ih =>
    rw [List.map_cons,List.findIdx?_cons,List.findIdx?_cons,decide_name hr hg,ih]

theorem any_rename (hr : Function.Injective r) (hg : ∀ a, g' (f a) = r (g a)) (x : String)
    (xs : List α) : (xs.map f).any (g' · = r x) = xs.any (g · = x) := by
  induction xs with
  | nil => rfl
  | cons a xs ih => rw [List.map_cons,List.any_cons,List.any_cons,decide_name hr hg,ih]

theorem contains_rename {α β : Type} [BEq α] [LawfulBEq α] [BEq β] [LawfulBEq β] {r : α → β}
    (hr : Function.Injective r) (x : α) (xs : List α) : (xs.map r).contains (r x) = xs.contains x := by
  rw [Bool.eq_iff_iff,List.contains_iff_mem,List.contains_iff_mem]
  exact ⟨fun h => by
    obtain ⟨y,hy,heq⟩ := List.mem_map.mp h
    exact hr heq ▸ hy,List.mem_map_of_mem⟩

theorem kind_rename {P : String → Bool} (hr : Function.Injective r) (hP : ∀ x, P x = true → r x = x)
    (x : String) : P (r x) = P x := by
  cases h : P x with
  | true => rw [hP x h,h]
  | false =>
    rw [Bool.eq_false_iff]
    intro h'
    rw [hr (hP _ h'),h] at h'
    cases h'

end Lists

@[simp] theorem RecordDecl.fieldIndex?_rename [ρ.Faithful] (d : RecordDecl) (f : String) :
    (d.rename ρ).fieldIndex? (ρ.field f) = d.fieldIndex? f :=
  findIdx?_rename (f := FieldDecl.rename ρ) (g := FieldDecl.name) ρ.field_injective (fun _ => rfl) f d.fields

theorem RecordDecl.findField?_rename [ρ.Faithful] (d : RecordDecl) (f : String) :
    (d.rename ρ).fields.find? (·.name = ρ.field f) =
      (d.fields.find? (·.name = f)).map (FieldDecl.rename ρ) :=
  find?_rename (f := FieldDecl.rename ρ) (g := FieldDecl.name) ρ.field_injective (fun _ => rfl) f d.fields

@[simp] theorem EnumDecl.tag?_rename [ρ.Faithful] (d : EnumDecl) (v : String) :
    (d.rename ρ).tag? (ρ.variant v) = d.tag? v :=
  findIdx?_rename (f := ρ.variant) (g := fun x => x) ρ.variant_injective (fun _ => rfl) v d.variants

namespace Ty

section

variable (t : Ty)

@[simp] theorem isNumeric_rename : (t.rename ρ).isNumeric = t.isNumeric := by cases t <;> rfl

@[simp] theorem isScalar_rename : (t.rename ρ).isScalar = t.isScalar := by cases t <;> rfl

@[simp] theorem isEnum_rename : (t.rename ρ).isEnum = t.isEnum := by cases t <;> rfl

@[simp] theorem hasHole_rename : (t.rename ρ).hasHole = t.hasHole := by
  induction t with
  | array t ih | option t ih | result t ih => exact ih
  | _ => rfl

@[simp] theorem valType_rename : (t.rename ρ).valType = t.valType := by cases t <;> rfl

end

theorem getD_void_rename (result : Option Ty) :
    (result.map (rename ρ)).getD .void = (result.getD .void).rename ρ := by
  cases result <;> rfl

def isNameless : Ty → Bool
  | record _ | enum _ => false
  | array t | option t | result t => t.isNameless
  | _ => true

theorem rename_of_isNameless {t : Ty} (h : t.isNameless = true) : t.rename ρ = t := by
  induction t with
  | array t ih | option t ih | result t ih => rw [rename,ih h]
  | record n | enum n => cases h
  | _ => rfl

section Faithful

variable [ρ.Faithful]

variable (ρ) in
theorem rename_injective : Function.Injective (rename ρ) := by
  intro s t h
  induction s generalizing t with
  | array s ih | option s ih | result s ih =>
    cases t <;> simp only [rename, reduceCtorEq, array.injEq, option.injEq, result.injEq] at h
    rw [ih h]
  | record n | enum n =>
    cases t <;> simp only [rename, reduceCtorEq, record.injEq, enum.injEq] at h
    rw [ρ.type_injective h]
  | _ => cases t <;> first | rfl | cases h

@[simp] theorem rename_inj {s t : Ty} : s.rename ρ = t.rename ρ ↔ s = t := (rename_injective ρ).eq_iff

section

variable (t : Ty)

@[simp] theorem rename_eq_void : t.rename ρ = .void ↔ t = .void := rename_inj (t := .void)

@[simp] theorem rename_eq_error : t.rename ρ = .error ↔ t = .error := rename_inj (t := .error)

@[simp] theorem rename_eq_hole : t.rename ρ = .hole ↔ t = .hole := rename_inj (t := .hole)

@[simp] theorem rename_eq_boolean : t.rename ρ = .boolean ↔ t = .boolean := rename_inj (t := .boolean)

@[simp] theorem rename_eq_string : t.rename ρ = .string ↔ t = .string := rename_inj (t := .string)

@[simp] theorem rename_eq_did : t.rename ρ = .did ↔ t = .did := rename_inj (t := .did)

@[simp] theorem rename_eq_mana : t.rename ρ = .mana ↔ t = .mana := rename_inj (t := .mana)

@[simp] theorem rename_eq_enum (n : String) : t.rename ρ = .enum (ρ.type n) ↔ t = .enum n :=
  rename_inj (t := .enum n)

end

theorem unify_rename (s t : Ty) : unify (s.rename ρ) (t.rename ρ) = (unify s t).map (rename ρ) := by
  induction s generalizing t with
  | array s ih | option s ih | result s ih =>
    cases t <;> simp [rename, unify, isNumeric, ih, Function.comp_def]
  | record n | enum n =>
    cases t with
    | record m | enum m =>
      by_cases h : n = m <;> simp [rename, unify, isNumeric, h, ρ.type_injective.eq_iff]
    | _ => simp [rename, unify, isNumeric]
  | _ => cases t <;> simp [rename, unify, isNumeric]

@[simp] theorem compatible_rename (s t : Ty) : compatible (s.rename ρ) (t.rename ρ) = compatible s t := by
  rw [← unify_isSome,← unify_isSome,unify_rename,Option.isSome_map]

end Faithful

end Ty

namespace Renaming

theorem none_of_isReserved {f : String} (h : Check.isReserved f = false) :
    Builtin.ofFunction? f = none ∧ HostFunction.find? f = none := by
  simpa [Check.isReserved] using h

variable (ρ) [ρ.Faithful]

theorem isReserved_function (f : String) : Check.isReserved (ρ.function f) = Check.isReserved f :=
  kind_rename ρ.function_injective ρ.reserved_fixed f

theorem library_function (f : String) :
    Builtin.ofFunction? (ρ.function f) = Builtin.ofFunction? f ∧
      HostFunction.find? (ρ.function f) = HostFunction.find? f := by
  cases h : Check.isReserved f with
  | true =>
    rw [ρ.reserved_fixed f h]
    exact ⟨rfl,rfl⟩
  | false =>
    obtain ⟨hb,hh⟩ := none_of_isReserved h
    obtain ⟨hb',hh'⟩ := none_of_isReserved ((ρ.isReserved_function f).trans h)
    rw [hb,hh,hb',hh']
    exact ⟨rfl,rfl⟩

theorem isSome_ofName?_type (x : String) : (Ty.ofName? (ρ.type x)).isSome = (Ty.ofName? x).isSome :=
  kind_rename (P := fun x => (Ty.ofName? x).isSome) ρ.type_injective ρ.known_fixed x

theorem function_builtin (b : Builtin) : ρ.function b.name = b.name :=
  ρ.reserved_fixed _ (by rw [Check.isReserved,Builtin.ofFunction?_name]; rfl)

end Renaming

theorem Callee.name_rename [ρ.Faithful] (f : Callee) : (f.rename ρ).name = ρ.function f.name := by
  cases f with
  | builtin b => exact (ρ.function_builtin b).symm
  | _ => rfl

theorem HostFunction.rename_of_find? [ρ.Faithful] {f : String} {h : HostFunction}
    (hf : HostFunction.find? f = some h) : h.rename ρ = h := by
  have hname : h.name = f := by simpa using List.find?_some hf
  have hfixed : ρ.function h.name = h.name :=
    ρ.reserved_fixed _ (by rw [hname,Check.isReserved,hf]; exact Bool.or_true _)
  rw [HostFunction.rename,hfixed]

theorem HostFunction.types_rename {f : String} {h : HostFunction} (hf : HostFunction.find? f = some h) :
    h.params.map (Ty.rename ρ) = h.params ∧ h.result.map (Ty.rename ρ) = h.result := by
  have hall : ∀ h ∈ HostFunction.all, h.params.all Ty.isNameless = true ∧
      h.result.all Ty.isNameless = true := by decide
  obtain ⟨hparams,hresult⟩ := hall h (List.mem_of_find?_eq_some hf)
  constructor
  · have hsame : h.params.map (Ty.rename ρ) = h.params.map id :=
      List.map_congr_left fun t ht => Ty.rename_of_isNameless (List.all_eq_true.mp hparams t ht)
    rwa [List.map_id] at hsame
  · cases hr : h.result with
    | none => rfl
    | some t =>
      rw [hr] at hresult
      rw [Option.map_some,Ty.rename_of_isNameless hresult]

theorem UnaryOp.type?_rename (op : UnaryOp) (t : Ty) :
    op.type? (t.rename ρ) = (op.type? t).map (Ty.rename ρ) := by
  cases op <;> cases t <;> rfl

theorem BinaryOp.type?_rename [ρ.Faithful] (op : BinaryOp) (s t : Ty) :
    op.type? (s.rename ρ) (t.rename ρ) = (op.type? s t).map (Ty.rename ρ) := by
  simp only [type?, Ty.rename_eq_error, Ty.rename_eq_mana, Ty.rename_eq_string, Ty.rename_eq_boolean,
    Ty.isNumeric_rename, Ty.isScalar_rename, Ty.compatible_rename]
  split
  · rfl
  · cases op <;> simp only [] <;> split <;> first | rfl | (split <;> rfl)

namespace Builtin

theorem resultOnError_rename (b : Builtin) : b.resultOnError.rename ρ = b.resultOnError := by
  cases b <;> rfl

theorem textResult_rename [ρ.Faithful] (b : Builtin) (r : Ty) (ts : List Ty) :
    b.textResult (r.rename ρ) (ts.map (Ty.rename ρ)) =
      ((b.textResult r ts).map (Ty.rename ρ)).mapError (Problem.rename ρ) := by
  have hfind : (ts.map (Ty.rename ρ)).find? (· ≠ .string) = (ts.find? (· ≠ .string)).map (Ty.rename ρ) := by
    rw [List.find?_map]
    congr 2
    funext t
    simp
  simp only [textResult, hfind]
  cases ts.find? (· ≠ .string) <;> rfl

theorem arrayResult_rename [ρ.Faithful] (b : Builtin) (ts : List Ty) :
    b.arrayResult (ts.map (Ty.rename ρ)) =
      ((b.arrayResult ts).map (Ty.rename ρ)).mapError (Problem.rename ρ) := by
  cases ts with
  | nil => rfl
  | cons t ts =>
    cases t with
    | array t =>
      cases b <;> cases ts with
      | nil => rfl
      | cons u us =>
        cases us <;> simp only [List.map_cons, List.map_nil, arrayResult, Ty.rename, Ty.compatible_rename,
          Ty.isScalar_rename, Ty.rename_eq_hole] <;> (repeat' split) <;> rfl
    | _ => rfl

theorem result_rename [ρ.Faithful] (b : Builtin) (ts : List Ty) :
    b.result (ts.map (Ty.rename ρ)) = ((b.result ts).map (Ty.rename ρ)).mapError (Problem.rename ρ) := by
  have herror : (ts.map (Ty.rename ρ)).contains .error = ts.contains .error :=
    contains_rename (Ty.rename_injective ρ) .error ts
  simp only [result, List.length_map, herror]
  split
  · have harity : (Problem.arity b.name b.arity ts.length).rename ρ = .arity b.name b.arity ts.length := by
      rw [Problem.rename,ρ.function_builtin]
    exact congrArg Except.error harity.symm
  · split
    · exact congrArg Except.ok b.resultOnError_rename.symm
    · cases b with
      | stringLen => exact textResult_rename _ .integer ts
      | stringConcat => exact textResult_rename _ .string ts
      | _ => exact arrayResult_rename _ ts

theorem ofMethod?_rename (t : Ty) (m : String) : ofMethod? (t.rename ρ) m = ofMethod? t m := by
  cases t <;> rfl

end Builtin

namespace PatternForm

@[simp] theorem isCatchAll_rename (p : PatternForm) : (p.rename ρ).isCatchAll = p.isCatchAll := by
  cases p <;> rfl

theorem word_rename (p : PatternForm) : (p.rename ρ).word = p.word := by
  cases p <;> rfl

theorem binder?_rename (p : PatternForm) : (p.rename ρ).binder? = p.binder?.map (Binder.rename ρ) := by
  cases p <;> rfl

theorem setBinder_rename (p : PatternForm) (b : Binder) :
    (p.setBinder b).rename ρ = (p.rename ρ).setBinder (b.rename ρ) := by
  cases p <;> rfl

end PatternForm

namespace Check

variable [ρ.Faithful] (p : PatternForm) (t : Ty)

theorem patternFits_rename : patternFits (p.rename ρ) (t.rename ρ) =
    ((patternFits p t).1, (patternFits p t).2.rename ρ) := by
  cases p with
  | int | wild | bind | enum | bool | text => simp [patternFits, PatternForm.rename, Ty.rename]
  | _ => cases t <;> rfl

theorem patternFits_fst_rename : (patternFits (p.rename ρ) (t.rename ρ)).1 = (patternFits p t).1 := by
  rw [patternFits_rename]

theorem patternFits_snd_rename :
    (patternFits (p.rename ρ) (t.rename ρ)).2 = (patternFits p t).2.rename ρ := by
  rw [patternFits_rename]

end Check

theorem keptType_rename (type : Option Ty) :
    keptType (type.map (Ty.rename ρ)) = (keptType type).rename ρ := by
  cases type with
  | none => rfl
  | some t => cases t <;> rfl

namespace Expr

theorem note_rename (e : Expr) : (e.rename ρ).note = e.note.rename ρ := by
  cases e with
  | block n ss tail d => cases tail <;> rfl
  | _ => rfl

theorem pos_rename (e : Expr) : (e.rename ρ).pos = ρ.place e.pos := by
  rw [pos,note_rename]
  rfl

@[simp] theorem type_rename (e : Expr) : (e.rename ρ).type = e.type.map (Ty.rename ρ) := by
  rw [type,note_rename]
  rfl

end Expr

theorem Stmt.pos_rename (s : Stmt) : (s.rename ρ).pos = ρ.place s.pos := by
  cases s with
  | ret p e => cases e <;> rfl
  | _ => rfl

end Covenant
