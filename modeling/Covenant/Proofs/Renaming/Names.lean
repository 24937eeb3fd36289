import Covenant.Proofs.Renaming.Basic
import Mathlib.SetTheory.Cardinal.Arithmetic

/-! The names in a program. Only they matter: a renaming that keeps them apart does to the program what some
faithful renaming does. -/

namespace Covenant

inductive Label where
  | var (x : String)
  | function (f : String)
  | type (n : String)
  | field (f : String)
  | variant (v : String)
  deriving DecidableEq, Repr

/-- Names that mean something without a declaration, and the name that the host calls. -/
def Label.isFixed : Label → Bool
  | .function f => f = entryPoint || Check.isReserved f
  | .type n => (Ty.ofName? n).isSome
  | _ => false

namespace Renaming

@[simp] def apply (ρ : Renaming) : Label → Label
  | .var x => .var (ρ.var x)
  | .function f => .function (ρ.function f)
  | .type n => .type (ρ.type n)
  | .field f => .field (ρ.field f)
  | .variant v => .variant (ρ.variant v)

/-- The renaming gives no two of the names the same new one. Of the fixed names it changes none, and it gives
none of them to another name. -/
structure Suits (ρ : Renaming) (names : List Label) : Prop where
  injective : ∀ m ∈ names, ∀ n ∈ names, ρ.apply m = ρ.apply n → m = n
  fixed : ∀ n ∈ names, n.isFixed = true → ρ.apply n = n
  avoids : ∀ n ∈ names, (ρ.apply n).isFixed = true → n.isFixed = true

def Agrees (ρ σ : Renaming) (names : List Label) : Prop := ∀ n ∈ names, ρ.apply n = σ.apply n

section

variable {ρ σ : Renaming} {n : Label} {ms ns : List Label}

@[simp] theorem agrees_cons : ρ.Agrees σ (n :: ns) ↔ ρ.apply n = σ.apply n ∧ ρ.Agrees σ ns :=
  List.forall_mem_cons

@[simp] theorem agrees_append : ρ.Agrees σ (ms ++ ns) ↔ ρ.Agrees σ ms ∧ ρ.Agrees σ ns :=
  List.forall_mem_append

end

end Renaming

def Ty.labels : Ty → List Label
  | .record n | .enum n => [.type n]
  | .array t | .option t | .result t => t.labels
  | _ => []

def Symbol.labels (s : Symbol) : List Label := .var s.name :: s.type.labels

def Note.labels (n : Note) : List Label := n.type.elim [] Ty.labels

def Binder.labels (b : Binder) : List Label := [.var b.name]

def PatternForm.labels : PatternForm → List Label
  | .bind b => b.labels
  | .some b | .ok b | .err b => b.elim [] Binder.labels
  | .enum o v => [.type o, .variant v]
  | .int _ | .bool _ | .text _ | .wild | .none => []

def Callee.labels : Callee → List Label
  | .unresolved f | .user f => [.function f]
  | .builtin _ => []
  | .host h => [.function h.name]

mutual

def Expr.labels : Expr → List Label
  | .int n _ | .bool n _ | .text n _ | .noneLit n => n.labels
  | .name n x sym => n.labels ++ .var x :: sym.elim [] Symbol.labels
  | .unary n _ e | .wrap n _ e => n.labels ++ e.labels
  | .binary n _ a b | .index n a b => n.labels ++ (a.labels ++ b.labels)
  | .call n f args => n.labels ++ (f.labels ++ Expr.labelsIn args)
  | .method n e _ args _ => n.labels ++ (e.labels ++ Expr.labelsIn args)
  | .array n es => n.labels ++ Expr.labelsIn es
  | .field n e f => n.labels ++ .field f :: e.labels
  | .record n x fs => n.labels ++ .type x :: FieldInit.labelsIn fs
  | .enum n o v _ => n.labels ++ [.type o, .variant v]
  | .select n e as => n.labels ++ (e.labels ++ Arm.labelsIn as)
  | .block n ss none _ => n.labels ++ Stmt.labelsIn ss
  | .block n ss (some e) _ => n.labels ++ (Stmt.labelsIn ss ++ e.labels)

def Expr.labelsIn : List Expr → List Label
  | [] => []
  | e :: es => e.labels ++ Expr.labelsIn es

def FieldInit.labelsIn : List FieldInit → List Label
  | [] => []
  | .mk _ x e :: fs => .field x :: (e.labels ++ FieldInit.labelsIn fs)

def Arm.labelsIn : List Arm → List Label
  | [] => []
  | .mk _ p e :: as => p.form.labels ++ (e.labels ++ Arm.labelsIn as)

def Stmt.labels : Stmt → List Label
  | .bind _ x d e _ => .var x :: (d.elim [] Ty.labels ++ e.labels)
  | .assign _ t e => t.labels ++ e.labels
  | .ret _ none | .leave _ | .next _ => []
  | .ret _ (some e) | .expr _ e => e.labels
  | .cond _ c => c.labels
  | .loop _ e b => e.labels ++ b.labels
  | .each _ x e b _ => .var x :: (e.labels ++ b.labels)

def Stmt.labelsIn : List Stmt → List Label
  | [] => []
  | s :: ss => s.labels ++ Stmt.labelsIn ss

def Block.labels : Block → List Label
  | .mk _ ss => Stmt.labelsIn ss

def Chain.labels : Chain → List Label
  | .stop => []
  | .otherwise b => b.labels
  | .branch _ e b c => e.labels ++ (b.labels ++ c.labels)

end

def Param.labels (p : Param) : List Label := .var p.name :: p.type.labels

def FieldDecl.labels (f : FieldDecl) : List Label := .field f.name :: f.type.labels

def FunctionDecl.labels (f : FunctionDecl) : List Label :=
  .function f.name :: (f.params.flatMap Param.labels ++ (f.result.elim [] Ty.labels ++
    (f.body.labels ++ f.slots.flatMap Ty.labels)))

def RecordDecl.labels (r : RecordDecl) : List Label := .type r.name :: r.fields.flatMap FieldDecl.labels

def EnumDecl.labels (e : EnumDecl) : List Label := .type e.name :: e.variants.map .variant

def ConstDecl.labels (c : ConstDecl) : List Label := .var c.name :: (c.type.labels ++ c.value.labels)

def Item.labels : Item → List Label
  | .function f => f.labels
  | .record r => r.labels
  | .enum e => e.labels
  | .constant c => c.labels

def Program.labels (p : Program) : List Label := p.items.flatMap Item.labels

namespace Renaming.Agrees

variable {ρ σ : Renaming}

theorem map_congr {α β : Type} {labels : α → List Label} {f g : α → β}
    (h : ∀ a, ρ.Agrees σ (labels a) → f a = g a) {as : List α} (ha : ρ.Agrees σ (as.flatMap labels)) :
    as.map f = as.map g :=
  List.map_congr_left fun a ham => h a fun n hn => ha n (List.mem_flatMap.mpr ⟨a,ham,hn⟩)

theorem option_congr {α β : Type} {labels : α → List Label} {f g : α → β}
    (h : ∀ a, ρ.Agrees σ (labels a) → f a = g a) {a : Option α} (ha : ρ.Agrees σ (a.elim [] labels)) :
    a.map f = a.map g := by
  cases a with
  | none => rfl
  | some a => exact congrArg some (h a ha)

theorem ty : ∀ t : Ty, ρ.Agrees σ t.labels → t.rename ρ = t.rename σ
  | .integer, _ | .mana, _ | .boolean, _ | .string, _ | .did, _ | .void, _ | .error, _ | .hole, _ => rfl
  | .array t, h | .option t, h | .result t, h => by rw [Ty.rename,ty t h,Ty.rename]
  | .record n, h | .enum n, h => by
    simp [Ty.labels] at h
    rw [Ty.rename,h.1,Ty.rename]

theorem symbol (s : Symbol) (h : ρ.Agrees σ s.labels) : s.rename ρ = s.rename σ := by
  simp [Symbol.labels] at h
  rw [Symbol.rename,h.1,ty s.type h.2,Symbol.rename]

theorem binder (b : Binder) (h : ρ.Agrees σ b.labels) : b.rename ρ = b.rename σ := by
  simp [Binder.labels] at h
  rw [Binder.rename,h.1,Binder.rename]

theorem patternForm (p : PatternForm) (h : ρ.Agrees σ p.labels) : p.rename ρ = p.rename σ := by
  cases p with
  | bind b => exact congrArg PatternForm.bind (binder b h)
  | some b => exact congrArg PatternForm.some (option_congr binder h)
  | ok b => exact congrArg PatternForm.ok (option_congr binder h)
  | err b => exact congrArg PatternForm.err (option_congr binder h)
  | enum o v =>
    simp [PatternForm.labels] at h
    rw [PatternForm.rename,h.1,h.2.1,PatternForm.rename]
  | _ => rfl

theorem callee (f : Callee) (h : ρ.Agrees σ f.labels) : f.rename ρ = f.rename σ := by
  cases f with
  | builtin op => rfl
  | unresolved f | user f | host f =>
    simp [Callee.labels] at h
    simp only [Callee.rename, HostFunction.rename, h.1]

theorem note (hplace : ρ.place = σ.place) (n : Note) (h : ρ.Agrees σ n.labels) : n.rename ρ = n.rename σ := by
  rw [Note.rename,hplace,option_congr ty h,Note.rename]

theorem pattern (hplace : ρ.place = σ.place) (p : Pattern) (h : ρ.Agrees σ p.form.labels) : p.rename ρ = p.rename σ := by
  rw [Pattern.rename,hplace,patternForm p.form h,Pattern.rename]

mutual

theorem expr (hplace : ρ.place = σ.place) : ∀ e : Expr, ρ.Agrees σ e.labels → e.rename ρ = e.rename σ
  | .int n _, h | .bool n _, h | .text n _, h | .noneLit n, h => by simp [Expr.rename, note hplace n h]
  | .name n x sym, h => by
    simp [Expr.labels] at h
    simp [Expr.rename, note hplace n h.1, h.2.1, option_congr symbol h.2.2]
  | .unary n _ e, h | .wrap n _ e, h => by
    simp [Expr.labels] at h
    simp [Expr.rename, note hplace n h.1, expr hplace e h.2]
  | .binary n _ a b, h | .index n a b, h => by
    simp [Expr.labels] at h
    simp [Expr.rename, note hplace n h.1, expr hplace a h.2.1, expr hplace b h.2.2]
  | .call n f args, h => by
    simp [Expr.labels] at h
    simp [Expr.rename, note hplace n h.1, callee f h.2.1, exprs hplace args h.2.2]
  | .method n e _ args _, h => by
    simp [Expr.labels] at h
    simp [Expr.rename, note hplace n h.1, expr hplace e h.2.1, exprs hplace args h.2.2]
  | .array n es, h => by
    simp [Expr.labels] at h
    simp [Expr.rename, note hplace n h.1, exprs hplace es h.2]
  | .field n e f, h => by
    simp [Expr.labels] at h
    simp [Expr.rename, note hplace n h.1, h.2.1, expr hplace e h.2.2]
  | .record n x fs, h => by
    simp [Expr.labels] at h
    simp [Expr.rename, note hplace n h.1, h.2.1, fields hplace fs h.2.2]
  | .enum n o v _, h => by
    simp [Expr.labels] at h
    simp [Expr.rename, note hplace n h.1, h.2.1, h.2.2.1]
  | .select n e as, h => by
    simp [Expr.labels] at h
    simp [Expr.rename, note hplace n h.1, expr hplace e h.2.1, arms hplace as h.2.2]
  | .block n ss none _, h => by
    simp [Expr.labels] at h
    simp [Expr.rename, note hplace n h.1, stmts hplace ss h.2]
  | .block n ss (some e) _, h => by
    simp [Expr.labels] at h
    simp [Expr.rename, note hplace n h.1, stmts hplace ss h.2.1, expr hplace e h.2.2]

theorem exprs (hplace : ρ.place = σ.place) : ∀ es : List Expr, ρ.Agrees σ (Expr.labelsIn es) → Expr.renameIn ρ es = Expr.renameIn σ es
  | [], _ => rfl
  | e :: es, h => by
    simp [Expr.labelsIn] at h
    simp [Expr.renameIn, expr hplace e h.1, exprs hplace es h.2]

theorem fields (hplace : ρ.place = σ.place) : ∀ fs : List FieldInit, ρ.Agrees σ (FieldInit.labelsIn fs) →
    FieldInit.renameIn ρ fs = FieldInit.renameIn σ fs
  | [], _ => rfl
  | .mk _ x e :: fs, h => by
    simp [FieldInit.labelsIn] at h
    simp [FieldInit.renameIn, hplace, h.1, expr hplace e h.2.1, fields hplace fs h.2.2]

theorem arms (hplace : ρ.place = σ.place) : ∀ as : List Arm, ρ.Agrees σ (Arm.labelsIn as) → Arm.renameIn ρ as = Arm.renameIn σ as
  | [], _ => rfl
  | .mk _ p e :: as, h => by
    simp [Arm.labelsIn] at h
    simp [Arm.renameIn, hplace, pattern hplace p h.1, expr hplace e h.2.1, arms hplace as h.2.2]

theorem stmt (hplace : ρ.place = σ.place) : ∀ s : Stmt, ρ.Agrees σ s.labels → s.rename ρ = s.rename σ
  | .bind _ x d e _, h => by
    simp [Stmt.labels] at h
    simp [Stmt.rename, hplace, h.1, option_congr ty h.2.1, expr hplace e h.2.2]
  | .assign _ t e, h => by
    simp [Stmt.labels] at h
    simp [Stmt.rename, hplace, expr hplace t h.1, expr hplace e h.2]
  | .ret _ none, _ | .leave _, _ | .next _, _ => by simp [Stmt.rename, hplace]
  | .ret _ (some e), h | .expr _ e, h => by simp [Stmt.rename, hplace, expr hplace e h]
  | .cond _ c, h => by simp [Stmt.rename, hplace, chain hplace c h]
  | .loop _ e b, h => by
    simp [Stmt.labels] at h
    simp [Stmt.rename, hplace, expr hplace e h.1, block hplace b h.2]
  | .each _ x e b _, h => by
    simp [Stmt.labels] at h
    simp [Stmt.rename, hplace, h.1, expr hplace e h.2.1, block hplace b h.2.2]

theorem stmts (hplace : ρ.place = σ.place) : ∀ ss : List Stmt, ρ.Agrees σ (Stmt.labelsIn ss) → Stmt.renameIn ρ ss = Stmt.renameIn σ ss
  | [], _ => rfl
  | s :: ss, h => by
    simp [Stmt.labelsIn] at h
    simp [Stmt.renameIn, stmt hplace s h.1, stmts hplace ss h.2]

theorem block (hplace : ρ.place = σ.place) : ∀ b : Block, ρ.Agrees σ b.labels → b.rename ρ = b.rename σ
  | .mk _ ss, h => by simp [Block.rename, hplace, stmts hplace ss h]

theorem chain (hplace : ρ.place = σ.place) : ∀ c : Chain, ρ.Agrees σ c.labels → c.rename ρ = c.rename σ
  | .stop, _ => rfl
  | .otherwise b, h => by simp [Chain.rename, block hplace b h]
  | .branch _ e b c, h => by
    simp [Chain.labels] at h
    simp [Chain.rename, hplace, expr hplace e h.1, block hplace b h.2.1, chain hplace c h.2.2]

end

section

variable (hplace : ρ.place = σ.place)
include hplace

theorem param (p : Param) (h : ρ.Agrees σ p.labels) : p.rename ρ = p.rename σ := by
  simp [Param.labels] at h
  rw [Param.rename,hplace,h.1,ty p.type h.2,Param.rename]

theorem fieldDecl (f : FieldDecl) (h : ρ.Agrees σ f.labels) : f.rename ρ = f.rename σ := by
  simp [FieldDecl.labels] at h
  rw [FieldDecl.rename,hplace,h.1,ty f.type h.2,FieldDecl.rename]

theorem functionDecl (f : FunctionDecl) (h : ρ.Agrees σ f.labels) : f.rename ρ = f.rename σ := by
  simp [FunctionDecl.labels] at h
  obtain ⟨hname,hparams,hresult,hbody,hslots⟩ := h
  rw [FunctionDecl.rename,hplace,hname,map_congr (param hplace) hparams,option_congr ty hresult,
    block hplace f.body hbody,map_congr ty hslots,FunctionDecl.rename]

theorem item (i : Item) (h : ρ.Agrees σ i.labels) : i.rename ρ = i.rename σ := by
  cases i with
  | function f => exact congrArg Item.function (functionDecl hplace f h)
  | record r =>
    simp [Item.labels, RecordDecl.labels] at h
    simp only [Item.rename, RecordDecl.rename, hplace, h.1, map_congr (fieldDecl hplace) h.2]
  | enum e =>
    simp [Item.labels, EnumDecl.labels] at h
    have hvariants : e.variants.map ρ.variant = e.variants.map σ.variant :=
      List.map_congr_left fun v hv => Label.variant.inj (h.2 _ (List.mem_map_of_mem hv))
    simp only [Item.rename, EnumDecl.rename, hplace, h.1, hvariants]
  | constant c =>
    simp [Item.labels, ConstDecl.labels] at h
    simp only [Item.rename, ConstDecl.rename, hplace, h.1, ty c.type h.2.1, expr hplace c.value h.2.2]

theorem program (p : Program) (h : ρ.Agrees σ p.labels) : p.rename ρ = p.rename σ := by
  rw [Program.rename,hplace,map_congr (item hplace) h,Program.rename]

end

end Renaming.Agrees

/-- A map on finitely many names that keeps them apart is part of one that keeps all names apart. Names of a
finite kind can be held fixed. -/
theorem exists_injective_extending {S R : Set String} (hS : S.Finite) (hR : R.Finite) {f : String → String}
    (hf : S.InjOn f) (hfixed : ∀ x ∈ S, x ∈ R → f x = x) (havoids : ∀ x ∈ S, f x ∈ R → x ∈ R) :
    ∃ g : String → String, Function.Injective g ∧ (∀ x ∈ S, g x = f x) ∧ ∀ x ∈ R, g x = x := by
  classical
  have hmixed {x y : String} (hy : y ∈ S ∪ R) (hxR : x ∈ R) (hyR : y ∉ R) : x ≠ f y := fun hxy =>
    hyR (havoids y (hy.resolve_right hyR) (hxy ▸ hxR))
  have hinj : (S ∪ R).InjOn fun x => if x ∈ R then x else f x := by
    intro x hx y hy hxy
    by_cases hxR : x ∈ R <;> by_cases hyR : y ∈ R <;> simp only [hxR, hyR, if_true, if_false] at hxy
    · exact hxy
    · exact absurd hxy (hmixed hy hxR hyR)
    · exact absurd hxy.symm (hmixed hx hyR hxR)
    · exact hf (hx.resolve_right hxR) (hy.resolve_right hyR) hxy
  have hsmall := (Cardinal.lt_aleph0_iff_set_finite.mpr (hS.union hR)).trans_le (Cardinal.aleph0_le_mk String)
  obtain ⟨g,hg⟩ := Cardinal.extend_function_of_lt ⟨fun x : ↥(S ∪ R) => if x.1 ∈ R then x.1 else f x.1,
    hinj.injective⟩ hsmall ⟨Equiv.refl _⟩
  refine ⟨g,g.injective,fun x hx => ?_,fun x hx => ?_⟩
  · rw [hg ⟨x,.inl hx⟩]
    by_cases hxR : x ∈ R
    · exact (if_pos hxR).trans (hfixed x hx hxR).symm
    · exact if_neg hxR
  · rw [hg ⟨x,.inr hx⟩]
    exact if_pos hx

theorem finite_reserved : {f | Check.isReserved f = true}.Finite := by
  have hbuiltin : {f | (Builtin.ofFunction? f).isSome = true}.Finite := by
    refine (["array_len", "array_length", "array_push", "array_pop", "array_contains", "string_len",
      "string_length", "string_concat"].finite_toSet).subset fun f hf => ?_
    have hsome : (Builtin.ofFunction? f).isSome = true := hf
    unfold Builtin.ofFunction? at hsome
    split at hsome
    case h_9 => cases hsome
    all_goals simp
  have hhost : {f | (HostFunction.find? f).isSome = true}.Finite := by
    refine ((HostFunction.all.map (·.name)).finite_toSet).subset fun f hf => ?_
    obtain ⟨host,hfind⟩ := Option.isSome_iff_exists.mp hf
    have hname : host.name = f := by simpa using List.find?_some hfind
    exact hname ▸ List.mem_map_of_mem (List.mem_of_find?_eq_some hfind)
  exact (hbuiltin.union hhost).subset fun f hf => (Bool.or_eq_true _ _).mp hf

theorem finite_functions : {f | (Label.function f).isFixed = true}.Finite := by
  refine ((Set.finite_singleton entryPoint).union finite_reserved).subset fun f hf => ?_
  have hor : (decide (f = entryPoint) || Check.isReserved f) = true := hf
  rw [Bool.or_eq_true,decide_eq_true_iff] at hor
  exact hor

theorem finite_types : {n | (Label.type n).isFixed = true}.Finite := by
  refine (["Integer", "Int", "Boolean", "Bool", "String", "Mana", "Did"].finite_toSet).subset fun n hn => ?_
  have hsome : (Ty.ofName? n).isSome = true := hn
  unfold Ty.ofName? at hsome
  split at hsome
  case h_8 => cases hsome
  all_goals simp

namespace Renaming.Suits

variable {ρ : Renaming} {names : List Label}

theorem exists_map (h : ρ.Suits names) {k : String → Label} (hk : Function.Injective k)
    (hfixed : {x | (k x).isFixed = true}.Finite) {f : String → String}
    (hf : ∀ x, ρ.apply (k x) = k (f x)) : ∃ g : String → String, Function.Injective g ∧
      (∀ x, k x ∈ names → g x = f x) ∧ ∀ x, (k x).isFixed = true → g x = x := by
  refine exists_injective_extending (S := {x | k x ∈ names}) (names.finite_toSet.preimage hk.injOn) hfixed
    ?_ ?_ ?_
  · intro x hx y hy hxy
    refine hk (h.injective _ hx _ hy ?_)
    rw [hf,hf,hxy]
  · intro x hx hxfixed
    exact hk ((hf x).symm.trans (h.fixed _ hx hxfixed))
  · intro x hx hxfixed
    exact h.avoids _ hx (by rw [hf]; exact hxfixed)

theorem exists_faithful (h : ρ.Suits names) :
    ∃ σ : Renaming, σ.Faithful ∧ ρ.place = σ.place ∧ ρ.Agrees σ names := by
  obtain ⟨var,hvar,hvars,-⟩ := h.exists_map (k := .var) (fun _ _ => Label.var.inj) (by simp [Label.isFixed])
    (f := ρ.var) fun _ => rfl
  obtain ⟨function,hfunction,hfunctions,hreserved⟩ := h.exists_map (k := .function)
    (fun _ _ => Label.function.inj) finite_functions (f := ρ.function) fun _ => rfl
  obtain ⟨type,htype,htypes,hknown⟩ := h.exists_map (k := .type) (fun _ _ => Label.type.inj) finite_types
    (f := ρ.type) fun _ => rfl
  obtain ⟨field,hfield,hfields,-⟩ := h.exists_map (k := .field) (fun _ _ => Label.field.inj)
    (by simp [Label.isFixed]) (f := ρ.field) fun _ => rfl
  obtain ⟨variant,hvariant,hvariants,-⟩ := h.exists_map (k := .variant) (fun _ _ => Label.variant.inj)
    (by simp [Label.isFixed]) (f := ρ.variant) fun _ => rfl
  refine ⟨⟨var,function,type,field,variant,ρ.place⟩,?_,rfl,?_⟩
  · exact ⟨hvar,hfunction,htype,hfield,hvariant,hreserved _ (by simp [Label.isFixed]),
      fun f hf => hreserved f (by simp [Label.isFixed, hf]),hknown⟩
  · intro n hn
    cases n with
    | var x => exact congrArg Label.var (hvars x hn).symm
    | function f => exact congrArg Label.function (hfunctions f hn).symm
    | type n => exact congrArg Label.type (htypes n hn).symm
    | field f => exact congrArg Label.field (hfields f hn).symm
    | variant v => exact congrArg Label.variant (hvariants v hn).symm

end Renaming.Suits

end Covenant
