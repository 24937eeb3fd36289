import Covenant.Proofs.Typing.Items

/-! The declarations of a program: their names are distinct, and the types in them are resolved. -/

namespace Covenant

structure FunctionDecl.HeadProper (f : FunctionDecl) : Prop where
  params : ∀ p ∈ f.params, p.type.isProper = true
  result : ∀ t, f.result = some t → t.isProper = true

open Typing in
/-- The parameters have the first slots, and the body obeys the rules. -/
structure FunctionDecl.Typed (strict : Prop) (env : Check.Env) (f : FunctionDecl) : Prop where
  params : f.params.map (·.type) <+: f.slots
  body : f.body.Every
    (rule ⟨{ env with current := some ⟨f.name,f.result⟩ },f.slots,strict⟩) false

namespace Check

open Typing

variable {strict : Prop} {env : Env} {s : State}

def functionsOf (is : List Item) : List FunctionDecl :=
  is.filterMap fun | .function d => some d | _ => none

def recordsOf (is : List Item) : List RecordDecl :=
  is.filterMap fun | .record d => some d | _ => none

def enumsOf (is : List Item) : List EnumDecl :=
  is.filterMap fun | .enum d => some d | _ => none

def constantsOf (is : List Item) : List ConstDecl :=
  is.filterMap fun | .constant c => some c | _ => none

theorem checkVariants_ends (d : EnumDecl) (seen vs : List String) :
    Ends s (checkVariants d seen vs) fun _ t => t = s ∧ vs.Nodup ∧ ∀ v ∈ vs, v ∉ seen := by
  induction vs generalizing seen s with
  | nil => exact .pure fun _ => ⟨rfl,.nil,by simp⟩
  | cons v vs ih =>
    refine .bind (reportIf_ends _ _ _) fun _ t ht => ?_
    refine Ends.weaken (ih (v :: seen)) fun _ u hc ⟨hu,hnodup,hnew⟩ => ?_
    obtain ⟨-,rfl,hseen⟩ := ht hc
    have hv : v ∉ seen := by simpa using hseen
    refine ⟨hu,List.nodup_cons.mpr ⟨fun hmem => hnew v hmem (.head _),hnodup⟩,?_⟩
    exact List.forall_mem_cons.mpr ⟨hv,fun w hw hmem => hnew w hw (.tail _ hmem)⟩

structure Declared.Distinct (d : Declared) : Prop where
  functions : (d.functions.map (·.name)).Nodup
  records : (d.records.map (·.name)).Nodup
  enums : (d.enums.map (·.name)).Nodup
  variants : ∀ e ∈ d.enums, e.variants.Nodup

theorem nodup_append_singleton {α β : Type} [DecidableEq β] {f : α → β} {xs : List α} {x : α}
    (h : (xs.map f).Nodup) (hx : xs.any (fun y => decide (f y = f x)) = false) :
    ((xs ++ [x]).map f).Nodup := by
  rw [List.map_append,List.nodup_append]
  refine ⟨h,by simp,?_⟩
  intro a ha b hb hab
  obtain ⟨y,hy,rfl⟩ := List.mem_map.mp ha
  obtain rfl : b = f x := by simpa using hb
  have hne := List.any_eq_false.mp hx y hy
  exact hne (by simpa using hab)

def Declared.add (d : Declared) (is : List Item) : Declared :=
  ⟨d.functions ++ functionsOf is,d.records ++ recordsOf is,d.enums ++ enumsOf is⟩

theorem Declared.add_nil (d : Declared) : d.add [] = d := by
  simp only [add, functionsOf, recordsOf, enumsOf, List.filterMap_nil, List.append_nil]

theorem Declared.add_append (d : Declared) (is js : List Item) : d.add (is ++ js) = (d.add is).add js := by
  simp only [add, functionsOf, recordsOf, enumsOf, List.filterMap_append, List.append_assoc]

theorem Declared.add_function (d : Declared) (f : FunctionDecl) :
    d.add [.function f] = { d with functions := d.functions ++ [f] } := by
  simp only [add, functionsOf, recordsOf, enumsOf, List.filterMap_cons, List.filterMap_nil, List.append_nil]

theorem Declared.add_record (d : Declared) (r : RecordDecl) :
    d.add [.record r] = { d with records := d.records ++ [r] } := by
  simp only [add, functionsOf, recordsOf, enumsOf, List.filterMap_cons, List.filterMap_nil, List.append_nil]

theorem Declared.add_enum (d : Declared) (e : EnumDecl) :
    d.add [.enum e] = { d with enums := d.enums ++ [e] } := by
  simp only [add, functionsOf, recordsOf, enumsOf, List.filterMap_cons, List.filterMap_nil, List.append_nil]

theorem Declared.add_constant (d : Declared) (c : ConstDecl) : d.add [.constant c] = d := by
  simp only [add, functionsOf, recordsOf, enumsOf, List.filterMap_cons, List.filterMap_nil, List.append_nil]

theorem collectItem_ends (d : Declared) (i : Item) (hd : s.Clean → d.Distinct) :
    Ends s (collectItem d i) fun d' t => t = s ∧ d' = d.add [i] ∧ d'.Distinct := by
  cases i with
  | function f =>
    simp only [collectItem]
    split
    · exact reportIf_true_ends _ _ _
    · split
      · exact reportIf_true_ends _ _ _
      · rename_i hnew _
        refine .pure fun hc => ⟨rfl,(d.add_function f).symm,?_⟩
        obtain ⟨hf,hr,he,hv⟩ := hd hc
        exact ⟨nodup_append_singleton hf (by simpa [Declared.hasFunction] using hnew),hr,he,hv⟩
  | record r =>
    simp only [collectItem]
    split
    · exact reportIf_true_ends _ _ _
    · rename_i hnew
      refine .pure fun hc => ⟨rfl,(d.add_record r).symm,?_⟩
      obtain ⟨hf,hr,he,hv⟩ := hd hc
      simp only [Declared.hasType, Bool.or_eq_true, not_or, Bool.not_eq_true] at hnew
      exact ⟨hf,nodup_append_singleton hr hnew.1.1,he,hv⟩
  | enum e =>
    simp only [collectItem]
    split
    · exact reportIf_true_ends _ _ _
    · rename_i hnew
      refine .bind (reportIf_ends _ _ _) fun _ t ht => ?_
      refine .bind (checkVariants_ends _ _ _) fun _ u hu => .pure fun hc => ?_
      obtain ⟨hc,rfl,hnodup,-⟩ := hu hc
      obtain ⟨hc,rfl,-⟩ := ht hc
      refine ⟨rfl,(d.add_enum e).symm,?_⟩
      obtain ⟨hf,hr,he,hv⟩ := hd hc
      simp only [Declared.hasType, Bool.or_eq_true, not_or, Bool.not_eq_true] at hnew
      exact ⟨hf,hr,nodup_append_singleton he hnew.1.2,
        List.forall_mem_append.mpr ⟨hv,List.forall_mem_singleton.mpr hnodup⟩⟩
  | constant c =>
    exact .pure fun hc => ⟨rfl,(d.add_constant c).symm,hd hc⟩

theorem collectItems_ends (d : Declared) (is : List Item) (hd : s.Clean → d.Distinct) :
    Ends s (collectItems d is) fun d' t => t = s ∧ d' = d.add is ∧ d'.Distinct := by
  induction is generalizing d s with
  | nil => exact .pure fun hc => ⟨rfl,d.add_nil.symm,hd hc⟩
  | cons i is ih =>
    refine .bind (collectItem_ends d i hd) fun d' t ht => ?_
    refine Ends.weaken (ih d' fun hc => (ht hc).2.2.2) fun d'' u hc hu => ?_
    obtain ⟨-,rfl,rfl,-⟩ := ht hc
    exact ⟨hu.1,hu.2.1.trans (d.add_append [i] is).symm,hu.2.2⟩

/-- A check of a list goes through it from the left, and each member comes from the one in its place. -/
theorem Ends.cons {α β γ : Type} {R : α → β → Prop} {a : α} {as : List α} {m : Checking γ} {f : γ → β}
    {rest : Checking (List β)} (hm : Ends s m fun c t => t = s ∧ R a (f c))
    (hrest : ∀ s, Ends s rest fun bs t => t = s ∧ List.Forall₂ R as bs) :
    Ends s (do let c ← m; return f c :: (← rest)) fun bs t => t = s ∧ List.Forall₂ R (a :: as) bs := by
  refine .bind hm fun c t ht => .bind (hrest t) fun bs u hu => .pure fun hc => ?_
  obtain ⟨hc,rfl,hbs⟩ := hu hc
  obtain ⟨-,rfl,hb⟩ := ht hc
  exact ⟨rfl,.cons hb hbs⟩

section Heads

variable (r : Ty → Except String Ty)

def FieldFrom (f f' : FieldDecl) : Prop := ∃ t, r f.type = .ok t ∧ f' = { f with type := t }

def RecordFrom (q q' : RecordDecl) : Prop :=
  ∃ fs, List.Forall₂ (FieldFrom r) q.fields fs ∧ q' = { q with fields := fs }

def ParamFrom (p p' : Param) : Prop := ∃ t, r p.type = .ok t ∧ p' = { p with type := t }

/-- A function whose parameters and result have been resolved. -/
structure HeadFrom (f f' : FunctionDecl) : Prop where
  same : f' = { f with params := f'.params, result := f'.result }
  params : List.Forall₂ (ParamFrom r) f.params f'.params
  result : Option.Rel (fun t t' => r t = .ok t') f.result f'.result

end Heads

theorem checkFields_ends (r : String) (seen : List String) (fs : List FieldDecl) :
    Ends s (checkFields env r seen fs) fun fs' t => t = s ∧ List.Forall₂ (FieldFrom env.resolve) fs fs' := by
  induction fs generalizing seen s with
  | nil => exact .pure fun _ => ⟨rfl,.nil⟩
  | cons f fs ih =>
    refine .bind (reportIf_ends _ _ _) fun _ t ht => ?_
    refine Ends.weaken (Ends.cons (R := FieldFrom env.resolve) (a := f) ?_ fun s => ih (f.name :: seen))
      fun _ u hc hu => ⟨hu.1.trans (ht hc).2.1,hu.2⟩
    exact Ends.weaken (resolveType_ends env _ _) fun ty _ _ h => ⟨h.1,ty,h.2,rfl⟩

theorem checkRecords_ends (rs : List RecordDecl) :
    Ends s (checkRecords env rs) fun rs' t => t = s ∧ List.Forall₂ (RecordFrom env.resolve) rs rs' := by
  induction rs generalizing s with
  | nil => exact .pure fun _ => ⟨rfl,.nil⟩
  | cons r rs ih =>
    exact Ends.cons (Ends.weaken (checkFields_ends _ _ _) fun fs _ _ h => ⟨h.1,fs,h.2,rfl⟩) fun _ => ih

theorem checkParams_ends (ps : List Param) :
    Ends s (checkParams env ps) fun ps' t => t = s ∧ List.Forall₂ (ParamFrom env.resolve) ps ps' := by
  induction ps generalizing s with
  | nil => exact .pure fun _ => ⟨rfl,.nil⟩
  | cons p ps ih =>
    exact Ends.cons (Ends.weaken (resolveType_ends env _ _) fun ty _ _ h => ⟨h.1,ty,h.2,rfl⟩) fun _ => ih

theorem checkSignatures_ends (fs : List FunctionDecl) :
    Ends s (checkSignatures env fs) fun fs' t => t = s ∧ List.Forall₂ (HeadFrom env.resolve) fs fs' := by
  induction fs generalizing s with
  | nil => exact .pure fun _ => ⟨rfl,.nil⟩
  | cons f fs ih =>
    refine .bind (checkParams_ends _) fun ps t ht => ?_
    have hrest (u : State) (result : Option Ty) (hu : u.Clean → t.Clean ∧ u = t ∧
        Option.Rel (fun t t' => env.resolve t = .ok t') f.result result) :
      Ends u (do return { f with params := ps, result } :: (← checkSignatures env fs)) fun fs' v =>
        v = s ∧ List.Forall₂ (HeadFrom env.resolve) (f :: fs) fs' := by
      refine .bind ih fun fs' v hv => .pure fun hc => ?_
      obtain ⟨hc,rfl,hfs⟩ := hv hc
      obtain ⟨hc,rfl,hresult⟩ := hu hc
      obtain ⟨-,rfl,hps⟩ := ht hc
      exact ⟨rfl,.cons ⟨rfl,hps,hresult⟩ hfs⟩
    cases hr : f.result with
    | none => exact hrest t none fun hc => ⟨hc,rfl,by rw [hr]; exact .none⟩
    | some ty =>
      refine Ends.bind (Q := fun r u => u = t ∧ Option.Rel (fun t t' => env.resolve t = .ok t') f.result r) ?_
        fun r u hu => hrest u r hu
      exact .bind (resolveType_ends env ty f.pos) fun ty' u hu => .pure fun hc =>
        ⟨(hu hc).2.1,hr ▸ .some (hu hc).2.2⟩

namespace HeadFrom

variable {f f' : FunctionDecl}

theorem body {r : Ty → Except String Ty} (h : HeadFrom r f f') : f'.body = f.body := by
  rw [h.same]

theorem result_from {r : Ty → Except String Ty} (h : HeadFrom r f f') {t' : Ty} (ht : f'.result = some t') :
    ∃ t, f.result = some t ∧ r t = .ok t' := by
  have hresult := h.result
  rw [ht] at hresult
  generalize f.result = o at hresult
  cases hresult with
  | some h => exact ⟨_,rfl,h⟩

theorem proper (h : HeadFrom env.resolve f f') (hf : f.HeadProper) : f'.HeadProper where
  params p' hp' := by
    obtain ⟨p,hp,t,hty,rfl⟩ := exists_of_forall₂ h.params p' hp'
    exact Env.resolve_isProper hty (hf.params p hp)
  result t' ht' := by
    obtain ⟨t,ht,hty⟩ := h.result_from ht'
    exact Env.resolve_isProper hty (hf.result t ht)

end HeadFrom

theorem Env.resolve_congr {env env' : Env} (henums : env'.enums = env.enums)
    (hrecords : env'.records.map (·.name) = env.records.map (·.name)) (t : Ty) :
    env'.resolve t = env.resolve t := by
  have hrecord (n : String) : (env'.record? n).isSome = (env.record? n).isSome := by
    have hmem : n ∈ env'.records.map (·.name) ↔ n ∈ env.records.map (·.name) := by rw [hrecords]
    rw [Bool.eq_iff_iff]
    simpa [Env.record?, List.find?_isSome] using hmem
  have henum (n : String) : env'.enum? n = env.enum? n := by rw [Env.enum?,Env.enum?,henums]
  induction t with
  | array t ih | option t ih | result t ih => simp only [Env.resolve, ih]
  | record n => rw [Env.resolve,Env.resolve,henum,hrecord]
  | _ => rfl

theorem collect_ends (policy : Policy) (is : List Item) :
    Ends s (collect policy is) fun r t => t = s ∧ ∃ fs rs,
      r = (⟨policy,fs.map signatureOf,rs,enumsOf is,none⟩,⟨fs,rs,enumsOf is⟩) ∧
      List.Forall₂ (HeadFrom r.1.resolve) (functionsOf is) fs ∧
      List.Forall₂ (RecordFrom r.1.resolve) (recordsOf is) rs ∧
      Declared.Distinct ⟨functionsOf is,recordsOf is,enumsOf is⟩ := by
  refine .bind (collectItems_ends .empty is fun _ => ⟨.nil,.nil,.nil,nofun⟩) fun d t ht => ?_
  refine .bind (checkRecords_ends _) fun rs u hu => ?_
  refine .bind (checkSignatures_ends _) fun fs v hv => .pure fun hc => ?_
  obtain ⟨hc,rfl,hfs⟩ := hv hc
  obtain ⟨hc,rfl,hrs⟩ := hu hc
  obtain ⟨-,rfl,rfl,hdistinct⟩ := ht hc
  have hnames : rs.map (·.name) = (recordsOf is).map (·.name) :=
    map_eq_of_forall₂ (hrs.imp fun _ _ ⟨_,_,h⟩ => by rw [h])
  let env : Env := ⟨policy,fs.map signatureOf,rs,enumsOf is,none⟩
  have hsame : env.resolve = Env.resolve ⟨policy,[],recordsOf is,enumsOf is,none⟩ :=
    funext (Env.resolve_congr rfl hnames)
  refine ⟨rfl,fs,rs,rfl,?_,?_,hdistinct⟩
  · show List.Forall₂ (HeadFrom env.resolve) _ _
    rwa [hsame]
  · show List.Forall₂ (RecordFrom env.resolve) _ _
    rwa [hsame]

def Declared.Matches (d : Declared) (is : List Item) : Prop :=
  d.functions.map (·.name) = (functionsOf is).map (·.name) ∧
    d.records.map (·.name) = (recordsOf is).map (·.name)

theorem checkEntryParams_ends (ps : List Param) : Ends s (checkEntryParams ps) fun _ u => u = s := by
  induction ps generalizing s with
  | nil => exact .pure fun _ => rfl
  | cons p ps ih =>
    exact .bind (reportIf_ends _ _ _) fun _ _ ht => Ends.weaken ih fun _ _ hc hu => hu.trans (ht hc).2.1

theorem checkEntry_ends (d : Declared) (pos : Pos) :
    Ends s (checkEntry d pos) fun _ u => u = s ∧ entryPoint ∈ d.functions.map (·.name) := by
  unfold checkEntry
  split
  · exact reportIf_true_ends _ _ _
  · rename_i f hf
    have hname : f.name = entryPoint := by simpa using List.find?_some hf
    have hmem : entryPoint ∈ d.functions.map (·.name) :=
      hname ▸ List.mem_map_of_mem (List.mem_of_find?_eq_some hf)
    refine .bind (reportIf_ends _ _ _) fun _ _ ht => ?_
    exact Ends.weaken (checkEntryParams_ends _) fun _ _ hc hu => ⟨hu.trans (ht hc).2.1,hmem⟩

end Check

/-- Every declared type of a program can be written down. -/
structure Program.Written (p : Program) : Prop where
  functions : ∀ f ∈ p.functions, f.HeadProper ∧ f.body.Every written false
  records : ∀ r ∈ p.records, ∀ f ∈ r.fields, f.type.isProper = true
  constants : ∀ c ∈ p.constants, c.type.isProper = true ∧ c.value.Every written false

/-- What the declarations of a program say, once their types are resolved. -/
def Program.env (policy : Policy) (p : Program) : Check.Env :=
  ⟨policy,p.functions.map Check.signatureOf,p.records,p.enums,none⟩

/-- A program whose functions obey the typing rules and whose declarations have distinct names. -/
structure Program.Typed (strict : Prop) (policy : Policy) (p : Program) : Prop where
  proper : strict → (p.env policy).Proper
  functions : ∀ f ∈ p.functions, f.Typed strict (p.env policy)
  functionNames : (p.functions.map (·.name)).Nodup
  recordNames : (p.records.map (·.name)).Nodup
  enumNames : (p.enums.map (·.name)).Nodup

open Check in
theorem Program.Written.env_proper {p : Program} (hw : p.Written) {env : Env} {policy : Policy}
    {fs : List FunctionDecl} {rs : List RecordDecl} {es : List EnumDecl}
    (hheads : List.Forall₂ (HeadFrom env.resolve) (functionsOf p.items) fs)
    (hrecords : List.Forall₂ (RecordFrom env.resolve) (recordsOf p.items) rs) :
    Env.Proper ⟨policy,fs.map signatureOf,rs,es,none⟩ := by
  have hheads' (f : FunctionDecl) (hf : f ∈ fs) : f.HeadProper := by
    obtain ⟨g,hg,hfrom⟩ := exists_of_forall₂ hheads f hf
    exact hfrom.proper (hw.functions g hg).1
  refine ⟨?_,?_,fun r hr f hf => ?_⟩
  · intro sig hsig t ht
    obtain ⟨f,hf,rfl⟩ := List.mem_map.mp hsig
    obtain ⟨q,hq,rfl⟩ := List.mem_map.mp ht
    exact (hheads' f hf).params q hq
  · intro sig hsig t ht
    obtain ⟨f,hf,rfl⟩ := List.mem_map.mp hsig
    exact (hheads' f hf).result t ht
  · obtain ⟨q,hq,fs,hfields,rfl⟩ := exists_of_forall₂ hrecords r hr
    obtain ⟨g,hg,t,hty,rfl⟩ := exists_of_forall₂ hfields f hf
    exact Env.resolve_isProper hty (hw.records q hq g hg)

end Covenant
