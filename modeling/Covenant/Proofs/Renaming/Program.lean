import Covenant.Proofs.Renaming.Checking

/-! Checking renamed programs: the declarations, the constants in order, the bodies of the functions, the entry
point. A renamed program is found to be the same program, renamed. -/

namespace Covenant

variable {ρ : Renaming}

theorem Expr.constant?_rename {find find' : String → Option Value} (hfind : ∀ x, find' (ρ.var x) = find x)
    (e : Expr) : (e.rename ρ).constant? find' = e.constant? find := by
  cases e with
  | name _ x _ => exact hfind x
  | unary _ _ e => simp only [Expr.rename, constant?, constant?_rename hfind e]
  | binary _ _ a b => simp only [Expr.rename, constant?, constant?_rename hfind a, constant?_rename hfind b]
  | block _ _ tail => cases tail <;> rfl
  | _ => rfl

variable [ρ.Faithful]

namespace Check

variable {W : Watch ρ}

def Declared.rename (ρ : Renaming) (d : Declared) : Declared where
  functions := d.functions.map (FunctionDecl.rename ρ)
  records := d.records.map (RecordDecl.rename ρ)
  enums := d.enums.map (EnumDecl.rename ρ)

theorem Declared.hasFunction_rename (d : Declared) (f : String) :
    (d.rename ρ).hasFunction (ρ.function f) = d.hasFunction f :=
  any_rename (f := FunctionDecl.rename ρ) (g := FunctionDecl.name) ρ.function_injective (fun _ => rfl) f _

theorem Declared.hasType_rename (d : Declared) (n : String) : (d.rename ρ).hasType (ρ.type n) = d.hasType n := by
  have hrecords : (d.rename ρ).records.any (·.name = ρ.type n) = d.records.any (·.name = n) :=
    any_rename (f := RecordDecl.rename ρ) (g := RecordDecl.name) ρ.type_injective (fun _ => rfl) n d.records
  have henums : (d.rename ρ).enums.any (·.name = ρ.type n) = d.enums.any (·.name = n) :=
    any_rename (f := EnumDecl.rename ρ) (g := EnumDecl.name) ρ.type_injective (fun _ => rfl) n d.enums
  rw [hasType,hrecords,henums,ρ.isSome_ofName?_type]
  rfl

theorem checkVariants_carries (d : EnumDecl) (seen vs : List String) :
    Carries W id (checkVariants d seen vs)
      (checkVariants (d.rename ρ) (seen.map ρ.variant) (vs.map ρ.variant)) := by
  induction vs generalizing seen with
  | nil => exact .pure rfl
  | cons v vs ih =>
    have hseen := contains_rename ρ.variant_injective v seen
    exact .bind (reportIf_carries (p := .variantRepeated v d.name) hseen rfl d.pos) fun _ => ih (v :: seen)

theorem collectItem_carries (d : Declared) (i : Item) :
    Carries W (Declared.rename ρ) (collectItem d i) (collectItem (d.rename ρ) (i.rename ρ)) := by
  cases i with
  | function f =>
    refine .ite (Bool.eq_iff_iff.mp (d.hasFunction_rename f.name)) ?_
      (.ite (Bool.eq_iff_iff.mp (ρ.isReserved_function f.name)) ?_ (.pure ?_))
    · exact .bind (reportIf_carries (p := .functionRedefined f.name) rfl rfl f.pos) fun _ => .pure rfl
    · exact .bind (reportIf_carries (p := .functionReserved f.name) rfl rfl f.pos) fun _ => .pure rfl
    · simp [Declared.rename]
  | record r =>
    refine .ite (Bool.eq_iff_iff.mp (d.hasType_rename r.name)) ?_ (.pure ?_)
    · exact .bind (reportIf_carries (p := .typeRedefined r.name) rfl rfl r.pos) fun _ => .pure rfl
    · simp [Declared.rename]
  | enum e =>
    refine .ite (Bool.eq_iff_iff.mp (d.hasType_rename e.name)) ?_ ?_
    · exact .bind (reportIf_carries (p := .typeRedefined e.name) rfl rfl e.pos) fun _ => .pure rfl
    · refine .bind (reportIf_carries (p := .emptyEnum e.name) List.isEmpty_map rfl e.pos) fun _ =>
        .bind (checkVariants_carries e [] e.variants) fun _ => .pure ?_
      simp [Declared.rename]
  | constant c => exact .pure rfl

theorem collectItems_carries (d : Declared) (is : List Item) :
    Carries W (Declared.rename ρ) (collectItems d is) (collectItems (d.rename ρ) (is.map (Item.rename ρ))) := by
  induction is generalizing d with
  | nil => exact .pure rfl
  | cons i is ih => exact .bind (collectItem_carries d i) ih

theorem checkFields_carries (env : Env) (r : String) (seen : List String) (fs : List FieldDecl) :
    Carries W (List.map (FieldDecl.rename ρ)) (checkFields env r seen fs)
      (checkFields (env.rename ρ W.second) (ρ.type r) (seen.map ρ.field) (fs.map (FieldDecl.rename ρ))) := by
  induction fs generalizing seen with
  | nil => exact .pure rfl
  | cons f fs ih =>
    have hseen := contains_rename ρ.field_injective f.name seen
    exact .bind (reportIf_carries (p := .fieldRepeated f.name r) hseen rfl f.pos) fun _ =>
      .bind (resolveType_carries env f.type f.pos) fun _ => .bind (ih (f.name :: seen)) fun _ => .pure rfl

theorem checkRecords_carries (env : Env) (rs : List RecordDecl) :
    Carries W (List.map (RecordDecl.rename ρ)) (checkRecords env rs)
      (checkRecords (env.rename ρ W.second) (rs.map (RecordDecl.rename ρ))) := by
  induction rs with
  | nil => exact .pure rfl
  | cons r rs ih =>
    exact .bind (checkFields_carries env r.name [] r.fields) fun _ => .bind ih fun _ => .pure rfl

theorem checkParams_carries (env : Env) (ps : List Param) :
    Carries W (List.map (Param.rename ρ)) (checkParams env ps)
      (checkParams (env.rename ρ W.second) (ps.map (Param.rename ρ))) := by
  induction ps with
  | nil => exact .pure rfl
  | cons p ps ih =>
    exact .bind (resolveType_carries env p.type p.pos) fun _ => .bind ih fun _ => .pure rfl

theorem checkSignatures_carries (env : Env) (fs : List FunctionDecl) :
    Carries W (List.map (FunctionDecl.rename ρ)) (checkSignatures env fs)
      (checkSignatures (env.rename ρ W.second) (fs.map (FunctionDecl.rename ρ))) := by
  induction fs with
  | nil => exact .pure rfl
  | cons f fs ih =>
    obtain ⟨pos,x,ps,result,body,slots⟩ := f
    refine .bind (checkParams_carries env ps) fun ps' => ?_
    cases result with
    | none => exact .bind (.pure rfl) fun _ => .bind ih fun _ => .pure rfl
    | some t =>
      exact .bind (.map (resolveType_carries env t pos) fun _ => rfl) fun _ => .bind ih fun _ => .pure rfl

omit [ρ.Faithful] in
theorem signatureOf_rename (f : FunctionDecl) : signatureOf (f.rename ρ) = (signatureOf f).rename ρ := by
  simp [signatureOf, Signature.rename, FunctionDecl.rename, Param.rename]

theorem collect_carries (is : List Item) :
    Carries W (Prod.map (Env.rename ρ W.second) (Declared.rename ρ)) (collect W.first is)
      (collect W.second (is.map (Item.rename ρ))) := by
  refine .bind (collectItems_carries .empty is) fun d => ?_
  refine .bind (checkRecords_carries ⟨W.first,[],d.records,d.enums,none⟩ d.records) fun rs => ?_
  refine .bind (checkSignatures_carries ⟨W.first,[],d.records,d.enums,none⟩ d.functions) fun fs => .pure ?_
  simp [Env.rename, Declared.rename, Function.comp_def, signatureOf_rename]

theorem constantValue?_rename {s s' : State} (hs : Sim W s s') (x : String) :
    constantValue? s' (ρ.var x) = constantValue? s x := by
  rw [constantValue?,constantValue?,hs.scope,Scope.findGlobal?_rename]
  cases s.scope.findGlobal? x <;> rfl

omit [ρ.Faithful] in
theorem beginFunction_carries :
    Carries W id (modify fun s => { s with scope := s.scope.beginFunction })
      (modify fun s => { s with scope := s.scope.beginFunction }) :=
  .modify fun s s' hs => ⟨by rw [hs.scope]; rfl,hs.loops,hs.stray,hs.findings⟩

theorem constant_carries {env : Env} (henv : env.policy = W.first) (c : ConstDecl) :
    Carries W (ConstDecl.rename ρ) (constant env c) (constant (env.rename ρ W.second) (c.rename ρ)) := by
  refine .get fun s s' hs => .ite ?_ ?_ ?_
  · have hknown := congrArg Option.isSome (Scope.findGlobal?_rename (ρ := ρ) s.scope c.name)
    rw [← hs.scope,Option.isSome_map] at hknown
    exact Bool.eq_iff_iff.mp hknown
  · exact .bind (reportIf_carries (p := .constantRedefined c.name) rfl rfl c.pos) fun _ => .pure rfl
  · refine .bind (resolveType_carries env c.type c.pos) fun declared => .bind beginFunction_carries fun _ =>
      .bind (inFrame_carries false (value_carries henv c.value)) fun r => ?_
    obtain ⟨e,t⟩ := r
    have hfits := Ty.compatible_rename (ρ := ρ) declared t
    refine .bind (reportIf_carries (p := .constantType c.name declared t) (congrArg Bool.not hfits) rfl c.pos)
      fun _ => .get fun s s' hs => ?_
    have hvalue := Expr.constant?_rename (constantValue?_rename hs) e
    simp only [hvalue]
    refine .bind (reportIf_carries (p := .notConstant c.name) (by simp) rfl c.pos) fun _ =>
      .bind (.modify fun s s' hs => ⟨?_,hs.loops,hs.stray,hs.findings⟩) fun _ => .pure rfl
    rw [hs.scope]
    rfl

theorem declareParams_carries (f : String) (ps : List Param) :
    Carries W id (declareParams f ps) (declareParams (ρ.function f) (ps.map (Param.rename ρ))) := by
  induction ps with
  | nil => exact .pure rfl
  | cons p ps ih =>
    refine .get fun s s' hs => .bind (reportIf_carries (p := .parameterRepeated p.name f) ?_ rfl p.pos) fun _ =>
      .bind (declare_carries p.name p.type .param true) fun _ => ih
    rw [hs.scope,Scope.rename,List.head?_map]
    cases s.scope.frames.head? with
    | none => rfl
    | some frame => exact (congrArg Option.isSome (frame.find?_rename p.name)).trans Option.isSome_map

theorem function_carries {env : Env} (henv : env.policy = W.first) (f : FunctionDecl) :
    Carries W (FunctionDecl.rename ρ) (function env f) (function (env.rename ρ W.second) (f.rename ρ)) := by
  obtain ⟨pos,x,ps,result,body,slots⟩ := f
  obtain ⟨bodyPos,ss⟩ := body
  have hpolicy : Env.policy { env with current := some ⟨x, result⟩ } = W.first := henv
  have hend (ss' : List Stmt) : Carries W (FunctionDecl.rename ρ)
      (do
        let s ← get
        popFrame
        return ⟨pos,x,ps,result,.mk bodyPos ss',s.scope.slots⟩)
      (do
        let s ← get
        popFrame
        return ⟨ρ.place pos,ρ.function x,ps.map (Param.rename ρ),result.map (Ty.rename ρ),
          .mk (ρ.place bodyPos) (Stmt.renameIn ρ ss'),s.scope.slots⟩) :=
    .get fun s s' hs => .bind popFrame_carries fun _ => .pure (by rw [hs.scope]; rfl)
  refine .bind beginFunction_carries fun _ => .bind (pushFrame_carries false) fun _ =>
    .bind (declareParams_carries x ps) fun _ => .bind (stmts_carry hpolicy ss false false) fun r => ?_
  obtain ⟨ss',ends⟩ := r
  cases result with
  | none => exact hend ss'
  | some t =>
    exact .bind (reportIf_carries (p := .missingReturn x t) rfl rfl pos) fun _ => hend ss'

theorem constants_carries {env : Env} (henv : env.policy = W.first) (is : List Item) :
    Carries W (List.map (Item.rename ρ)) (constants env is)
      (constants (env.rename ρ W.second) (is.map (Item.rename ρ))) := by
  induction is with
  | nil => exact .pure rfl
  | cons i is ih =>
    cases i with
    | constant c => exact .bind (constant_carries henv c) fun _ => .bind ih fun _ => .pure rfl
    | _ => exact .bind ih fun _ => .pure rfl

theorem functions_carries {env : Env} (henv : env.policy = W.first) (d : Declared) (is : List Item) :
    Carries W (List.map (Item.rename ρ)) (functions env d is)
      (functions (env.rename ρ W.second) (d.rename ρ) (is.map (Item.rename ρ))) := by
  induction is generalizing d with
  | nil => exact .pure rfl
  | cons i is ih =>
    obtain ⟨fs,rs,es⟩ := d
    cases i with
    | function f =>
      cases fs with
      | nil => exact .bind (ih _) fun _ => .pure rfl
      | cons g rest =>
        refine .ite ρ.function_injective.eq_iff ?_ ?_
        · exact .bind (function_carries henv g) fun _ => .bind (ih ⟨rest,rs,es⟩) fun _ => .pure rfl
        · exact .bind (ih ⟨g :: rest,rs,es⟩) fun _ => .pure rfl
    | record r =>
      cases rs with
      | nil => exact .bind (ih _) fun _ => .pure rfl
      | cons s rest =>
        refine .ite ρ.type_injective.eq_iff ?_ ?_
        · exact .bind (ih ⟨fs,rest,es⟩) fun _ => .pure rfl
        · exact .bind (ih ⟨fs,s :: rest,es⟩) fun _ => .pure rfl
    | _ => exact .bind (ih ⟨fs,rs,es⟩) fun _ => .pure rfl

theorem checkEntryParams_carries (ps : List Param) :
    Carries W id (checkEntryParams ps) (checkEntryParams (ps.map (Param.rename ρ))) := by
  induction ps with
  | nil => exact .pure rfl
  | cons p ps ih =>
    refine .bind (reportIf_carries (p := .entryParameter p.name p.type) ?_ rfl p.pos) fun _ => ih
    simp [Param.rename]

theorem checkEntry_carries (d : Declared) (pos : Pos) :
    Carries W id (checkEntry d pos) (checkEntry (d.rename ρ) (ρ.place pos)) := by
  have hfind : (d.functions.map (FunctionDecl.rename ρ)).find? (·.name = ρ.function entryPoint) =
      (d.functions.find? (·.name = entryPoint)).map (FunctionDecl.rename ρ) :=
    find?_rename (f := FunctionDecl.rename ρ) (g := FunctionDecl.name) ρ.function_injective (fun _ => rfl) _ _
  rw [ρ.entry_fixed] at hfind
  simp only [checkEntry, Declared.rename, hfind]
  cases d.functions.find? (·.name = entryPoint) with
  | none => exact reportIf_carries (p := .noEntryPoint) rfl rfl pos
  | some f =>
    simp only [Option.map_some, FunctionDecl.rename, Ty.getD_void_rename]
    refine .bind (reportIf_carries (p := .entryResult (f.result.getD .void)) ?_ rfl f.pos) fun _ =>
      checkEntryParams_carries f.params
    cases f.result <;> simp

theorem program_carries (p : Program) :
    Carries W (Program.rename ρ) (program W.first p) (program W.second (p.rename ρ)) := by
  refine .bind_of (P := fun r => r.1.policy = W.first) (collect_carries p.items) (fun _ => rfl) fun r henv => ?_
  obtain ⟨env,d⟩ := r
  exact .bind (constants_carries henv p.items) fun is => .bind (functions_carries henv d is) fun is' =>
    .bind (checkEntry_carries d p.pos) fun _ => .pure rfl

end Check

def Checked.rename (ρ : Renaming) (c : Checked) : Checked where
  program := c.program.rename ρ
  errors := c.errors.map (Diagnostic.rename ρ)
  warnings := c.warnings.map (Warning.rename ρ)
  strayReturn := c.strayReturn

theorem Program.check_rename (policy : Policy) (p : Program) :
    (p.rename ρ).check policy = (p.check policy).rename ρ := by
  obtain ⟨hprogram,hend⟩ := Check.program_carries (W := .exact ρ policy) p _ _ .initial
  obtain ⟨herrors,hwarnings⟩ := hend.findings
  have hfields (c d : Checked) (h : d.program = c.program.rename ρ)
      (hes : d.errors = c.errors.map (Diagnostic.rename ρ))
      (hws : d.warnings = c.warnings.map (Warning.rename ρ))
      (hr : d.strayReturn = c.strayReturn) : d = c.rename ρ := by
    obtain ⟨p',es,ws,r⟩ := d
    subst h hes hws hr
    rfl
  exact hfields _ _ hprogram herrors hwarnings hend.stray

end Covenant
