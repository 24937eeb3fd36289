import Covenant.Proofs.Flow.Strays
import Covenant.Proofs.Ordering.Checking
import Covenant.Proofs.Typing.Stages
import Mathlib.Data.List.Nodup
import Mathlib.Data.List.Perm.Basic

/-! The order of functions and types in a program does not matter: what is found is the same but for its
order, and every function is annotated alike. What checks between declarations answer and find is determined by the
constants that are known. -/

namespace Covenant

namespace Check

namespace Log

def nothing : Log := ⟨[], [], false⟩

instance : Append Log :=
  ⟨fun l k => ⟨l.errors ++ k.errors, l.warnings ++ k.warnings, l.strayReturn || k.strayReturn⟩⟩

theorem append_nothing (l : Log) : l ++ nothing = l := by
  obtain ⟨es,ws,b⟩ := l
  show (⟨es ++ [],ws ++ [],b || false⟩ : Log) = _
  rw [List.append_nil,List.append_nil,Bool.or_false]

theorem nothing_append (l : Log) : nothing ++ l = l := rfl

theorem append_assoc (l k j : Log) : l ++ k ++ j = l ++ (k ++ j) := by
  show (⟨l.errors ++ k.errors ++ j.errors,l.warnings ++ k.warnings ++ j.warnings,
    l.strayReturn || k.strayReturn || j.strayReturn⟩ : Log) = _
  rw [List.append_assoc,List.append_assoc,Bool.or_assoc]
  rfl

def sum : List Log → Log
  | [] => nothing
  | l :: ls => l ++ sum ls

structure Perm (l k : Log) : Prop where
  errors : l.errors.Perm k.errors
  warnings : l.warnings.Perm k.warnings
  strayReturn : l.strayReturn = k.strayReturn

namespace Perm

variable {l k j l' k' : Log}

protected theorem refl (l : Log) : l.Perm l := ⟨.refl _,.refl _,rfl⟩

protected theorem trans (h : l.Perm k) (h' : k.Perm j) : l.Perm j :=
  ⟨h.errors.trans h'.errors,h.warnings.trans h'.warnings,h.strayReturn.trans h'.strayReturn⟩

protected theorem append (h : l.Perm l') (h' : k.Perm k') : (l ++ k).Perm (l' ++ k') :=
  ⟨h.errors.append h'.errors,h.warnings.append h'.warnings,congrArg₂ or h.strayReturn h'.strayReturn⟩

theorem swap (l k j : Log) : (l ++ (k ++ j)).Perm (k ++ (l ++ j)) where
  errors := by
    show (l.errors ++ (k.errors ++ j.errors)).Perm (k.errors ++ (l.errors ++ j.errors))
    rw [← List.append_assoc,← List.append_assoc]
    exact List.perm_append_comm.append_right _
  warnings := by
    show (l.warnings ++ (k.warnings ++ j.warnings)).Perm (k.warnings ++ (l.warnings ++ j.warnings))
    rw [← List.append_assoc,← List.append_assoc]
    exact List.perm_append_comm.append_right _
  strayReturn := Bool.or_left_comm _ _ _

end Perm

theorem sum_perm {ls ks : List Log} (h : ls.Perm ks) : (sum ls).Perm (sum ks) := by
  induction h with
  | nil => exact .refl _
  | cons l _ ih => exact .append (.refl l) ih
  | swap l k ls => exact .swap k l (sum ls)
  | trans _ _ ih ih' => exact ih.trans ih'

end Log

def State.log (s : State) : Log := ⟨s.errors, s.warnings, s.strayReturn⟩

def start (G : List Symbol) : State := ⟨⟨G, [], []⟩, [], [], [], false⟩

variable {α β : Type} {G G' G'' : List Symbol}

/-- From any state between declarations in which the constants `G` are known, the check answers `a`, finds
`l` and leaves the constants `G'`. -/
def Does (G : List Symbol) (m : Checking α) (a : α) (l : Log) (G' : List Symbol) : Prop :=
  ∀ s : State, s.scope.globals = G → s.loops = [] → (m.run s).1 = a ∧ (m.run s).2.log = s.log ++ l ∧
    (m.run s).2.scope.globals = G' ∧ (m.run s).2.loops = []

namespace Does

variable {m : Checking α} {n : α → Checking β} {a : α} {b : β} {l k : Log}

protected theorem pure (a : α) : Does G (pure a) a .nothing G :=
  fun s hG hs => ⟨rfl,(Log.append_nothing s.log).symm,hG,hs⟩

protected theorem bind (hm : Does G m a l G') (hn : Does G' (n a) b k G'') : Does G (m >>= n) b (l ++ k) G'' := by
  intro s hG hs
  obtain ⟨ha,hl,hG',hs'⟩ := hm s hG hs
  obtain ⟨hb,hk,hG'',hs''⟩ := hn _ hG' hs'
  rw [StateT.run_bind]
  have hrun : (m.run s >>= fun r => (n r.1).run r.2) = (n a).run (m.run s).2 := by
    rw [← ha]
    rfl
  rw [hrun]
  refine ⟨hb,?_,hG'',hs''⟩
  rw [hk,hl,Log.append_assoc]

protected theorem map (hm : Does G m a l G') (f : α → β) : Does G (f <$> m) (f a) l G' := by
  rw [map_eq_pure_bind]
  have hmap := hm.bind (n := fun a => pure (f a)) (.pure (f a))
  rwa [Log.append_nothing] at hmap

protected theorem get {n : State → Checking β} {m : Checking β} (hn : ∀ s : State, s.scope.globals = G → n s = m)
    (hm : Does G m b l G') : Does G (get >>= n) b l G' := by
  intro s hG hs
  have hrun : (get >>= n : Checking β).run s = m.run s := by
    rw [← hn s hG]
    rfl
  rw [hrun]
  exact hm s hG hs

protected theorem mapM {f : α → Checking β} {B : α → β} {L : α → Log} : ∀ {as : List α},
    (∀ a ∈ as, Does G (f a) (B a) (L a) G) → Does G (as.mapM f) (as.map B) (.sum (as.map L)) G
  | [], _ => .pure []
  | a :: as, h => by
    rw [List.mapM_cons]
    refine .bind (h a (.head _)) ?_
    have hrest := (Does.mapM fun a ha => h a (.tail _ ha)).map (B a :: ·)
    rwa [map_eq_pure_bind] at hrest

theorem of_reset {fixed : Prop} (h : Follows fixed m m) :
    Does G (modify (fun s : State => { s with scope := s.scope.beginFunction }) >>= fun _ => m)
      (m.run (start G)).1 (m.run (start G)).2.log (m.run (start G)).2.scope.globals := by
  intro s hG hs
  have hstart : { s with scope := s.scope.beginFunction } = (start G).after s.log := by
    obtain ⟨⟨globals,frames,slots⟩,errors,warnings,loops,stray⟩ := s
    obtain rfl : globals = G := hG
    obtain rfl : loops = [] := hs
    simp [State.after, start, State.log, Scope.beginFunction]
  have hrun : (modify (fun s : State => { s with scope := s.scope.beginFunction }) >>= fun _ => m).run s =
      ((m.run (start G)).1,(m.run (start G)).2.after s.log) := by
    rw [← h.run,← hstart]
    rfl
  rw [hrun]
  exact ⟨rfl,rfl,rfl,List.length_eq_zero_iff.mp (h.loops (start G))⟩

end Does

theorem Tells.does {m : Checking α} (h : Tells m) : ∃ a l, ∀ G, Does G m a l G := by
  obtain ⟨a,es,-,hrun⟩ := h
  refine ⟨a,⟨es,[],false⟩,fun G s hG hs => ?_⟩
  rw [hrun]
  refine ⟨rfl,?_,hG,hs⟩
  show (⟨s.errors ++ es,s.warnings,s.strayReturn⟩ : Log) = ⟨_,s.warnings ++ [],s.strayReturn || false⟩
  rw [List.append_nil,Bool.or_false]
  rfl

end Check

inductive Namespace where
  | function
  | type
  | constant
  deriving DecidableEq, Repr

def Item.key : Item → Namespace × String
  | .function f => (.function,f.name)
  | .record r => (.type,r.name)
  | .enum e => (.type,e.name)
  | .constant c => (.constant,c.name)

namespace Check

variable {G : List Symbol} {env env' : Env}

def Declared.append (d e : Declared) : Declared :=
  ⟨d.functions ++ e.functions, d.records ++ e.records, d.enums ++ e.enums⟩

def own : Item → Declared
  | .function f => if isReserved f.name then .empty else ⟨[f], [], []⟩
  | .record r => if (Ty.ofName? r.name).isSome then .empty else ⟨[], [r], []⟩
  | .enum e => if (Ty.ofName? e.name).isSome then .empty else ⟨[], [], [e]⟩
  | .constant _ => .empty

def Declared.Lacks (d : Declared) (i : Item) : Prop :=
  (∀ f ∈ d.functions, (.function,f.name) ≠ i.key) ∧ (∀ r ∈ d.records, (.type,r.name) ≠ i.key) ∧
    ∀ e ∈ d.enums, (.type,e.name) ≠ i.key

theorem Declared.lacks_append {d e : Declared} {i : Item} : (d.append e).Lacks i ↔ d.Lacks i ∧ e.Lacks i := by
  simp only [Lacks, append, List.forall_mem_append]
  tauto

theorem Declared.append_empty (d : Declared) : d.append .empty = d := by
  simp [append, empty]

theorem lacks_of_key {i j : Item} (h : i.key ≠ j.key) : (own i).Lacks j := by
  cases i with
  | function f =>
    simp only [own]
    split
    · simp [Declared.Lacks, Declared.empty]
    · simpa [Declared.Lacks, Item.key] using h
  | record r =>
    simp only [own]
    split
    · simp [Declared.Lacks, Declared.empty]
    · simpa [Declared.Lacks, Item.key] using h
  | enum e =>
    simp only [own]
    split
    · simp [Declared.Lacks, Declared.empty]
    · simpa [Declared.Lacks, Item.key] using h
  | constant c => simp [own, Declared.Lacks, Declared.empty]

theorem hasType_of_lacks {d : Declared} {i : Item} {x : String} (h : d.Lacks i) (hx : i.key = (.type,x)) :
    d.hasType x = (Ty.ofName? x).isSome := by
  have hrecords : d.records.any (·.name = x) = false := by simpa [hx] using h.2.1
  have henums : d.enums.any (·.name = x) = false := by simpa [hx] using h.2.2
  simp only [Declared.hasType, hrecords, henums, Bool.false_or]

theorem collectItem_does (i : Item) :
    ∃ l, ∀ d, d.Lacks i → ∀ G, Does G (collectItem d i) (d.append (own i)) l G := by
  cases i with
  | function f =>
    have hnew (d : Declared) (h : d.Lacks (.function f)) : d.hasFunction f.name = false := by
      simpa [Declared.hasFunction, Item.key] using h.1
    by_cases hr : isReserved f.name = true
    · obtain ⟨_,l,hl⟩ := (reportIf_tells true (p := .functionReserved f.name) (by simp) f.pos).does
      refine ⟨l ++ .nothing,fun d hd G => ?_⟩
      simp only [collectItem, hnew d hd, Bool.false_eq_true, if_false, hr, if_true, own, Declared.append_empty]
      exact .bind (hl G) (.pure d)
    · refine ⟨.nothing,fun d hd G => ?_⟩
      simp only [collectItem, hnew d hd, Bool.false_eq_true, if_false, hr, own, Declared.append, List.append_nil]
      exact .pure _
  | record r =>
    by_cases hr : (Ty.ofName? r.name).isSome = true
    · obtain ⟨_,l,hl⟩ := (reportIf_tells true (p := .typeRedefined r.name) (by simp) r.pos).does
      refine ⟨l ++ .nothing,fun d hd G => ?_⟩
      simp only [collectItem, hasType_of_lacks hd rfl, hr, if_true, own, Declared.append_empty]
      exact .bind (hl G) (.pure d)
    · refine ⟨.nothing,fun d hd G => ?_⟩
      simp only [collectItem, hasType_of_lacks hd rfl, hr, Bool.false_eq_true, if_false, own, Declared.append,
        List.append_nil]
      exact .pure _
  | enum e =>
    by_cases hr : (Ty.ofName? e.name).isSome = true
    · obtain ⟨_,l,hl⟩ := (reportIf_tells true (p := .typeRedefined e.name) (by simp) e.pos).does
      refine ⟨l ++ .nothing,fun d hd G => ?_⟩
      simp only [collectItem, hasType_of_lacks hd rfl, hr, if_true, own, Declared.append_empty]
      exact .bind (hl G) (.pure d)
    · obtain ⟨_,l,hl⟩ := (reportIf_tells e.variants.isEmpty (p := .emptyEnum e.name) (by simp) e.pos).does
      obtain ⟨_,k,hk⟩ := (checkVariants_tells e [] e.variants).does
      refine ⟨l ++ (k ++ .nothing),fun d hd G => ?_⟩
      simp only [collectItem, hasType_of_lacks hd rfl, hr, Bool.false_eq_true, if_false, own, Declared.append,
        List.append_nil]
      exact .bind (hl G) (.bind (hk G) (.pure _))
  | constant c =>
    refine ⟨.nothing,fun d _ G => ?_⟩
    simp only [own, Declared.append_empty]
    exact .pure d

def ownAll (is : List Item) : Declared :=
  ⟨(functionsOf is).filter fun f => !isReserved f.name, (recordsOf is).filter fun r => !(Ty.ofName? r.name).isSome,
    (enumsOf is).filter fun e => !(Ty.ofName? e.name).isSome⟩

theorem append_ownAll (d : Declared) (i : Item) (is : List Item) :
    (d.append (own i)).append (ownAll is) = d.append (ownAll (i :: is)) := by
  simp only [Declared.append, ownAll, functionsOf, recordsOf, enumsOf, List.filterMap_cons, List.append_assoc]
  cases i with
  | function f | record r | enum e =>
    simp only [own, List.filter_cons]
    split <;> simp_all [Declared.empty]
  | constant c => simp [own, Declared.empty]

theorem collectItems_does {L : Item → Log}
    (hL : ∀ i d, d.Lacks i → ∀ G, Does G (collectItem d i) (d.append (own i)) (L i) G) :
    ∀ {is : List Item} {d : Declared}, is.Pairwise (fun i j => i.key ≠ j.key) → (∀ i ∈ is, d.Lacks i) →
      Does G (collectItems d is) (d.append (ownAll is)) (.sum (is.map L)) G
  | [], d, _, _ => by
    have hempty : d.append (ownAll []) = d := d.append_empty
    rw [hempty]
    exact .pure d
  | i :: is, d, hkeys, hlacks => by
    obtain ⟨hkey,hkeys⟩ := List.pairwise_cons.mp hkeys
    have hrest := collectItems_does hL (d := d.append (own i)) hkeys fun j hj =>
      Declared.lacks_append.mpr ⟨hlacks j (.tail _ hj),lacks_of_key (hkey j hj)⟩
    rw [append_ownAll] at hrest
    exact .bind (hL i d (hlacks i (.head _)) G) hrest

theorem Follows.eq {α : Type} {fixed : Prop} {m m' : Checking α} (h : Follows fixed m m') : m' = m :=
  funext fun s => h.run .nothing s

def checkRecord (env : Env) (r : RecordDecl) : Checking RecordDecl := do
  let fields ← checkFields env r.name [] r.fields
  return { r with fields }

def checkSignature (env : Env) (f : FunctionDecl) : Checking FunctionDecl := do
  let params ← checkParams env f.params
  let result ← match f.result with
    | some t => some <$> resolveType env t f.pos
    | none => pure none
  return { f with params, result }

theorem checkRecords_eq (env : Env) (rs : List RecordDecl) : checkRecords env rs = rs.mapM (checkRecord env) := by
  induction rs with
  | nil => rfl
  | cons r rs ih => simp only [checkRecords, ih, List.mapM_cons, checkRecord, bind_assoc, pure_bind]

theorem checkSignatures_eq (env : Env) (fs : List FunctionDecl) :
    checkSignatures env fs = fs.mapM (checkSignature env) := by
  induction fs with
  | nil => rfl
  | cons f fs ih =>
    simp only [checkSignatures, ih, List.mapM_cons, checkSignature, bind_assoc, pure_bind]
    cases f.result <;> rfl

theorem checkRecord_does (env : Env) (r : RecordDecl) :
    ∃ q l, q.name = r.name ∧ ∀ G, Does G (checkRecord env r) q l G := by
  obtain ⟨gs,l,hl⟩ := (checkFields_tells env r.name [] r.fields).does
  exact ⟨{ r with fields := gs },_,rfl,fun G => .bind (hl G) (.pure _)⟩

theorem checkSignature_does (env : Env) (f : FunctionDecl) :
    ∃ g l, g.name = f.name ∧ ∀ G, Does G (checkSignature env f) g l G := by
  obtain ⟨qs,l,hl⟩ := (checkParams_tells env f.params).does
  unfold checkSignature
  cases f.result with
  | none => exact ⟨{ f with params := qs, result := none },_,rfl,fun G => .bind (hl G) (.bind (.pure none) (.pure _))⟩
  | some t =>
    obtain ⟨u,k,hk⟩ := (resolveType_tells env t f.pos).does
    exact ⟨{ f with params := qs, result := some u },_,rfl,fun G =>
      .bind (hl G) (.bind ((hk G).map some) (.pure _))⟩

theorem resolveType_agrees (h : env.Agrees env') : resolveType env' = resolveType env :=
  funext fun t => funext fun pos => (resolveType_follows h t pos).eq

theorem checkRecord_agrees (h : env.Agrees env') : checkRecord env' = checkRecord env := by
  have hfields (r : String) (seen : List String) (fs : List FieldDecl) :
      checkFields env' r seen fs = checkFields env r seen fs := by
    induction fs generalizing seen with
    | nil => rfl
    | cons f fs ih => simp only [checkFields, resolveType_agrees h, ih]
  funext r
  simp only [checkRecord, hfields]

theorem checkSignature_agrees (h : env.Agrees env') : checkSignature env' = checkSignature env := by
  have hparams (ps : List Param) : checkParams env' ps = checkParams env ps := by
    induction ps with
    | nil => rfl
    | cons p ps ih => simp only [checkParams, resolveType_agrees h, ih]
  funext f
  simp only [checkSignature, hparams, resolveType_agrees h]

theorem declareParams_follows (f : String) (ps : List Param) :
    Follows True (declareParams f ps) (declareParams f ps) := by
  induction ps with
  | nil => exact .pure ()
  | cons p ps ih =>
    exact .get fun _ _ => .bind (reportIf_follows _ _ _) fun _ => .bind (declare_follows _ _ _ _) fun _ => ih

theorem functionBody_follows (h : env.Agrees env') (f : FunctionDecl) :
    Follows True (functionBody env f) (functionBody env' f) := by
  have hcurrent : Env.Agrees { env with current := some ⟨f.name, f.result⟩ }
      { env' with current := some ⟨f.name, f.result⟩ } := ⟨h.policy,rfl,h.function?,h.record?,h.enum?⟩
  refine .bind (modifyScope_follows (f := (·.push false)) fun _ _ => rfl) fun _ =>
    .bind (declareParams_follows _ _) fun _ => .bind (stmts_follow hcurrent _ _ _) fun ⟨ss,ends⟩ => ?_
  have hrest (result : Option Ty) : Follows True
      (do
        let slots := (← get).scope.slots
        popFrame
        return { f with result, body := .mk f.body.pos ss, slots })
      (do
        let slots := (← get).scope.slots
        popFrame
        return { f with result, body := .mk f.body.pos ss, slots }) :=
    .get fun _ _ => .bind (modifyScope_follows (f := Scope.pop) fun _ _ => rfl) fun _ => .pure _
  dsimp only
  cases f.result with
  | none => exact hrest none
  | some t => exact .bind (reportIf_follows _ _ _) fun _ => hrest (some t)

theorem Env.Agrees.refl (env : Env) : env.Agrees env := ⟨rfl,rfl,fun _ => rfl,fun _ => rfl,fun _ => rfl⟩

theorem function_agrees (h : env.Agrees env') (f : FunctionDecl) : function env' f = function env f :=
  congrArg (fun m => modify (fun s : State => { s with scope := s.scope.beginFunction }) >>= fun _ => m)
    (functionBody_follows h f).eq

theorem function_does (env : Env) (f : FunctionDecl) (G : List Symbol) :
    Does G (function env f) ((functionBody env f).run (start G)).1
      ((functionBody env f).run (start G)).2.log G := by
  have hfollows := functionBody_follows (.refl env) f
  have hdoes := Does.of_reset (G := G) hfollows
  rw [hfollows.globals trivial] at hdoes
  exact hdoes

theorem initializer_follows (h : env.Agrees env') (c : ConstDecl) (d : Ty) :
    Follows False (initializer env c d) (initializer env' c d) := by
  refine .bind (inFrame_follows false (value_follows h c.value)).mono fun ⟨e,t⟩ =>
    .bind (reportIf_follows _ _ _).mono fun _ => .get fun l s => .bind (reportIf_follows _ _ _).mono fun _ => ?_
  exact .bind (modifyScope_follows (f := fun scope => scope.registerGlobal
    ⟨c.name, d, false, .constant, none, e.constant? (constantValue? s)⟩) False.elim) fun _ => .pure _

theorem constant_agrees (h : env.Agrees env') : constant env' = constant env := by
  funext c
  simp only [constant, resolveType_agrees h, (initializer_follows h c _).eq]

theorem constant_does (env : Env) (c : ConstDecl) (G : List Symbol) :
    ∃ c' l G', Does G (constant env c) c' l G' := by
  have hknown (s : State) (hs : s.scope.globals = G) :
      s.scope.findGlobal? c.name = G.find? (·.name = c.name) := by rw [Scope.findGlobal?,hs]
  obtain ⟨_,l,hl⟩ := (reportIf_tells true (p := .constantRedefined c.name) (by simp) c.pos).does
  obtain ⟨t,k,hk⟩ := (resolveType_tells env c.type c.pos).does
  have hagain : Does G (reportIf true (.constantRedefined c.name) c.pos >>= fun _ => pure c) c (l ++ .nothing) G :=
    .bind (hl G) (.pure c)
  have hbody := Does.bind (n := fun t => modify (fun s : State => { s with scope := s.scope.beginFunction }) >>=
    fun _ => initializer env c t) (hk G) (Does.of_reset (initializer_follows (.refl env) c t))
  rw [constant]
  by_cases hnew : (G.find? (·.name = c.name)).isSome = true
  · exact ⟨_,_,_,.get (fun s hs => by rw [hknown s hs,if_pos hnew]) hagain⟩
  · exact ⟨_,_,_,.get (fun s hs => by rw [hknown s hs,if_neg hnew]) hbody⟩

theorem constants_do (env : Env) : ∀ (cs : List ConstDecl) (G : List Symbol),
    ∃ ds l G', Does G (cs.mapM (constant env)) ds l G'
  | [], _ => ⟨_,_,_,.pure []⟩
  | c :: cs, G => by
    obtain ⟨d,l,G',hd⟩ := constant_does env c G
    obtain ⟨ds,k,G'',hds⟩ := constants_do env cs G'
    rw [List.mapM_cons]
    exact ⟨_,_,_,.bind hd (.bind hds (.pure _))⟩

theorem functions_skip {fs : List FunctionDecl} (rs : List RecordDecl) (es : List EnumDecl) {f : FunctionDecl}
    (h : ∀ g ∈ fs, g.name ≠ f.name) (is : List Item) : functions env ⟨fs,rs,es⟩ (.function f :: is) =
      (.function f :: ·) <$> functions env ⟨fs,rs,es⟩ is := by
  rw [map_eq_pure_bind,functions]
  cases fs with
  | nil => rfl
  | cons g fs => exact if_neg (h g (.head _))

theorem functions_take (f : FunctionDecl) {g : FunctionDecl} (fs : List FunctionDecl) (rs : List RecordDecl)
    (es : List EnumDecl) (h : g.name = f.name) (is : List Item) :
    functions env ⟨g :: fs,rs,es⟩ (.function f :: is) =
      function env g >>= fun g' => (.function g' :: ·) <$> functions env ⟨fs,rs,es⟩ is := by
  simp only [functions, h, if_true, map_eq_pure_bind]

theorem functions_record (fs : List FunctionDecl) (rs : List RecordDecl) (es : List EnumDecl) (r : RecordDecl)
    (is : List Item) : ∃ q rs', functions env ⟨fs,rs,es⟩ (.record r :: is) =
      (.record q :: ·) <$> functions env ⟨fs,rs',es⟩ is := by
  simp only [map_eq_pure_bind]
  cases rs with
  | nil => exact ⟨r,[],rfl⟩
  | cons q rs =>
    by_cases h : q.name = r.name
    · exact ⟨q,rs,by simp only [functions, h, if_true]⟩
    · exact ⟨r,q :: rs,by simp only [functions, h, if_false]⟩

theorem functions_do {G : List Symbol} {B S : FunctionDecl → FunctionDecl} {L : FunctionDecl → Log}
    (hB : ∀ f, Does G (function env f) (B f) (L f) G) (hS : ∀ f, (S f).name = f.name) :
    ∀ {is : List Item}, ((functionsOf is).map (·.name)).Nodup → ∀ (rs : List RecordDecl) (es : List EnumDecl),
      ∃ js, Does G
          (functions env ⟨((functionsOf is).filter fun f => !isReserved f.name).map S,rs,es⟩ is) js
          (.sum ((functionsOf is).map fun f => if isReserved f.name then .nothing else L (S f))) G ∧
        functionsOf js = (functionsOf is).map fun f => if isReserved f.name then f else B (S f)
  | [], _, _, _ => ⟨[],.pure [],rfl⟩
  | .function f :: is, hnames, rs, es => by
    have hof : functionsOf (.function f :: is) = f :: functionsOf is := rfl
    rw [hof,List.map_cons,List.nodup_cons] at hnames
    obtain ⟨js,hjs,hfs⟩ := functions_do hB hS hnames.2 rs es
    rw [hof,List.map_cons,List.map_cons,← hfs,Log.sum]
    by_cases hr : isReserved f.name = true
    · have hother : ∀ g ∈ ((functionsOf is).filter fun f => !isReserved f.name).map S, g.name ≠ f.name := by
        intro g hg hname
        obtain ⟨e,he,rfl⟩ := List.mem_map.mp hg
        exact hnames.1 (hname ▸ hS e ▸ List.mem_map_of_mem (List.mem_filter.mp he).1)
      refine ⟨.function f :: js,?_,by rw [if_pos hr]; rfl⟩
      rw [List.filter_cons_of_neg (by simp [hr]),functions_skip rs es hother,if_pos hr,Log.nothing_append]
      exact hjs.map _
    · refine ⟨.function (B (S f)) :: js,?_,by rw [if_neg hr]; rfl⟩
      rw [List.filter_cons_of_pos (by simp [hr]),List.map_cons,functions_take f _ rs es (hS f),if_neg hr]
      exact .bind (hB (S f)) (hjs.map _)
  | .record r :: is, hnames, rs, es => by
    have hnames' : ((functionsOf is).map (·.name)).Nodup := hnames
    obtain ⟨q,rs',hrun⟩ : ∃ q rs', functions env
        ⟨((functionsOf is).filter fun f => !isReserved f.name).map S,rs,es⟩ (.record r :: is) =
          (.record q :: ·) <$> functions env ⟨_,rs',es⟩ is := functions_record _ rs es r is
    obtain ⟨js,hjs,hfs⟩ := functions_do hB hS hnames' rs' es
    exact ⟨.record q :: js,hrun ▸ hjs.map _,hfs⟩
  | .enum e :: is, hnames, rs, es => by
    have hnames' : ((functionsOf is).map (·.name)).Nodup := hnames
    obtain ⟨js,hjs,hfs⟩ := functions_do hB hS hnames' rs es
    have hrun := hjs.map (Item.enum e :: ·)
    rw [map_eq_pure_bind] at hrun
    exact ⟨.enum e :: js,hrun,hfs⟩
  | .constant c :: is, hnames, rs, es => by
    have hnames' : ((functionsOf is).map (·.name)).Nodup := hnames
    obtain ⟨js,hjs,hfs⟩ := functions_do hB hS hnames' rs es
    have hrun := hjs.map (Item.constant c :: ·)
    rw [map_eq_pure_bind] at hrun
    exact ⟨.constant c :: js,hrun,hfs⟩

theorem find?_perm {α : Type} {name : α → String} {l l' : List α} (h : l.Perm l') (hnames : (l.map name).Nodup)
    (x : String) : l'.find? (name · = x) = l.find? (name · = x) := by
  induction h with
  | nil => rfl
  | cons a _ ih =>
    rw [List.find?_cons,List.find?_cons,ih (List.nodup_cons.mp hnames).2]
  | swap a b l =>
    have hne : name a ≠ name b := by
      simp only [List.map_cons, List.nodup_cons, List.mem_cons, not_or] at hnames
      exact fun h => hnames.1.1 h.symm
    simp only [List.find?_cons]
    by_cases ha : name a = x <;> by_cases hb : name b = x <;> simp_all
  | trans h₁ _ ih₁ ih₂ => rw [ih₂ ((h₁.map name).nodup_iff.mp hnames),ih₁ hnames]

theorem names_nodup {α : Type} {name : α → String} {k : Namespace} {g : Item → Option α}
    (hg : ∀ i a, g i = some a → i.key = (k,name a)) {is : List Item} (h : (is.map Item.key).Nodup) :
    ((is.filterMap g).map name).Nodup := by
  refine List.pairwise_map.mpr (List.pairwise_filterMap.mpr ((List.pairwise_map.mp h).imp ?_))
  intro i j hne a ha b hb hname
  exact hne (by rw [hg i a ha,hg j b hb,hname])

variable {is js : List Item}

theorem functionsOf_nodup (h : (is.map Item.key).Nodup) : ((functionsOf is).map (·.name)).Nodup :=
  names_nodup (k := .function) (fun i _ hi => by cases i <;> cases hi; rfl) h

theorem ownAll_records_nodup (h : (is.map Item.key).Nodup) : ((ownAll is).records.map (·.name)).Nodup :=
  (names_nodup (k := .type) (fun i _ hi => by cases i <;> cases hi; rfl) h).sublist (List.filter_sublist.map _)

theorem ownAll_enums_nodup (h : (is.map Item.key).Nodup) : ((ownAll is).enums.map (·.name)).Nodup :=
  (names_nodup (k := .type) (fun i _ hi => by cases i <;> cases hi; rfl) h).sublist (List.filter_sublist.map _)

def firstEnv (policy : Policy) (is : List Item) : Env := ⟨policy, [], (ownAll is).records, (ownAll is).enums, none⟩

theorem firstEnv_agrees (policy : Policy) (h : is.Perm js) (hkeys : (is.map Item.key).Nodup) :
    (firstEnv policy is).Agrees (firstEnv policy js) where
  policy := rfl
  current := rfl
  function? _ := rfl
  record? := find?_perm ((h.filterMap _).filter _) (ownAll_records_nodup hkeys)
  enum? := find?_perm ((h.filterMap _).filter _) (ownAll_enums_nodup hkeys)

/-- What the declarations of items come to: records and functions with their types resolved, and what is
found on the way. -/
structure Resolves (env : Env) (R : RecordDecl → RecordDecl) (S : FunctionDecl → FunctionDecl)
    (K : RecordDecl → Log) (L : FunctionDecl → Log) : Prop where
  record : ∀ r G, Does G (checkRecord env r) (R r) (K r) G
  signature : ∀ f G, Does G (checkSignature env f) (S f) (L f) G
  recordName : ∀ r, (R r).name = r.name
  functionName : ∀ f, (S f).name = f.name

theorem exists_resolves (env : Env) : ∃ R S K L, Resolves env R S K L := by
  choose R K hR using checkRecord_does env
  choose S L hS using checkSignature_does env
  exact ⟨R,S,K,L,fun r => (hR r).2,fun f => (hS f).2,fun r => (hR r).1,fun f => (hS f).1⟩

def resolved (R : RecordDecl → RecordDecl) (S : FunctionDecl → FunctionDecl) (is : List Item) : Declared :=
  ⟨(ownAll is).functions.map S, (ownAll is).records.map R, (ownAll is).enums⟩

def fullEnv (policy : Policy) (d : Declared) : Env := ⟨policy, d.functions.map signatureOf, d.records, d.enums, none⟩

section Program

variable {policy : Policy} {R : RecordDecl → RecordDecl} {S : FunctionDecl → FunctionDecl}
  {K : RecordDecl → Log} {L : FunctionDecl → Log}

def foundIn (M : Item → Log) (K : RecordDecl → Log) (L : FunctionDecl → Log) (is : List Item) : Log :=
  .sum (is.map M) ++ (.sum ((ownAll is).records.map K) ++ (.sum ((ownAll is).functions.map L) ++ .nothing))

theorem foundIn_perm (M : Item → Log) (K : RecordDecl → Log) (L : FunctionDecl → Log) (h : is.Perm js) :
    (foundIn M K L is).Perm (foundIn M K L js) :=
  .append (Log.sum_perm (h.map M)) (.append (Log.sum_perm (((h.filterMap _).filter _).map K))
    (.append (Log.sum_perm (((h.filterMap _).filter _).map L)) (.refl _)))

theorem collect_does {M : Item → Log}
    (hM : ∀ i d, d.Lacks i → ∀ G, Does G (collectItem d i) (d.append (own i)) (M i) G)
    (h : is.Perm js) (hkeys : (is.map Item.key).Nodup) (hr : Resolves (firstEnv policy is) R S K L) :
    Does G (collect policy js) (fullEnv policy (resolved R S js),resolved R S js)
      (foundIn M K L js) G := by
  have hagrees := firstEnv_agrees policy h hkeys
  have hdistinct : js.Pairwise fun i j => i.key ≠ j.key :=
    List.pairwise_map.mp ((h.map Item.key).nodup_iff.mp hkeys)
  have hitems := collectItems_does (G := G) hM (d := .empty) hdistinct fun i _ => by
    simp [Declared.Lacks, Declared.empty]
  have hrecords : Does G (checkRecords (firstEnv policy js) (ownAll js).records) ((ownAll js).records.map R)
      (.sum ((ownAll js).records.map K)) G := by
    rw [checkRecords_eq,checkRecord_agrees hagrees]
    exact .mapM fun r _ => hr.record r G
  have hsignatures : Does G (checkSignatures (firstEnv policy js) (ownAll js).functions)
      ((ownAll js).functions.map S) (.sum ((ownAll js).functions.map L)) G := by
    rw [checkSignatures_eq,checkSignature_agrees hagrees]
    exact .mapM fun f _ => hr.signature f G
  exact .bind hitems (.bind hrecords (.bind hsignatures (.pure _)))

theorem ownAll_functions_nodup (h : (is.map Item.key).Nodup) : ((ownAll is).functions.map (·.name)).Nodup :=
  (functionsOf_nodup h).sublist (List.filter_sublist.map _)

theorem resolved_names (hr : Resolves env R S K L) (is : List Item) :
    (resolved R S is).functions.map (·.name) = (ownAll is).functions.map (·.name) ∧
      (resolved R S is).records.map (·.name) = (ownAll is).records.map (·.name) := by
  simp only [resolved, List.map_map]
  exact ⟨List.map_congr_left fun f _ => hr.functionName f,List.map_congr_left fun r _ => hr.recordName r⟩

theorem resolved_find? (h : is.Perm js) (hkeys : (is.map Item.key).Nodup) (hr : Resolves env R S K L) (x : String) :
    (resolved R S js).functions.find? (·.name = x) = (resolved R S is).functions.find? (·.name = x) :=
  find?_perm (((h.filterMap _).filter _).map S) ((resolved_names hr is).1 ▸ ownAll_functions_nodup hkeys) x

theorem fullEnv_agrees (h : is.Perm js) (hkeys : (is.map Item.key).Nodup) (hr : Resolves env R S K L) :
    (fullEnv policy (resolved R S is)).Agrees (fullEnv policy (resolved R S js)) where
  policy := rfl
  current := rfl
  function? x := by
    have hfind (is : List Item) : ((resolved R S is).functions.map signatureOf).find? (·.name = x) =
        ((resolved R S is).functions.find? (·.name = x)).map signatureOf := List.find?_map
    show ((resolved R S js).functions.map signatureOf).find? _ = ((resolved R S is).functions.map signatureOf).find? _
    rw [hfind,hfind,resolved_find? h hkeys hr]
  record? := find?_perm (((h.filterMap _).filter _).map R) ((resolved_names hr is).2 ▸ ownAll_records_nodup hkeys)
  enum? := find?_perm ((h.filterMap _).filter _) (ownAll_enums_nodup hkeys)

theorem constants_does (h : is.Perm js) (hkeys : (is.map Item.key).Nodup) (hr : Resolves env R S K L)
    (hconstants : constantsOf js = constantsOf is) {cs : List ConstDecl} {l : Log}
    (hcs : Does [] ((constantsOf is).mapM (constant (fullEnv policy (resolved R S is)))) cs l G) :
    Does [] (constants (fullEnv policy (resolved R S js)) js) (placeConstants cs js) l G := by
  rw [constants_eq,hconstants,constant_agrees (fullEnv_agrees h hkeys hr)]
  exact hcs.map _

theorem functions_does (h : is.Perm js) (hkeys : (is.map Item.key).Nodup) (hr : Resolves env R S K L)
    (cs : List ConstDecl) {B : FunctionDecl → FunctionDecl} {J : FunctionDecl → Log}
    (hB : ∀ f, Does G (function (fullEnv policy (resolved R S is)) f) (B f) (J f) G) :
    ∃ ks, Does G (functions (fullEnv policy (resolved R S js)) (resolved R S js) (placeConstants cs js)) ks
        (.sum ((functionsOf js).map fun f => if isReserved f.name then .nothing else J (S f))) G ∧
      functionsOf ks = (functionsOf js).map fun f => if isReserved f.name then f else B (S f) := by
  have hB' (f : FunctionDecl) : Does G (function (fullEnv policy (resolved R S js)) f) (B f) (J f) G := by
    rw [function_agrees (fullEnv_agrees h hkeys hr)]
    exact hB f
  have hnames : ((functionsOf (placeConstants cs js)).map (·.name)).Nodup := by
    rw [functionsOf_placeConstants]
    exact functionsOf_nodup ((h.map Item.key).nodup_iff.mp hkeys)
  obtain ⟨ks,hks⟩ := functions_do hB' hr.functionName hnames (resolved R S js).records (resolved R S js).enums
  rw [functionsOf_placeConstants] at hks
  exact ⟨ks,hks⟩

/-- A program is checked item by item: wherever the items stand, each function comes to the same and what is
found is the same but for its order. -/
theorem exists_program_does (policy : Policy) (p : Program) (hkeys : (p.items.map Item.key).Nodup) :
    ∃ (F : FunctionDecl → FunctionDecl) (found : List Item → Log) (G : List Symbol),
      (∀ is js, is.Perm js → (found is).Perm (found js)) ∧
        ∀ js, p.items.Perm js → constantsOf js = constantsOf p.items → ∃ ks,
          Does [] (program policy { p with items := js }) { p with items := ks } (found js) G ∧
            functionsOf ks = (functionsOf js).map F := by
  choose M hM using collectItem_does
  obtain ⟨R,S,K,L,hr⟩ := exists_resolves (firstEnv policy p.items)
  obtain ⟨cs,l,G,hcs⟩ := constants_do (fullEnv policy (resolved R S p.items)) (constantsOf p.items) []
  obtain ⟨_,k,hk⟩ := (checkEntry_tells (resolved R S p.items) p.pos).does
  obtain ⟨B,J,hB⟩ : ∃ (B : FunctionDecl → FunctionDecl) (J : FunctionDecl → Log), ∀ f,
    Does G (function (fullEnv policy (resolved R S p.items)) f) (B f) (J f) G := ⟨_,_,fun f => function_does _ f G⟩
  refine ⟨fun f => if isReserved f.name then f else B (S f),fun js => foundIn M K L js ++ (l ++
    (.sum ((functionsOf js).map fun f => if isReserved f.name then .nothing else J (S f)) ++ (k ++ .nothing))),G,
    fun is js h => ?_,fun js h hconstants => ?_⟩
  · have hfunctions : (functionsOf is).Perm (functionsOf js) := h.filterMap _
    exact .append (foundIn_perm M K L h)
      (.append (.refl _) (.append (Log.sum_perm (hfunctions.map _)) (.refl _)))
  · obtain ⟨ks,hks,hfs⟩ := functions_does h hkeys hr cs hB
    have hentry : checkEntry (resolved R S js) p.pos = checkEntry (resolved R S p.items) p.pos := by
      rw [checkEntry,checkEntry,resolved_find? h hkeys hr]
    exact ⟨ks,.bind (collect_does hM h hkeys hr) (.bind (constants_does h hkeys hr hconstants hcs)
      (.bind hks (.bind (hentry ▸ hk G) (.pure _)))),hfs⟩

end Program

end Check

theorem Program.check_of_does {policy : Policy} {p q : Program} {l : Check.Log} {G : List Symbol}
    (h : Check.Does [] (Check.program policy p) q l G) :
    p.check policy = ⟨q,l.errors,l.warnings,l.strayReturn⟩ := by
  obtain ⟨hprogram,hlog,-⟩ := h .initial rfl rfl
  have hinitial : Check.State.initial.log ++ l = l := Check.Log.nothing_append l
  rw [hinitial] at hlog
  rw [check,← hprogram,← hlog]
  rfl

/-- The order of functions and types does not matter: of two programs that differ in the order of their items,
but not of their constants, both are accepted or none, the same errors and warnings are found in both, and every
function ends with the same body and the same slots. -/
theorem Program.declaration_order_irrelevant (policy : Policy) (p : Program) {items : List Item}
    (hnames : (p.items.map Item.key).Nodup) (hperm : p.items.Perm items)
    (hconstants : constants { p with items } = p.constants) :
    let before := p.check policy
    let after := check policy { p with items }
    after.accepted = before.accepted ∧ before.errors.Perm after.errors ∧ before.warnings.Perm after.warnings ∧
      before.strayReturn = after.strayReturn ∧ before.program.functions.Perm after.program.functions := by
  obtain ⟨F,found,G,hfound,hdoes⟩ := Check.exists_program_does policy p hnames
  obtain ⟨ks,hrun,hfs⟩ := hdoes p.items (.refl _) rfl
  obtain ⟨ks',hrun',hfs'⟩ := hdoes items hperm hconstants
  obtain ⟨herrors,hwarnings,hstray⟩ := hfound _ _ hperm
  have hfunctions : (Check.functionsOf p.items).Perm (Check.functionsOf items) := hperm.filterMap _
  rw [check_of_does hrun,check_of_does hrun']
  refine ⟨?_,herrors,hwarnings,hstray,?_⟩
  · simp only [Checked.accepted, herrors.isEmpty_eq, hstray]
  · show (Check.functionsOf ks).Perm (Check.functionsOf ks')
    rw [hfs,hfs']
    exact hfunctions.map F

/-- `fn run(x: Integer) -> Integer { return scaled(x) + lost; }` -/
def relying : Item :=
  let pos : Pos := .unknown
  let note : Note := ⟨pos, none⟩
  .function ⟨pos, "run", [⟨pos, "x", .integer⟩], some .integer, .mk pos
    [.ret pos (some (.binary note .add (.call note (.unresolved "scaled") [.name note "x" none]) (.name note "lost" none)))], []⟩

/-- `const FACTOR: Integer = 3; fn scaled(y: Integer) -> Integer { let z = y * FACTOR; return z + gone; }` -/
def scaling : List Item :=
  let pos : Pos := .unknown
  let note : Note := ⟨pos, none⟩
  [.constant ⟨pos, "FACTOR", .integer, .int note 3⟩,
    .function ⟨pos, "scaled", [⟨pos, "y", .integer⟩], some .integer, .mk pos
      [.bind pos "z" none (.binary note .mul (.name note "y" none) (.name note "FACTOR" none)) none,
        .ret pos (some (.binary note .add (.name note "z" none) (.name note "gone" none)))], []⟩]

theorem declaration_order_irrelevant_relying :
    let before := Program.check .warn ⟨.unknown, relying :: scaling, none⟩
    let after := Program.check .warn ⟨.unknown, scaling ++ [relying], none⟩
    before.errors.map (·.problem) = [.undefinedName "lost", .undefinedName "gone"] ∧
      after.errors.map (·.problem) = [.undefinedName "gone", .undefinedName "lost"] ∧
      before.errors.Perm after.errors ∧ before.program.functions.Perm after.program.functions ∧
      before.program.functions.map (·.slots) = [[.integer], [.integer, .integer]] := by
  have hperm : ([relying] ++ scaling).Perm (scaling ++ [relying]) := List.perm_append_comm
  obtain ⟨-,herrors,-,-,hfunctions⟩ := Program.declaration_order_irrelevant .warn
    ⟨.unknown, relying :: scaling, none⟩ (by decide) hperm rfl
  exact ⟨by decide +kernel,by decide +kernel,herrors,hfunctions,by decide +kernel⟩

end Covenant
