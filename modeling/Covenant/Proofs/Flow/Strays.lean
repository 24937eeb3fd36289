import Covenant.Proofs.Renaming.Checking
import Covenant.Proofs.Typing.Program

/-! Which marks of a program checking tells. The initializer of the first constant of each name is gone through to
its end, and so is the body of the first function of each name, unless the name is reserved. Only constants are
checked outside of functions, where a `return` has nothing to leave. -/

namespace Covenant

theorem Block.marks_eq (b : Block) : b.gather marks = Stmt.gatherIn marks b.statements := by
  cases b with
  | mk pos ss => rfl

namespace Check

variable {α β : Type}

def State.Shows (s : State) : Mark → Prop
  | .ret => s.strayReturn = true
  | .range pos => ⟨.literalRange,pos⟩ ∈ s.errors

def State.constantNames (s : State) : List String := s.scope.globals.map (·.name)

/-- A check that shows no mark and declares no constant. -/
def Quiet (m : Checking α) : Prop :=
  ∀ s, (m.run s).2.constantNames = s.constantNames ∧ ∀ k, (m.run s).2.Shows k ↔ s.Shows k

/-- A check that shows the marks in `P` and declares the constants `xs`. Once a `return` is stray, nothing is said of
the other marks. -/
def Marks (P : Mark → Prop) (xs : List String) (m : Checking α) : Prop :=
  ∀ s, (m.run s).2.constantNames = xs ++ s.constantNames ∧
    ∀ k, ((m.run s).2.Shows .ret → k = .ret) → ((m.run s).2.Shows k ↔ s.Shows k ∨ P k)

section

variable {P Q : Mark → Prop} {xs : List String} {m : Checking α} {f : α → Checking β}

protected theorem Quiet.pure (x : α) : Quiet (pure x : Checking α) := fun _ => ⟨rfl,fun _ => .rfl⟩

protected theorem Quiet.bind (hm : Quiet m) (hf : ∀ x, Quiet (f x)) : Quiet (m >>= f) := by
  intro s
  obtain ⟨hnames,hshows⟩ := hm s
  obtain ⟨hnames',hshows'⟩ := hf (m.run s).1 (m.run s).2
  exact ⟨hnames'.trans hnames,fun k => (hshows' k).trans (hshows k)⟩

namespace Marks

theorem congr (hm : Marks P xs m) (h : ∀ k, P k ↔ Q k) : Marks Q xs m :=
  fun s => ⟨(hm s).1,fun k hk => ((hm s).2 k hk).trans (or_congr_right (h k))⟩

theorem of_quiet (hm : Quiet m) (h : ∀ k, ¬ P k) : Marks P [] m :=
  fun s => ⟨(hm s).1,fun k _ => ((hm s).2 k).trans (or_iff_left (h k)).symm⟩

protected theorem bind (hm : Marks P [] m) (hf : ∀ x, Marks Q xs (f x)) :
    Marks (fun k => P k ∨ Q k) xs (m >>= f) := by
  intro s
  obtain ⟨hnames,hshows⟩ := hm s
  obtain ⟨hnames',hshows'⟩ := hf (m.run s).1 (m.run s).2
  refine ⟨hnames'.trans (congrArg (xs ++ ·) hnames),fun k hk => ?_⟩
  -- a stray `return` stays one, so the first half may be asked for the same mark
  have hret (h : (m.run s).2.Shows .ret) : k = .ret := hk ((hshows' .ret fun _ => rfl).mpr (.inl h))
  rw [← or_assoc,← hshows k hret]
  exact hshows' k hk

theorem after (hm : Quiet m) (hf : ∀ x, Marks P xs (f x)) : Marks P xs (m >>= f) :=
  ((of_quiet hm fun _ => id).bind hf).congr fun _ => iff_of_eq (false_or _)

theorem before (hm : Marks P [] m) (hf : ∀ x, Quiet (f x)) : Marks P [] (m >>= f) :=
  (hm.bind fun x => of_quiet (hf x) fun _ => id).congr fun _ => iff_of_eq (or_false _)

end Marks

end

/-- A check that answers the same wherever it is made and finds the same errors, none of them about a literal. -/
def Tells (m : Checking α) : Prop :=
  ∃ a es, (∀ e ∈ es, e.problem ≠ .literalRange) ∧ ∀ s, m.run s = (a,{ s with errors := s.errors ++ es })

namespace Tells

protected theorem pure (a : α) : Tells (pure a) :=
  ⟨a,[],nofun,fun s => Prod.ext rfl (congrArg (fun es => { s with errors := es }) (List.append_nil _).symm)⟩

protected theorem bind {m : Checking α} {f : α → Checking β} (hm : Tells m) (hf : ∀ a, Tells (f a)) :
    Tells (m >>= f) := by
  obtain ⟨a,es,hes,hrun⟩ := hm
  obtain ⟨b,fs,hfs,hrun'⟩ := hf a
  refine ⟨b,es ++ fs,List.forall_mem_append.mpr ⟨hes,hfs⟩,fun s => ?_⟩
  rw [StateT.run_bind,hrun,← List.append_assoc]
  exact hrun' _

theorem quiet {m : Checking α} (hm : Tells m) : Quiet m := by
  obtain ⟨a,es,hes,hrun⟩ := hm
  intro s
  rw [hrun]
  refine ⟨rfl,fun k => ?_⟩
  cases k with
  | ret => exact .rfl
  | range pos => exact List.mem_append.trans (or_iff_left fun h => hes _ h rfl)

end Tells

theorem report_tells {p : Problem} (hp : p ≠ .literalRange) (pos : Pos) : Tells (report p pos) :=
  ⟨.error,[⟨p,pos⟩],by simpa using hp,fun _ => rfl⟩

theorem reportIf_tells (bad : Bool) {p : Problem} (hp : p ≠ .literalRange) (pos : Pos) :
    Tells (reportIf bad p pos) := by
  cases bad with
  | true => exact (report_tells hp pos).bind fun _ => .pure ()
  | false => exact .pure ()

theorem resolveType_tells (env : Env) (t : Ty) (pos : Pos) : Tells (resolveType env t pos) := by
  unfold resolveType
  split
  · exact .pure _
  · exact report_tells (by simp) _

theorem checkVariants_tells (d : EnumDecl) (seen vs : List String) : Tells (checkVariants d seen vs) := by
  induction vs generalizing seen with
  | nil => exact .pure ()
  | cons v vs ih => exact (reportIf_tells _ (by simp) _).bind fun _ => ih (v :: seen)

theorem collectItem_tells (d : Declared) (i : Item) : Tells (collectItem d i) := by
  cases i with
  | function f =>
    simp only [collectItem]
    split
    · exact (reportIf_tells _ (by simp) _).bind fun _ => .pure _
    · split
      · exact (reportIf_tells _ (by simp) _).bind fun _ => .pure _
      · exact .pure _
  | record r =>
    simp only [collectItem]
    split
    · exact (reportIf_tells _ (by simp) _).bind fun _ => .pure _
    · exact .pure _
  | enum e =>
    simp only [collectItem]
    split
    · exact (reportIf_tells _ (by simp) _).bind fun _ => .pure _
    · refine (reportIf_tells _ (by simp) _).bind fun _ => ?_
      exact (checkVariants_tells e [] e.variants).bind fun _ => .pure _
  | constant c => exact .pure _

theorem collectItems_tells (d : Declared) (is : List Item) : Tells (collectItems d is) := by
  induction is generalizing d with
  | nil => exact .pure d
  | cons i is ih => exact (collectItem_tells d i).bind ih

theorem checkFields_tells (env : Env) (r : String) (seen : List String) (fs : List FieldDecl) :
    Tells (checkFields env r seen fs) := by
  induction fs generalizing seen with
  | nil => exact .pure _
  | cons f fs ih =>
    refine (reportIf_tells _ (by simp) _).bind fun _ => (resolveType_tells _ _ _).bind fun _ => ?_
    exact (ih (f.name :: seen)).bind fun _ => .pure _

theorem checkRecords_tells (env : Env) (rs : List RecordDecl) : Tells (checkRecords env rs) := by
  induction rs with
  | nil => exact .pure _
  | cons r rs ih => exact (checkFields_tells env r.name [] r.fields).bind fun _ => ih.bind fun _ => .pure _

theorem checkParams_tells (env : Env) (ps : List Param) : Tells (checkParams env ps) := by
  induction ps with
  | nil => exact .pure _
  | cons p ps ih => exact (resolveType_tells _ _ _).bind fun _ => ih.bind fun _ => .pure _

theorem checkSignatures_tells (env : Env) (fs : List FunctionDecl) : Tells (checkSignatures env fs) := by
  induction fs with
  | nil => exact .pure _
  | cons f fs ih =>
    refine (checkParams_tells env f.params).bind fun _ => ?_
    cases f.result with
    | none => exact (Tells.pure none).bind fun _ => ih.bind fun _ => .pure _
    | some t =>
      refine Tells.bind ((resolveType_tells env t f.pos).bind fun u => .pure (some u)) fun _ => ?_
      exact ih.bind fun _ => .pure _

theorem collect_tells (policy : Policy) (is : List Item) : Tells (collect policy is) :=
  (collectItems_tells .empty is).bind fun _ => (checkRecords_tells _ _).bind fun _ =>
    (checkSignatures_tells _ _).bind fun _ => .pure _

theorem checkEntry_tells (d : Declared) (pos : Pos) : Tells (checkEntry d pos) := by
  have hparams (ps : List Param) : Tells (checkEntryParams ps) := by
    induction ps with
    | nil => exact .pure ()
    | cons p ps ih => exact (reportIf_tells _ (by simp) _).bind fun _ => ih
  unfold checkEntry
  split
  · exact reportIf_tells _ (by simp) _
  · exact (reportIf_tells _ (by simp) _).bind fun _ => hparams _

theorem warn_quiet (c : Caution) (pos : Pos) : Quiet (warn c pos) := fun _ => ⟨rfl,fun _ => .rfl⟩

theorem get_quiet : Quiet get := fun _ => ⟨rfl,fun _ => .rfl⟩

theorem declare_quiet (x : String) (t : Ty) (k : SymbolKind) (b : Bool) : Quiet (declare x t k b) :=
  fun _ => ⟨rfl,fun _ => .rfl⟩

theorem reportHiding_quiet (env : Env) (w : Keyword) (x : String) (pos : Pos) :
    Quiet (reportHiding env w x pos) := by
  refine get_quiet.bind fun s => ?_
  dsimp only
  split
  · cases env.policy with
    | allow => exact .pure ()
    | warn => exact warn_quiet _ _
    | error => exact (report_tells (by simp) _).quiet.bind fun _ => .pure ()
  · exact .pure ()

theorem leave_quiet (env : Env) (pos : Pos) : Quiet (stmt env (.leave pos)) := by
  refine get_quiet.bind fun s => ?_
  split
  · exact (reportIf_tells _ (by simp) _).quiet.bind fun _ => .pure _
  · exact fun _ => ⟨rfl,fun _ => .rfl⟩

theorem next_quiet (env : Env) (pos : Pos) : Quiet (stmt env (.next pos)) :=
  get_quiet.bind fun _ => (reportIf_tells _ (by simp) _).quiet.bind fun _ => .pure _

variable {env : Env} {P : Mark → Prop}

theorem Marks.inFrame {m : Checking α} (nested : Bool) (h : Marks P [] m) : Marks P [] (inFrame nested m) := by
  have hpush : Quiet (pushFrame nested) := fun _ => ⟨rfl,fun _ => .rfl⟩
  have hpop : Quiet popFrame := fun _ => ⟨rfl,fun _ => .rfl⟩
  exact .after hpush fun _ => h.before fun _ => hpop.bind fun _ => .pure _

/-- Only outside of functions a `return` is told. -/
def Env.Heeds (env : Env) (k : Mark) : Prop := k = .ret → env.current = none

def Marks.coupling (env : Env) : Coupling .same env env where
  alike := Env.alike_same rfl (fun _ => rfl) (fun _ => rfl) fun _ => rfl
  Rel ms _ m _ := Marks (fun k => env.Heeds k ∧ k ∈ ms) [] m
  pure _ := of_quiet (.pure _) (by simp)
  bind hm hn := (hm.bind hn).congr (by simp [and_or_left])
  range pos s := by
    refine ⟨rfl,fun k _ => ?_⟩
    cases k with
    | ret => exact (or_iff_left (by simp)).symm
    | range pos' =>
      show ⟨.literalRange,pos'⟩ ∈ s.errors ++ [⟨.literalRange,pos⟩] ↔ _
      simp [State.Shows, Env.Heeds]
  report hp pos := by
    refine of_quiet (report_tells ?_ pos).quiet (by simp)
    rintro rfl
    cases hp
  warn _ pos := of_quiet (warn_quiet _ pos) (by simp)
  hide word x pos := of_quiet (reportHiding_quiet env word x pos) (by simp)
  lookup x := of_quiet (fun _ => ⟨rfl,fun _ => .rfl⟩) (by simp)
  declare x t k b := of_quiet (declare_quiet x t k b) (by simp)
  inFrame := .inFrame
  inLoop hm s := hm { s with loops := false :: s.loops }
  leave pos := of_quiet (leave_quiet env pos) (by simp)
  next pos := of_quiet (next_quiet env pos) (by simp)
  stray h s := by
    refine ⟨rfl,fun k hk => ?_⟩
    obtain rfl := hk rfl
    exact iff_of_true rfl (.inr ⟨fun _ => h,.head _⟩)
  inside h hm := by
    refine hm.congr fun k => and_congr_right fun hk => (List.mem_cons.trans (or_iff_right ?_)).symm
    rintro rfl
    rw [hk rfl] at h
    cases h

theorem value_marks (henv : env.current = none) (e : Expr) :
    Marks (· ∈ e.gather marks) [] (needValue e.pos (expr env e)) := by
  have hrel := (expr_related (C := Marks.coupling env) e).value
  exact hrel.congr fun k => and_iff_right fun _ => henv

theorem stmts_mark {r : Current} (henv : env.current = some r) (ss : List Stmt) (ended warned : Bool) :
    Marks (fun k => k ≠ .ret ∧ k ∈ Stmt.gatherIn marks ss) [] (stmts env ended warned ss) := by
  have hrel := stmts_related (C := Marks.coupling env) ss ended warned
  exact hrel.congr fun k => and_congr_left' (by simp [Env.Heeds, henv])

theorem collect_current (policy : Policy) (is : List Item) (s : State) :
    ((collect policy is).run s).1.1.current = none :=
  rfl

theorem declareParams_quiet (f : String) (ps : List Param) : Quiet (declareParams f ps) := by
  induction ps with
  | nil => exact .pure ()
  | cons p ps ih =>
    exact get_quiet.bind fun _ => (reportIf_tells _ (by simp) _).quiet.bind fun _ =>
      (declare_quiet _ _ _ _).bind fun _ => ih

theorem function_marks (env : Env) (f : FunctionDecl) :
    Marks (fun k => k ≠ .ret ∧ k ∈ f.body.gather marks) [] (function env f) := by
  have hcurrent : ({ env with current := some ⟨f.name,f.result⟩ } : Env).current = some ⟨f.name,f.result⟩ := rfl
  have hbody := stmts_mark hcurrent f.body.statements false false
  rw [← Block.marks_eq] at hbody
  have hend (ss : List Stmt) : Quiet (do
      let slots := (← get).scope.slots
      popFrame
      return { f with body := .mk f.body.pos ss, slots }) := fun _ => ⟨rfl,fun _ => .rfl⟩
  refine .after (fun _ => ⟨rfl,fun _ => .rfl⟩) fun _ => .after (m := pushFrame false) (fun _ => ⟨rfl,fun _ => .rfl⟩)
    fun _ => .after (declareParams_quiet f.name f.params) fun _ => hbody.before fun r => ?_
  dsimp only
  split
  · exact (reportIf_tells _ (by simp) _).quiet.bind fun _ => hend r.1
  · exact hend r.1

/-- The first of each name that is not known already. -/
def firsts (name : α → String) (known : List String) : List α → List α
  | [] => []
  | x :: xs => if name x ∈ known then firsts name known xs else x :: firsts name (name x :: known) xs

section

variable {name : α → String} {known : List String}

theorem mem_firsts {x : α} {xs : List α} :
    x ∈ firsts name known xs ↔ name x ∉ known ∧ xs.find? (name · = name x) = some x := by
  induction xs generalizing known with
  | nil => simp [firsts]
  | cons y ys ih =>
    rw [firsts]
    by_cases hname : name y = name x
    · rw [List.find?_cons_of_pos (by simpa using hname),hname]
      by_cases hknown : name x ∈ known
      · simp [hknown, ih]
      · simp [hknown, ih, eq_comm]
    · rw [List.find?_cons_of_neg (by simpa using hname)]
      have hne : x ≠ y := by
        rintro rfl
        exact hname rfl
      split <;> simp [ih, hne, Ne.symm hname]

theorem firsts_congr {known' : List String} (h : ∀ n, n ∈ known ↔ n ∈ known') (xs : List α) :
    firsts name known xs = firsts name known' xs := by
  induction xs generalizing known known' with
  | nil => rfl
  | cons x xs ih =>
    simp only [firsts, h]
    have hnext (n : String) : n ∈ name x :: known ↔ n ∈ name x :: known' := by simp [h]
    rw [ih h,ih hnext]

end

/-- The functions whose bodies are checked. -/
def accepted (known : List String) (is : List Item) : List FunctionDecl :=
  firsts (·.name) known ((functionsOf is).filter fun f => !isReserved f.name)

theorem mem_accepted {known : List String} {is : List Item} {f : FunctionDecl} :
    f ∈ accepted known is ↔ f.name ∉ known ∧ isReserved f.name = false ∧
      (functionsOf is).find? (·.name = f.name) = some f := by
  rw [accepted,mem_firsts,List.find?_filter]
  refine and_congr_right fun _ => ?_
  cases hreserved : isReserved f.name with
  | true =>
    refine iff_of_false (fun h => ?_) nofun
    have hf := List.find?_some h
    simp [hreserved] at hf
  | false =>
    rw [and_iff_right rfl]
    refine iff_of_eq (congrArg (fun P => (functionsOf is).find? P = some f) (funext fun g => ?_))
    by_cases hg : g.name = f.name <;> simp [hg, hreserved]

theorem accepted_cons {known : List String} {is : List Item} {f : FunctionDecl} :
    accepted known (.function f :: is) = if f.name ∈ known ∨ isReserved f.name = true then accepted known is
      else f :: accepted (f.name :: known) is := by
  have hof : functionsOf (.function f :: is) = f :: functionsOf is := rfl
  rw [accepted,hof]
  cases hreserved : isReserved f.name with
  | true => simp [hreserved, accepted]
  | false => simp [hreserved, accepted, firsts]

theorem collectItem_functions (d : Declared) (f : FunctionDecl) (s : State) :
    ((collectItem d (.function f)).run s).1.functions =
      if f.name ∈ d.functions.map (·.name) ∨ isReserved f.name = true then d.functions else d.functions ++ [f] := by
  have hknown : d.hasFunction f.name = true ↔ f.name ∈ d.functions.map (·.name) := by
    simp [Declared.hasFunction]
  rw [collectItem]
  by_cases hf : d.hasFunction f.name = true
  · rw [if_pos hf,if_pos (.inl (hknown.mp hf))]
    rfl
  · rw [if_neg hf]
    by_cases hreserved : isReserved f.name = true
    · rw [if_pos hreserved,if_pos (.inr hreserved)]
      rfl
    · rw [if_neg hreserved,if_neg (not_or.mpr ⟨fun h => hf (hknown.mpr h),hreserved⟩)]
      rfl

theorem collectItems_functions (d : Declared) (is : List Item) (s : State) :
    ((collectItems d is).run s).1.functions = d.functions ++ accepted (d.functions.map (·.name)) is := by
  induction is generalizing d s with
  | nil => exact (List.append_nil _).symm
  | cons i is ih =>
    have hrun := ih ((collectItem d i).run s).1 ((collectItem d i).run s).2
    refine Eq.trans hrun ?_
    cases i with
    | function f =>
      rw [collectItem_functions,accepted_cons]
      split
      · rfl
      · rw [List.append_assoc,List.singleton_append]
        refine congrArg (d.functions ++ f :: ·) (firsts_congr (fun n => ?_) _)
        simp [or_comm]
    | record r | enum r =>
      rw [collectItem]
      split <;> rfl
    | constant c => rfl

theorem checkSignatures_bodies (env : Env) (fs : List FunctionDecl) (s : State) :
    ((checkSignatures env fs).run s).1.map (fun f => (f.name,f.body)) = fs.map fun f => (f.name,f.body) := by
  induction fs generalizing s with
  | nil => rfl
  | cons f fs ih =>
    rw [checkSignatures]
    cases f.result <;> exact congrArg ((f.name,f.body) :: ·) (ih _)

theorem collect_bodies (policy : Policy) (is : List Item) (s : State) :
    ((collect policy is).run s).1.2.functions.map (fun f => (f.name,f.body)) =
      (accepted [] is).map fun f => (f.name,f.body) := by
  have hfunctions := collectItems_functions .empty is s
  refine (checkSignatures_bodies _ _ _).trans (congrArg _ ?_)
  exact hfunctions

theorem ne_of_mem_accepted {known : List String} {is : List Item} {f : FunctionDecl} {x : String}
    (hf : f.name ∈ known ∨ isReserved f.name = true) (hx : x ∈ (accepted known is).map (·.name)) :
    x ≠ f.name := by
  rintro rfl
  obtain ⟨g,hg,hname⟩ := List.mem_map.mp hx
  obtain ⟨hunknown,hfree,-⟩ := mem_accepted.mp hg
  rw [hname] at hunknown hfree
  exact hf.elim hunknown (by simp [hfree])

theorem functions_marks (env : Env) {known : List String} {d : Declared} {is : List Item}
    (hd : d.functions.map (·.name) = (accepted known is).map (·.name)) :
    Marks (fun k => k ≠ .ret ∧ ∃ f ∈ d.functions, k ∈ f.body.gather marks) [] (functions env d is) := by
  induction is generalizing d known with
  | nil =>
    have hnone : d.functions = [] := List.map_eq_nil_iff.mp hd
    exact .of_quiet (.pure _) (by simp [hnone])
  | cons i is ih =>
    have hskip {c : Declared} (hfunctions : c.functions = d.functions)
        (hd' : d.functions.map (·.name) = (accepted known is).map (·.name)) (i : Item) :
        Marks (fun k => k ≠ .ret ∧ ∃ f ∈ d.functions, k ∈ f.body.gather marks) []
          (do return i :: (← functions env c is)) := by
      have hrest := ih (d := c) (hfunctions ▸ hd')
      rw [hfunctions] at hrest
      exact hrest.before fun _ => .pure _
    cases i with
    | function f =>
      rw [accepted_cons] at hd
      rw [functions]
      by_cases hf : f.name ∈ known ∨ isReserved f.name = true
      · rw [if_pos hf] at hd
        split
        · rename_i g rest hcons
          -- the next one that was accepted has another name
          have hg : g.name ∈ (accepted known is).map (·.name) := by
            rw [← hd,hcons]
            exact .head _
          rw [if_neg (ne_of_mem_accepted hf hg)]
          exact hskip rfl hd _
        · exact hskip rfl hd _
      · rw [if_neg hf] at hd
        obtain ⟨g,rest,hcons,hname,hrest⟩ := List.map_eq_cons_iff.mp hd
        rw [hcons]
        dsimp only
        rw [if_pos hname]
        have htail := ih (d := { d with functions := rest }) hrest
        refine ((function_marks env g).bind fun _ => htail.before fun _ => .pure _).congr fun k => ?_
        simp [and_or_left]
    | record r =>
      have hrest (rs : List RecordDecl) := hskip (c := { d with records := rs }) rfl hd
      rw [functions]
      split
      · split
        · exact hrest _ _
        · exact hskip rfl hd _
      · exact hskip rfl hd _
    | enum e | constant c => exact hskip rfl hd _

theorem constant_new (henv : env.current = none) (c : ConstDecl) {s : State}
    (hnew : s.scope.findGlobal? c.name = none) :
    ((constant env c).run s).2.constantNames = c.name :: s.constantNames ∧
      ∀ k, (((constant env c).run s).2.Shows .ret → k = .ret) →
        (((constant env c).run s).2.Shows k ↔ s.Shows k ∨ k ∈ c.value.gather marks) := by
  have hall : Marks (· ∈ c.value.gather marks) [c.name] (do
      let declared ← resolveType env c.type c.pos
      modify fun s => { s with scope := s.scope.beginFunction }
      initializer env c declared) := by
    refine .after (resolveType_tells _ _ _).quiet fun _ => .after (fun _ => ⟨rfl,fun _ => .rfl⟩) fun _ => ?_
    refine (((value_marks henv c.value).inFrame false).bind (Q := fun _ => False) fun r => ?_).congr fun _ =>
      iff_of_eq (or_false _)
    refine .after (reportIf_tells _ (by simp) _).quiet fun _ => .after get_quiet fun _ =>
      .after (reportIf_tells _ (by simp) _).quiet fun _ => ?_
    exact fun _ => ⟨rfl,fun _ _ => (iff_of_eq (or_false _)).symm⟩
  have hrun := hall s
  simpa [constant, hnew] using hrun

theorem constant_known (env : Env) (c : ConstDecl) {s : State} {y : Symbol}
    (hknown : s.scope.findGlobal? c.name = some y) :
    ((constant env c).run s).2.constantNames = s.constantNames ∧
      ∀ k, ((constant env c).run s).2.Shows k ↔ s.Shows k := by
  have hall : Quiet (do
      reportIf true (.constantRedefined c.name) c.pos
      return c) := (reportIf_tells _ (by simp) _).quiet.bind fun _ => .pure c
  have hrun := hall s
  simpa [constant, hknown] using hrun

theorem constants_show (henv : env.current = none) (is : List Item) (s : State) {k : Mark}
    (hk : ((constants env is).run s).2.Shows .ret → k = .ret) :
    ((constants env is).run s).2.Shows k ↔
      s.Shows k ∨ ∃ c ∈ firsts (·.name) s.constantNames (constantsOf is), k ∈ c.value.gather marks := by
  induction is generalizing s k with
  | nil => exact (or_iff_left (by simp [constantsOf, firsts])).symm
  | cons i is ih =>
    cases i with
    | function f | record f | enum f => exact ih s hk
    | constant d =>
      have hlist : constantsOf (.constant d :: is) = d :: constantsOf is := rfl
      have hfound : s.scope.findGlobal? d.name = none ↔ d.name ∉ s.constantNames := by
        simp [Scope.findGlobal?, State.constantNames]
      have hrest {k : Mark} := ih ((constant env d).run s).2 (k := k)
      refine (hrest hk).trans ?_
      rw [hlist,firsts]
      cases hfind : s.scope.findGlobal? d.name with
      | some y =>
        obtain ⟨hnames,hshows⟩ := constant_known env d hfind
        have hmem : d.name ∈ s.constantNames := by
          by_contra hmem
          rw [hfound.mpr hmem] at hfind
          cases hfind
        rw [if_pos hmem,hnames,hshows]
      | none =>
        obtain ⟨hnames,hshows⟩ := constant_new henv d hfind
        rw [if_neg (hfound.mp hfind),hnames,hshows k fun h => hk ((hrest fun _ => rfl).mpr (.inl h))]
        simp [or_assoc]

theorem constants_functions (env : Env) (is : List Item) (s : State) :
    functionsOf ((constants env is).run s).1 = functionsOf is := by
  induction is generalizing s with
  | nil => rfl
  | cons i is ih =>
    cases i with
    | function f => exact congrArg (f :: ·) (ih s)
    | record r | enum e => exact ih s
    | constant c => exact ih _

end Check

/-- The first constant of some name has the mark in its initializer. -/
def Program.ConstantMark (p : Program) (k : Mark) : Prop :=
  ∃ c, p.constants.find? (·.name = c.name) = some c ∧ k ∈ c.value.gather marks

/-- The first function of some name that is not reserved has the mark in its body. -/
def Program.FunctionMark (p : Program) (k : Mark) : Prop :=
  ∃ f, p.functions.find? (·.name = f.name) = some f ∧ Check.isReserved f.name = false ∧ k ∈ f.body.gather marks

/-- The first constant of some name has a `return` in its initializer. -/
def Program.Strays (p : Program) : Prop :=
  ∃ c, p.constants.find? (·.name = c.name) = some c ∧ c.value.returns = true

theorem Program.strays_iff (p : Program) : p.Strays ↔ p.ConstantMark .ret := by
  simp [Strays, ConstantMark, Expr.returns]

open Check in
theorem Program.check_shows (policy : Policy) (p : Program) {k : Mark}
    (hk : ((program policy p).run .initial).2.Shows .ret → k = .ret) :
    ((program policy p).run .initial).2.Shows k ↔ p.ConstantMark k ∨ k ≠ .ret ∧ p.FunctionMark k := by
  let collected := (collect policy p.items).run .initial
  let known := (Check.constants collected.1.1 p.items).run collected.2
  obtain ⟨hnames,hcollected⟩ := (collect_tells policy p.items).quiet .initial
  have hbodies := collect_bodies policy p.items .initial
  have hitems := constants_functions collected.1.1 p.items collected.2
  have hd : collected.1.2.functions.map (·.name) = (accepted [] known.1).map (·.name) := by
    have hfirst := congrArg (List.map Prod.fst) hbodies
    rw [List.map_map,List.map_map] at hfirst
    rw [accepted,hitems]
    exact hfirst
  have hrest : Marks (fun k => k ≠ .ret ∧ ∃ f ∈ collected.1.2.functions, k ∈ f.body.gather marks) [] (do
      let items ← Check.functions collected.1.1 collected.1.2 known.1
      checkEntry collected.1.2 p.pos
      return { p with items }) :=
    (functions_marks _ hd).before fun _ => (checkEntry_tells _ _).quiet.bind fun _ => .pure _
  have hend := (hrest known.2).2
  have hconstants := constants_show (collect_current policy p.items .initial) p.items collected.2
    (k := k) fun h => hk ((hend .ret fun _ => rfl).mpr (.inl h))
  refine (hend k hk).trans (or_congr (hconstants.trans ?_) ?_)
  · have hnone : ¬ State.initial.Shows k := by cases k <;> nofun
    rw [hcollected,or_iff_right hnone,hnames]
    refine exists_congr fun c => and_congr_left' (mem_firsts.trans (and_iff_right ?_))
    exact List.not_mem_nil
  · have hsame := congrArg (fun l => ∃ b ∈ l, k ∈ b.2.gather marks) hbodies
    simp only [List.mem_map, exists_exists_and_eq_and] at hsame
    refine and_congr_right fun _ => (iff_of_eq hsame).trans (exists_congr fun f => ?_)
    rw [mem_accepted,and_iff_right List.not_mem_nil,and_assoc,and_left_comm]
    rfl

open Check in
theorem Program.check_strayReturn (policy : Policy) (p : Program) :
    (p.check policy).strayReturn = true ↔ p.Strays :=
  (p.check_shows policy fun _ => rfl).trans (by simp [strays_iff])

/-- A literal is told to be out of range if it stands in the first constant or function of some name. -/
theorem Program.check_ranges (policy : Policy) {p : Program} (h : ¬ p.Strays) (pos : Pos) :
    ⟨.literalRange,pos⟩ ∈ (p.check policy).errors ↔ p.ConstantMark (.range pos) ∨ p.FunctionMark (.range pos) :=
  (p.check_shows policy (k := .range pos) fun hret => absurd ((p.check_strayReturn policy).mp hret) h).trans (by simp)

end Covenant
