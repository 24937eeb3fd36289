import Covenant.Proofs.Typing.Program

/-! The stages of checking a program. Declarations are collected from the heads of items alone, and then
the functions are checked one after the other. In an accepted program every constant and every function
passes its check. -/

namespace Covenant

def FunctionDecl.head (f : FunctionDecl) : FunctionDecl := { f with body := .mk f.pos [] }

/-- An item without what is looked at only after all declarations are known. -/
def Item.head : Item → Item
  | .function f => .function f.head
  | .record r => .record r
  | .enum e => .enum e
  | .constant c => .constant { c with value := .noneLit ⟨c.pos,none⟩ }

theorem FunctionDecl.eq_of_head {f g : FunctionDecl} (hhead : f.head = g.head) (hbody : f.body = g.body) :
    f = g := by
  obtain ⟨fpos,fname,fparams,fresult,fbody,fslots⟩ := f
  obtain ⟨gpos,gname,gparams,gresult,gbody,gslots⟩ := g
  simp only [head, mk.injEq] at hhead hbody ⊢
  exact ⟨hhead.1,hhead.2.1,hhead.2.2.1,hhead.2.2.2.1,hbody,hhead.2.2.2.2.2⟩

variable {policy : Policy}

namespace Check

theorem run_bind {α β : Type} {m : Checking α} {f : α → Checking β} {s t : State} {a : α}
    (h : m.run s = (a,t)) : (m >>= f).run s = (f a).run t := by
  rw [StateT.run_bind,h]
  rfl

def Declared.heads (d : Declared) : Declared := { d with functions := d.functions.map FunctionDecl.head }

theorem Declared.hasFunction_heads (d : Declared) (x : String) : d.heads.hasFunction x = d.hasFunction x := by
  simp only [hasFunction, heads, List.any_map]
  rfl

theorem collectItem_head (d : Declared) (i : Item) :
    collectItem d.heads i.head = Declared.heads <$> collectItem d i := by
  cases i with
  | function f =>
    simp only [Item.head, collectItem, Declared.hasFunction_heads, FunctionDecl.head]
    split
    · simp only [map_bind, map_pure]
    · split
      · simp only [map_bind, map_pure]
      · simp only [map_pure, Declared.heads, List.map_append, List.map_cons, List.map_nil, FunctionDecl.head]
  | record r =>
    have htype : d.heads.hasType r.name = d.hasType r.name := rfl
    simp only [Item.head, collectItem, htype]
    split
    · simp only [map_bind, map_pure]
    · rfl
  | enum e =>
    have htype : d.heads.hasType e.name = d.hasType e.name := rfl
    simp only [Item.head, collectItem, htype]
    split
    · simp only [map_bind, map_pure]
    · simp only [map_bind, map_pure]
      rfl
  | constant c => rfl

theorem collectItems_heads (d : Declared) (is : List Item) :
    collectItems d.heads (is.map Item.head) = Declared.heads <$> collectItems d is := by
  induction is generalizing d with
  | nil => rfl
  | cons i is ih => simp only [List.map_cons, collectItems, collectItem_head, bind_map_left, map_bind, ih]

theorem checkSignatures_heads (env : Env) (fs : List FunctionDecl) :
    checkSignatures env (fs.map FunctionDecl.head) = List.map FunctionDecl.head <$> checkSignatures env fs := by
  induction fs with
  | nil => rfl
  | cons f fs ih =>
    simp only [List.map_cons, checkSignatures, ih, map_bind, bind_map_left, FunctionDecl.head]
    cases f.result with
    | none => simp only [map_bind, map_pure, List.map_cons, FunctionDecl.head]
    | some t => simp only [map_bind, map_pure, List.map_cons, FunctionDecl.head]

theorem collect_heads (policy : Policy) (is : List Item) :
    collect policy (is.map Item.head) = (fun r => (r.1,r.2.heads)) <$> collect policy is := by
  have hitems : collectItems .empty (is.map Item.head) = Declared.heads <$> collectItems .empty is :=
    collectItems_heads .empty is
  have hsig (fs : List FunctionDecl) : (fs.map FunctionDecl.head).map signatureOf = fs.map signatureOf := by
    rw [List.map_map]
    rfl
  simp only [collect, hitems, bind_map_left, map_bind, map_pure, Declared.heads, checkSignatures_heads, hsig]

variable {is : List Item}

theorem collect_of_heads {js : List Item} (h : js.map Item.head = is.map Item.head)
    {s t : State} {env : Env} {d : Declared} (hrun : (collect policy is).run s = ((env,d),t)) :
    ∃ d', (collect policy js).run s = ((env,d'),t) ∧ d'.heads = d.heads := by
  have hsame := congrArg (·.run s) (collect_heads policy js)
  rw [h,collect_heads] at hsame
  simp only [StateT.run_map, hrun] at hsame
  rcases hjs : (collect policy js).run s with ⟨⟨env',d'⟩,t'⟩
  rw [hjs] at hsame
  obtain ⟨hpair,rfl⟩ := Prod.mk.inj hsame
  obtain ⟨rfl,hd⟩ := Prod.mk.inj hpair
  exact ⟨d',rfl,hd.symm⟩

def placeConstants (cs : List ConstDecl) : List Item → List Item
  | [] => []
  | .constant c :: is => .constant (cs.headD c) :: placeConstants cs.tail is
  | i :: is => i :: placeConstants cs is

theorem constants_eq (env : Env) (is : List Item) :
    constants env is = (fun cs => placeConstants cs is) <$> (constantsOf is).mapM (constant env) := by
  induction is with
  | nil => rfl
  | cons i is ih =>
    cases i with
    | constant c =>
      have hof : constantsOf (.constant c :: is) = c :: constantsOf is := rfl
      simp only [constants, ih, hof, List.mapM_cons, map_bind, bind_map_left, map_pure, placeConstants,
        List.headD_cons, List.tail_cons]
    | function f | record r | enum e =>
      simp only [constants, ih, map_eq_pure_bind, bind_assoc, pure_bind, placeConstants]
      rfl

def place (gs : List FunctionDecl) (rs : List RecordDecl) : List Item → List Item
  | [] => []
  | .function f :: is => .function (gs.headD f) :: place gs.tail rs is
  | .record r :: is => .record (rs.headD r) :: place gs rs.tail is
  | .enum e :: is => .enum e :: place gs rs is
  | .constant c :: is => .constant c :: place gs rs is

theorem functions_eq {env : Env} {d : Declared} (h : d.Matches is) :
    functions env d is = (fun gs => place gs d.records is) <$> d.functions.mapM (function env) := by
  obtain ⟨fs,rs,es⟩ := d
  induction is generalizing fs rs with
  | nil =>
    obtain rfl : fs = [] := List.map_eq_nil_iff.mp h.1
    rfl
  | cons i is ih =>
    obtain ⟨hfs,hrs⟩ := h
    cases i with
    | function f =>
      cases fs with
      | nil => cases hfs
      | cons g fs =>
        obtain ⟨hname,hrest⟩ := List.cons.inj hfs
        have hname : g.name = f.name := hname
        simp only [functions, hname, if_true, List.mapM_cons, ih fs rs ⟨hrest,hrs⟩, map_bind, bind_map_left,
          map_pure, place, List.headD_cons, List.tail_cons]
    | record r =>
      cases rs with
      | nil => cases hrs
      | cons q rs =>
        obtain ⟨hname,hrest⟩ := List.cons.inj hrs
        have hname : q.name = r.name := hname
        simp only [functions, hname, if_true, ih fs rs ⟨hfs,hrest⟩, map_eq_pure_bind, bind_assoc,
          pure_bind, place, List.headD_cons, List.tail_cons]
    | enum e | constant c =>
      simp only [functions, ih fs rs ⟨hfs,hrs⟩, map_eq_pure_bind, bind_assoc, pure_bind, place]

theorem functionsOf_place {gs : List FunctionDecl} (rs : List RecordDecl)
    (h : gs.length = (functionsOf is).length) : functionsOf (place gs rs is) = gs := by
  induction is generalizing gs rs with
  | nil => exact (List.length_eq_zero_iff.mp h).symm
  | cons i is ih =>
    cases i with
    | function f =>
      cases gs with
      | nil => cases h
      | cons g gs => exact congrArg (g :: ·) (ih rs (Nat.succ.inj h))
    | record r => exact ih rs.tail h
    | enum e | constant c => exact ih rs h

theorem recordsOf_place (gs : List FunctionDecl) {rs : List RecordDecl}
    (h : rs.length = (recordsOf is).length) : recordsOf (place gs rs is) = rs := by
  induction is generalizing gs rs with
  | nil => exact (List.length_eq_zero_iff.mp h).symm
  | cons i is ih =>
    cases i with
    | record r =>
      cases rs with
      | nil => cases h
      | cons q rs => exact congrArg (q :: ·) (ih gs (Nat.succ.inj h))
    | function f => exact ih gs.tail h
    | enum e | constant c => exact ih gs h

theorem enumsOf_place (gs : List FunctionDecl) (rs : List RecordDecl) (cs : List ConstDecl) (is : List Item) :
    enumsOf (place gs rs (placeConstants cs is)) = enumsOf is := by
  induction is generalizing gs rs cs with
  | nil => rfl
  | cons i is ih =>
    cases i with
    | function f => exact ih gs.tail rs cs
    | record r => exact ih gs rs.tail cs
    | enum e => exact congrArg (e :: ·) (ih gs rs cs)
    | constant c => exact ih gs rs cs.tail

theorem constantsOf_place (gs : List FunctionDecl) (rs : List RecordDecl) (is : List Item) :
    constantsOf (place gs rs is) = constantsOf is := by
  induction is generalizing gs rs with
  | nil => rfl
  | cons i is ih =>
    cases i with
    | function f => exact ih gs.tail rs
    | record r => exact ih gs rs.tail
    | enum e => exact ih gs rs
    | constant c => exact congrArg (c :: ·) (ih gs rs)

theorem constantsOf_placeConstants {cs : List ConstDecl}
    (h : cs.length = (constantsOf is).length) : constantsOf (placeConstants cs is) = cs := by
  induction is generalizing cs with
  | nil => exact (List.length_eq_zero_iff.mp h).symm
  | cons i is ih =>
    cases i with
    | constant c =>
      cases cs with
      | nil => cases h
      | cons d cs => exact congrArg (d :: ·) (ih (Nat.succ.inj h))
    | function f | record r | enum e => exact ih h

theorem functionsOf_placeConstants (cs : List ConstDecl) (is : List Item) :
    functionsOf (placeConstants cs is) = functionsOf is := by
  induction is generalizing cs with
  | nil => rfl
  | cons i is ih =>
    cases i with
    | function f => exact congrArg (f :: ·) (ih cs)
    | constant c => exact ih cs.tail
    | record r | enum e => exact ih cs

theorem recordsOf_placeConstants (cs : List ConstDecl) (is : List Item) :
    recordsOf (placeConstants cs is) = recordsOf is := by
  induction is generalizing cs with
  | nil => rfl
  | cons i is ih =>
    cases i with
    | record r => exact congrArg (r :: ·) (ih cs)
    | constant c => exact ih cs.tail
    | function f | enum e => exact ih cs

theorem checkEntry_heads (d : Declared) (pos : Pos) : checkEntry d.heads pos = checkEntry d pos := by
  simp only [checkEntry, Declared.heads, List.find?_map]
  have hname : ((fun f : FunctionDecl => decide (f.name = entryPoint)) ∘ FunctionDecl.head) =
      fun f => decide (f.name = entryPoint) := rfl
  rw [hname]
  cases d.functions.find? fun f => decide (f.name = entryPoint) <;> rfl

section Stages

variable (env : Env) (d : Declared) (p : Program)

def constantStage : List ConstDecl × State := ((constantsOf p.items).mapM (constant env)).run .initial

def functionStage : List FunctionDecl × State :=
  (d.functions.mapM (function env)).run (constantStage env p).2

def entryStage : State := ((checkEntry d p.pos).run (functionStage env d p).2).2

def checkedItems : List Item :=
  place (functionStage env d p).1 d.records (placeConstants (constantStage env p).1 p.items)

end Stages

structure Collects (policy : Policy) (p : Program) (env : Env) (d : Declared) : Prop where
  collected : (collect policy p.items).run .initial = ((env,d),.initial)
  heads : List.Forall₂ (HeadFrom env.resolve) (functionsOf p.items) d.functions
  records : List.Forall₂ (RecordFrom env.resolve) (recordsOf p.items) d.records
  env_eq : env = ⟨policy,d.functions.map signatureOf,d.records,enumsOf p.items,none⟩
  distinct : Declared.Distinct ⟨functionsOf p.items,recordsOf p.items,enumsOf p.items⟩

theorem Collects.of_collected {p : Program} {env : Env} {d : Declared}
    (h : (collect policy p.items).run .initial = ((env,d),.initial)) : Collects policy p env d := by
  have hends := collect_ends (s := .initial) policy p.items
  simp only [Ends, h] at hends
  obtain ⟨-,-,fs,rs,heq,hheads,hrecords,hdistinct⟩ := hends ⟨rfl,rfl⟩
  obtain ⟨rfl,rfl⟩ := Prod.mk.inj heq
  exact ⟨h,hheads,hrecords,rfl,hdistinct⟩

section

variable {p : Program} {env : Env} {d : Declared} (h : Collects policy p env d)
include h

theorem Collects.matched : d.Matches p.items :=
  ⟨map_eq_of_forall₂ (h.heads.imp fun _ _ h => by rw [h.same]),
    map_eq_of_forall₂ (h.records.imp fun _ _ ⟨_,_,h⟩ => by rw [h])⟩

theorem Collects.bodies : d.functions.map (·.body) = (functionsOf p.items).map (·.body) :=
  map_eq_of_forall₂ (h.heads.imp fun _ _ h => h.body)

theorem Collects.proper (hw : p.Written) : env.Proper :=
  h.env_eq ▸ hw.env_proper h.heads h.records

end

theorem Collects.of_heads {p q : Program} {env : Env} {d : Declared}
    (h : Collects policy p env d) (hq : q.items.map Item.head = p.items.map Item.head) :
    ∃ d', Collects policy q env d' ∧ d'.heads = d.heads := by
  obtain ⟨d',hd',hheads⟩ := collect_of_heads hq h.collected
  exact ⟨d',.of_collected hd',hheads⟩

variable {env : Env} {s : State}

theorem constants_grow (is : List Item) : Ends s (constants env is) fun _ _ => True := by
  rw [constants_eq,map_eq_pure_bind]
  exact .bind (mapM_accepts (fun c _ => constant_accepts c) _) fun _ _ _ => .pure fun _ => trivial

theorem functions_grow (d : Declared) (is : List Item) : Ends s (functions env d is) fun _ _ => True := by
  induction is generalizing d s with
  | nil => exact .pure fun _ => trivial
  | cons i is ih =>
    have hrest {s : State} (i : Item) (d : Declared) :
        Ends s (do return i :: (← functions env d is)) fun _ _ => True :=
      .bind (ih d) fun _ _ _ => .pure fun _ => trivial
    cases i with
    | function f =>
      rw [functions]
      split
      · split
        · exact .bind (function_accepts _) fun _ _ _ => hrest _ _
        · exact hrest _ _
      · exact hrest _ _
    | record r =>
      rw [functions]
      split
      · split
        · exact hrest _ _
        · exact hrest _ _
      · exact hrest _ _
    | enum e | constant c => exact hrest _ _

theorem program_grows (policy : Policy) (p : Program) :
    Ends .initial (program policy p) fun _ _ => ((collect policy p.items).run .initial).2.Clean := by
  refine .bind (Q := fun _ s => s = ((collect policy p.items).run .initial).2) (fun _ => ⟨⟨rfl,rfl⟩,rfl⟩)
    fun r s hs => .bind (constants_grow p.items) fun is t ht => .bind (functions_grow r.2 is) fun is' u hu =>
      .bind (checkEntry_ends r.2 p.pos) fun _ v hv => .pure fun hc => ?_
  have hclean := (ht (hu (hv hc).1).1).1
  obtain ⟨-,rfl⟩ := hs hclean
  exact hclean

end Check

open Check (Env Declared State Collects Ends ConstantAccepted FunctionAccepted constantsOf)

variable {p : Program} {env : Env} {d : Declared}

theorem Program.check_eq (h : Collects policy p env d) :
    p.check policy = ⟨{ p with items := Check.checkedItems env d p },(Check.entryStage env d p).errors,
      (Check.entryStage env d p).warnings,(Check.entryStage env d p).strayReturn⟩ := by
  have hmatch (cs : List ConstDecl) : d.Matches (Check.placeConstants cs p.items) :=
    ⟨by rw [Check.functionsOf_placeConstants]; exact h.matched.1,
      by rw [Check.recordsOf_placeConstants]; exact h.matched.2⟩
  have hrun : (Check.program policy p).run .initial =
      ({ p with items := Check.checkedItems env d p },Check.entryStage env d p) := by
    have hconstants : Check.constants env p.items = (fun cs => Check.placeConstants cs p.items) <$>
      (constantsOf p.items).mapM (Check.constant env) := Check.constants_eq env p.items
    rw [Check.program,Check.run_bind h.collected]
    dsimp only
    rw [hconstants,map_eq_pure_bind,bind_assoc]
    simp only [pure_bind, Check.functions_eq (hmatch _), map_eq_pure_bind, bind_assoc]
    rfl
  rw [Program.check,hrun]

theorem Check.length_mapM {α β : Type} {f : α → Check.Checking β} : ∀ (l : List α) (s : State),
    ((l.mapM f).run s).1.length = l.length
  | [], _ => rfl
  | a :: l, s => by
    rw [List.mapM_cons]
    exact congrArg (· + 1) (Check.length_mapM l ((f a).run s).2)

theorem Check.Collects.checked_functions
    (h : Collects policy p env d) : (p.check policy).program.functions = (Check.functionStage env d p).1 := by
  rw [Program.check_eq h]
  refine Check.functionsOf_place _ ?_
  rw [Check.functionsOf_placeConstants,Check.functionStage,Check.length_mapM]
  simpa using congrArg List.length h.matched.1

theorem Check.Collects.checked_constants
    (h : Collects policy p env d) : (p.check policy).program.constants = (Check.constantStage env p).1 := by
  rw [Program.check_eq h]
  refine (Check.constantsOf_place _ _ _).trans (Check.constantsOf_placeConstants ?_)
  rw [Check.constantStage,Check.length_mapM]

structure Check.Stages (policy : Policy) (p : Program) (env : Env) (d : Declared) : Prop
    extends Collects policy p env d where
  constants : (constantStage env p).2.Clean
  functions : (functionStage env d p).2.Clean
  entry : (entryStage env d p).Clean
  constantSteps : Each (ConstantAccepted env) .initial (constantsOf p.items) (constantStage env p).1
    (constantStage env p).2
  functionSteps : Each (FunctionAccepted env) (constantStage env p).2 d.functions (functionStage env d p).1
    (functionStage env d p).2

theorem Program.check_stages (h : (p.check policy).accepted = true) :
    ∃ env d, Check.Stages policy p env d := by
  rcases hcollect : (Check.collect policy p.items).run .initial with ⟨⟨env,d⟩,s⟩
  have hclean : s.Clean := by
    have hgrows := Check.program_grows policy p
    rw [hcollect] at hgrows
    simp only [Checked.accepted, Bool.and_eq_true, List.isEmpty_iff, Bool.not_eq_true'] at h
    exact (hgrows h).2
  obtain rfl : s = .initial := by
    have hends := Check.collect_ends (s := .initial) policy p.items
    simp only [Check.Ends, hcollect] at hends
    exact (hends hclean).2.1
  have hdeclares : Collects policy p env d := .of_collected hcollect
  have hentry : (Check.entryStage env d p).Clean := by
    rw [Program.check_eq hdeclares] at h
    simpa [Checked.accepted, State.Clean] using h
  have hfunctions : (Check.functionStage env d p).2.Clean := (Check.checkEntry_ends d p.pos hentry).1
  obtain ⟨hconstants,hsteps⟩ :=
    Check.mapM_accepts (fun f _ => Check.function_accepts f) d.functions hfunctions
  exact ⟨env,d,hdeclares,hconstants,hfunctions,hentry,
    (Check.mapM_accepts (fun c _ => Check.constant_accepts c) (constantsOf p.items) hconstants).2,hsteps⟩

end Covenant
