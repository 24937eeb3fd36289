import Covenant.Proofs.Mistakes.Constants

/-! One mistake in a program: a name that is declared nowhere is reported once, wherever it stands. What
else may be reported follows from a type or a value that is lost with it. -/

namespace Covenant

variable {b : Block} {x : String} {f : FunctionDecl}

namespace Check

variable {x : String} {env : Env} {k : Nat}

/-- If the first check finds nothing, the second one beside it finds what is stated. -/
def Trails {α β : Type} (x : String) (s : State) (m : Checking α) (m' : Checking β)
    (R : β → List Diagnostic → Prop) : Prop :=
  Ends s m fun _ u => ∀ s', s.Blurs x s' → Beside x u s' [] m' R

theorem declareParams_trails (f : String) {ps : List Param} (hx : ∀ p ∈ ps, p.name ≠ x) (s : State) :
    Trails x s (declareParams f ps) (declareParams f ps) fun _ found => found = [] ∧ True := by
  induction ps generalizing s with
  | nil => exact .pure fun _ s' hs => .pure hs ⟨rfl,trivial⟩
  | cons p ps ih =>
    refine .bind (Q := fun a u => a = s ∧ u = s) (fun hc => ⟨hc,rfl,rfl⟩) fun a t ht => ?_
    refine .bind (reportIf_ends _ _ _) fun _ u hu => .bind (declare_ends _ _ _ _) fun _ v hv => ?_
    refine Ends.weaken (ih (fun p hp => hx p (.tail _ hp)) v) fun _ w hc hw s' hs => ?_
    obtain ⟨hc,-,rfl⟩ := hv hc
    obtain ⟨hc,rfl,hknown⟩ := hu hc
    obtain ⟨-,rfl,rfl⟩ := ht hc
    refine .quiet (Q := (· = s')) ⟨[],(List.append_nil _).symm,⟨rfl,rfl⟩,hs⟩ fun _ t' ha ht => ?_
    subst ha
    refine .step (reportIf_none ?_ _ _) (.quiet (declare_beside (hx p (.head _)) _ _ ht (.same _))
      fun _ v' _ hv => hw v' hv)
    rw [hs.scope.isSome_innermost]
    exact hknown

theorem function_trails (hx : ∀ p ∈ f.params, p.name ≠ x)
    (hb : ∀ {env s q u}, StmtsAccepted env s false false f.body.statements q u →
      StmtsBeside x env k s u false false q b.statements) (s : State) :
    Trails x s (function env f) (function env { f with body := b }) fun g found =>
      Told x k (g.body.Every searchesKnown true) found := by
  refine .bind (Q := fun _ u => u = { s with scope := s.scope.beginFunction }) (fun hc => ⟨hc,rfl⟩) fun _ t ht => ?_
  refine .bind (Q := fun _ u => u = { t with scope := t.scope.push false }) (fun hc => ⟨hc,rfl⟩) fun _ u hu => ?_
  refine .bind (declareParams_trails f.name hx u) fun _ v hv => ?_
  refine .bind (stmts_accept _ f.body.statements v false false) fun ⟨ss,ends⟩ w hw => ?_
  have hend (z : State) (hz : z.Clean → w.Clean ∧ z = w ∧ (f.result.isSome = true → ends = true)) :
      Ends z (functionEnd f ss) fun _ u => ∀ s', s.Blurs x s' → Beside x u s' [] (function env { f with body := b })
        fun g found => Told x k (g.body.Every searchesKnown true) found := by
    intro hc
    obtain ⟨hcw,rfl,hends⟩ := hz hc
    obtain ⟨hcv,hbody⟩ := hw hcw
    obtain ⟨hcu,hparams⟩ := hv hcv
    obtain ⟨hct,rfl⟩ := hu hcu
    obtain ⟨-,rfl⟩ := ht hct
    refine ⟨hc,fun s' hs => ?_⟩
    refine .quiet (t := { s with scope := s.scope.beginFunction }) (Q := fun _ => True) ⟨[],(List.append_nil _).symm,
      ⟨rfl,trivial⟩,hs.scope.beginFunction,hs.loops,hs.warnings,hs.stray⟩ fun _ t' _ ht => ?_
    refine .quiet (t := { s with scope := s.scope.beginFunction.push false }) (Q := fun _ => True)
      ⟨[],(List.append_nil _).symm,⟨rfl,trivial⟩,ht.scope.push false,ht.loops,ht.warnings,ht.stray⟩ fun _ u' _ hu => ?_
    refine .quiet (hparams u' hu) fun _ v' _ hv => .bind (hb hbody v' hv)
      fun ⟨ss',ends'⟩ w' found ⟨htold,heq⟩ hlost => ?_
    obtain rfl : ends' = ends := heq
    have hlast : Beside x { z with scope := z.scope.pop } w' found (functionEnd { f with body := b } ss')
        fun g found => Told x k (g.body.Every searchesKnown true) found := by
      refine ⟨[],(List.append_nil _).symm,?_,hlost.scope.pop,hlost.loops,hlost.warnings,hlost.stray⟩
      rw [List.append_nil]
      exact htold
    cases hr : f.result with
    | none => exact hlast
    | some r => exact .step (reportIf_none (by simp [hends, hr]) _ _) hlast
  dsimp only
  split
  · refine .bind (reportIf_ends _ _ _) fun _ z hz => hend z fun hc => ?_
    obtain ⟨hc,rfl,hbad⟩ := hz hc
    exact ⟨hc,rfl,fun _ => by simpa using hbad⟩
  · rename_i hnone
    exact hend w fun hc => ⟨hc,rfl,fun h => by simp [hnone] at h⟩

section Lists

variable {α β : Type} {f : α → Checking β} {P : β → Prop}

theorem mapM_cons_trails {l : Nat} {a a' : α} {as as' : List α}
    (ha : ∀ s, Trails x s (f a) (f a') fun b found => Told x k (P b) found)
    (has : ∀ s, Trails x s (as.mapM f) (as'.mapM f) fun bs found => Told x l (∀ b ∈ bs, P b) found) (s : State) :
    Trails x s ((a :: as).mapM f) ((a' :: as').mapM f) fun bs found => Told x (k + l) (∀ b ∈ bs, P b) found := by
  rw [Trails,List.mapM_cons,List.mapM_cons]
  refine .bind (ha s) fun b t ht => .bind (has t) fun bs u hu => .pure fun hc s' hs => ?_
  obtain ⟨hc,hrest⟩ := hu hc
  refine .bind ((ht hc).2 s' hs) fun b' t' found hfirst ht => .bind (hrest t' ht) fun bs' u' more hmore hu => ?_
  exact .pure hu ((hfirst.append hmore).of_iff List.forall_mem_cons.symm)

theorem mapM_trails {l : List α} (h : ∀ a ∈ l, ∀ s, Trails x s (f a) (f a) fun b found => Told x 0 (P b) found)
    (s : State) : Trails x s (l.mapM f) (l.mapM f) fun bs found => Told x 0 (∀ b ∈ bs, P b) found := by
  induction l generalizing s with
  | nil => exact .pure fun _ s' hs => .pure hs (.nothing nofun)
  | cons a l ih => exact mapM_cons_trails (h a (.head _)) (ih fun a ha => h a (.tail _ ha)) s

theorem mapM_trails_at {a a' : α} {l r : List α} (ha : ∀ s, Trails x s (f a) (f a') fun b found => Told x k (P b) found)
    (h : ∀ a ∈ l ++ r, ∀ s, Trails x s (f a) (f a) fun b found => Told x 0 (P b) found) (s : State) :
    Trails x s ((l ++ a :: r).mapM f) ((l ++ a' :: r).mapM f) fun bs found => Told x k (∀ b ∈ bs, P b) found := by
  induction l generalizing s with
  | nil => exact mapM_cons_trails ha (mapM_trails h) s
  | cons c l ih =>
    have hall := mapM_cons_trails (h c (.head _)) (ih fun a ha => h a (.tail _ ha)) s
    rwa [Nat.zero_add] at hall

end Lists

theorem functions_eq_of_heads : ∀ {fs gs : List FunctionDecl}, gs.map FunctionDecl.head = fs.map FunctionDecl.head →
    gs.map (·.body) = fs.map (·.body) → gs = fs
  | [], [], _, _ => rfl
  | f :: fs, g :: gs, hhead, hbody => by
    obtain ⟨hhead,hheads⟩ := List.cons.inj hhead
    obtain ⟨hbody,hbodies⟩ := List.cons.inj hbody
    rw [FunctionDecl.eq_of_head hhead hbody,functions_eq_of_heads hheads hbodies]

theorem functions_split_of_heads {r : List FunctionDecl} :
    ∀ {l fs gs : List FunctionDecl}, gs.map FunctionDecl.head = fs.map FunctionDecl.head →
      fs.map (·.body) = (l ++ f :: r).map (·.body) → gs.map (·.body) = (l ++ { f with body := b } :: r).map (·.body) →
        ∃ l' g r', fs = l' ++ g :: r' ∧ g.body = f.body ∧ gs = l' ++ { g with body := b } :: r'
  | [], g :: fs, g' :: gs, hheads, hfs, hgs => by
    obtain ⟨hhead,hheads⟩ := List.cons.inj hheads
    obtain ⟨hbody,hfs⟩ := List.cons.inj hfs
    obtain ⟨hbody',hgs⟩ := List.cons.inj hgs
    refine ⟨[],g,fs,rfl,hbody,?_⟩
    rw [functions_eq_of_heads hheads (hgs.trans hfs.symm)]
    exact congrArg (· :: fs) (FunctionDecl.eq_of_head (g := { g with body := b }) hhead hbody')
  | a :: l, g :: fs, g' :: gs, hheads, hfs, hgs => by
    obtain ⟨hhead,hheads⟩ := List.cons.inj hheads
    obtain ⟨hbody,hfs⟩ := List.cons.inj hfs
    obtain ⟨hbody',hgs⟩ := List.cons.inj hgs
    obtain ⟨l',c,r',rfl,hc,rfl⟩ := functions_split_of_heads hheads hfs hgs
    rw [FunctionDecl.eq_of_head hhead (hbody'.trans hbody.symm)]
    exact ⟨g :: l',c,r',rfl,hc,rfl⟩

end Check

open Check (functionsOf constantsOf)

theorem Item.MistakenIn.split {is js : List Item} (h : Item.MistakenIn x is js) :
    js.map Item.head = is.map Item.head ∧
      ((constantsOf js = constantsOf is ∧ ∃ l f b r, f.body.Mistaken x b ∧ functionsOf is = l ++ f :: r ∧
          functionsOf js = l ++ { f with body := b } :: r) ∨
        functionsOf js = functionsOf is ∧ ∃ l c e r, c.value.Mistaken x e ∧ constantsOf is = l ++ c :: r ∧
          constantsOf js = l ++ { c with value := e } :: r) := by
  induction h with
  | @function f b is h => exact ⟨rfl,.inl ⟨rfl,[],f,b,functionsOf is,h,rfl,rfl⟩⟩
  | @constant c e is h => exact ⟨rfl,.inr ⟨rfl,[],c,e,constantsOf is,h,rfl,rfl⟩⟩
  | @later i is js h ih =>
    obtain ⟨hheads,ih⟩ := ih
    refine ⟨congrArg (i.head :: ·) hheads,?_⟩
    rcases ih with ⟨hc,l,f,b,r,hb,his,hjs⟩ | ⟨hf,l,c,e,r,he,his,hjs⟩
    · refine .inl ?_
      cases i with
      | function g => exact ⟨hc,g :: l,f,b,r,hb,congrArg (g :: ·) his,congrArg (g :: ·) hjs⟩
      | constant d => exact ⟨congrArg (d :: ·) hc,l,f,b,r,hb,his,hjs⟩
      | record d | enum d => exact ⟨hc,l,f,b,r,hb,his,hjs⟩
    · refine .inr ?_
      cases i with
      | function g => exact ⟨congrArg (g :: ·) hf,l,c,e,r,he,his,hjs⟩
      | constant d => exact ⟨hf,d :: l,c,e,r,he,congrArg (d :: ·) his,congrArg (d :: ·) hjs⟩
      | record d | enum d => exact ⟨hf,l,c,e,r,he,his,hjs⟩

namespace Check

variable {policy : Policy} {p q : Program} {x : String} {env : Env} {d d' : Declared}

theorem Forgets.initial (x : String) : Forgets x (fun _ => False) .initial .initial :=
  ⟨.nil,nofun,nofun,⟨rfl,rfl⟩,rfl,rfl,rfl⟩

theorem Forgets.blurs {W : String → Prop} {s s' : State} (h : Forgets x W s s') : s.Blurs x s' where
  scope := {
    globals := h.globals.imp fun _ b hab => ⟨hab.name,hab.type ▸ .same b.type,hab.isMutable,hab.kind⟩
    frames := by
      rw [h.frames.1,h.frames.2]
      exact .nil
    noGlobal := h.absent
    noLocal := by
      rw [h.frames.1]
      exact nofun }
  loops := h.loops
  warnings := h.warnings
  stray := h.stray

theorem constantStage_told (hw : p.Written) (h : Stages policy p env d) (hx : p.Avoids x)
    (hq : constantsOf q.items = constantsOf p.items) :
    Told x 0 (Apart x q.constants) (constantStage env q).2.errors ∧
      (constantStage env p).2.Blurs x (constantStage env q).2 := by
  have hsame : constantStage env q = constantStage env p := by rw [constantStage,hq,constantStage]
  obtain ⟨found,W,hfound,htold,hforgets,hinputs⟩ := (constants_forget (h.proper hw) hw.constants
    (fun c hc => (hx.constants c hc).1) (fun _ => initial_fresh True env) h.constants).2 _ _ (.initial x)
  have hapart : Apart x q.constants := by
    show Apart x (constantsOf q.items)
    rw [hq]
    exact .of_not_mem hinputs
  have hfound : (constantStage env p).2.errors = found := hfound
  rw [hsame,hfound]
  exact ⟨htold.of_iff (iff_of_true (fun _ _ _ _ => not_false) hapart),hforgets.blurs⟩

theorem constantStage_mistaken (hw : p.Written) (h : Stages policy p env d) (hx : p.Avoids x)
    {l r : List ConstDecl} {c : ConstDecl} {e : Expr} (he : c.value.Mistaken x e)
    (hp : constantsOf p.items = l ++ c :: r) (hq : constantsOf q.items = l ++ { c with value := e } :: r) :
    Told x 1 (Apart x q.constants) (constantStage env q).2.errors ∧
      (constantStage env p).2.Blurs x (constantStage env q).2 := by
  have hconstants : ∀ c ∈ constantsOf p.items, c.type.isProper = true ∧ c.value.Every written false :=
    hw.constants
  have hnames : ∀ c ∈ constantsOf p.items, c.name ≠ x := fun c hc => (hx.constants c hc).1
  have hclean := h.constants
  rw [constantStage,hp] at hclean
  rw [hp] at hconstants hnames
  obtain ⟨found,W,hfound,htold,hforgets⟩ := (constants_mistaken (h.proper hw) he hconstants hnames
    (fun _ => initial_fresh True env) hclean).2 (.initial x)
  have hfound : _ = found := hfound
  show Told x 1 (Apart x (constantsOf q.items)) _ ∧ _
  rw [constantStage,constantStage,hp,hq,hfound]
  exact ⟨htold,hforgets.blurs⟩

theorem Collects.params_avoid (h : Collects policy p env d) (hx : p.Avoids x) (hf : f ∈ d.functions) :
    ∀ y ∈ f.params, y.name ≠ x := by
  intro y hy
  obtain ⟨g,hg,hfrom⟩ := exists_of_forall₂ h.heads f hf
  obtain ⟨z,hz,t,-,rfl⟩ := exists_of_forall₂ hfrom.params y hy
  exact hx.params g hg z hz

theorem Collects.body_avoids (h : Collects policy p env d) (hx : p.Avoids x) (hf : f ∈ d.functions) :
    Stmt.EveryIn (avoids x) false f.body.statements := by
  obtain ⟨g,hg,hfrom⟩ := exists_of_forall₂ h.heads f hf
  rw [hfrom.body]
  exact Block.every_iff.mp (hx.functions g hg)

theorem checkEntry_settles (d : Declared) (pos : Pos) : Settles (checkEntry d pos) := by
  have hif {bad : Bool} {p : Problem} {pos : Pos} {m : Checking Unit} (hm : Settles m) :
      Settles (do reportIf bad p pos; m) := by
    cases bad with
    | false => exact hm
    | true =>
      rcases hm with ⟨a,rfl⟩ | hm
      · exact .inr fun _ => reportIf_true_ends _ _ _
      · exact .inr fun s => .bind (reportIf_ends _ _ _) fun _ u _ => hm u
  have hparams (ps : List Param) : Settles (checkEntryParams ps) := by
    induction ps with
    | nil => exact .inl ⟨_,rfl⟩
    | cons p ps ih => exact hif ih
  unfold checkEntry
  split
  · exact .inr fun _ => reportIf_true_ends _ _ _
  · exact hif (hparams _)

theorem function_told (hx : p.Avoids x) (h : Collects policy p env d) (hf : f ∈ d.functions) (s : State) :
    Trails x s (function env f) (function env f) fun g found => Told x 0 (g.body.Every searchesKnown true) found :=
  function_trails (h.params_avoid hx hf) (fun hss => hss.beside (h.body_avoids hx hf)) s

theorem function_mistaken (hx : p.Avoids x) (h : Collects policy p env d) (hf : f ∈ d.functions)
    (hb : f.body.Mistaken x b) (s : State) :
    Trails x s (function env f) (function env { f with body := b }) fun g found =>
      Told x 1 (g.body.Every searchesKnown true) found := by
  have havoids := h.body_avoids hx hf
  refine function_trails (h.params_avoid hx hf) (fun hss => ?_) s
  revert havoids hss
  generalize f.body = a at hb
  cases hb with
  | mk hm => exact fun havoids hss => stmts_mistaken hm havoids hss

theorem check_mistaken (hw : p.Written) (h : Stages policy p env d) (hx : p.Avoids x) (hpos : q.pos = p.pos)
    (hm : Item.MistakenIn x p.items q.items) : ∃ d', Collects policy q env d' ∧
      Told x 1 (Apart x q.constants ∧ ∀ g ∈ (functionStage env d' q).1, g.body.Every searchesKnown true)
        (entryStage env d' q).errors ∧
      (entryStage env d p).Blurs x (entryStage env d' q) := by
  obtain ⟨hheads,hsplit⟩ := hm.split
  obtain ⟨d',hd',hsame⟩ := h.toCollects.of_heads hheads
  refine ⟨d',hd',?_⟩
  have hfunctions : d'.functions.map FunctionDecl.head = d.functions.map FunctionDecl.head :=
    congrArg Declared.functions hsame
  have hentry : entryStage env d' q = ((checkEntry d p.pos).run (functionStage env d' q).2).2 := by
    rw [entryStage,hpos,← checkEntry_heads d',hsame,checkEntry_heads]
  have hlast : checkEntry d p.pos = pure () := ((checkEntry_settles d p.pos).ends h.entry).2.2
  have hstages {k l : Nat} (hkl : k + l = 1)
      (hconstants : Told x k (Apart x q.constants) (constantStage env q).2.errors ∧
        (constantStage env p).2.Blurs x (constantStage env q).2)
      (hfuns : ∀ s, Trails x s (d.functions.mapM (function env)) (d'.functions.mapM (function env)) fun gs found =>
        Told x l (∀ g ∈ gs, g.body.Every searchesKnown true) found) :
      Told x 1 (Apart x q.constants ∧ ∀ g ∈ (functionStage env d' q).1, g.body.Every searchesKnown true)
          (entryStage env d' q).errors ∧
        (entryStage env d p).Blurs x (entryStage env d' q) := by
    obtain ⟨found,hfound,htold,hblurs⟩ := (hfuns _ h.functions).2 _ hconstants.2
    rw [hentry,entryStage,hlast,← hkl]
    refine ⟨?_,hblurs⟩
    have hall := hconstants.1.append htold
    rw [List.nil_append,← hfound] at hall
    exact hall
  rcases hsplit with ⟨hc,l,f,b,r,hb,hp,hq⟩ | ⟨hf,l,c,e,r,he,hp,hq⟩
  · refine hstages (Nat.zero_add 1) (constantStage_told hw h hx hc) fun s => ?_
    obtain ⟨l',g,r',hfs,hbody,hgs⟩ := functions_split_of_heads hfunctions (h.bodies.trans (by rw [hp]))
      (hd'.bodies.trans (by rw [hq]))
    have htold := fun f hf => function_told hx h.toCollects (f := f) hf
    have hmem : g ∈ d.functions := by simp [hfs]
    have hmistaken := function_mistaken hx h.toCollects hmem (b := b) (hbody ▸ hb)
    rw [hgs]
    rw [hfs] at htold ⊢
    exact mapM_trails_at hmistaken (fun f hf => htold f (by simp at hf ⊢; tauto)) s
  · refine hstages (Nat.add_zero 1) (constantStage_mistaken hw h hx he hp hq) fun s => ?_
    have hgs : d'.functions = d.functions :=
      functions_eq_of_heads hfunctions (hd'.bodies.trans (by rw [hf,h.bodies]))
    rw [hgs]
    exact mapM_trails (fun f hf => function_told hx h.toCollects hf) s

end Check

open Check (Apart Told)

theorem Problem.kind_of_isMistake {e : Problem} (h : e.isMistake x = true) : e.kind = .undefinedSymbol := by
  cases e <;> first | rfl | cases h

theorem Check.Told.single {P : Prop} {es : List Diagnostic} (h : Told x 1 P es) :
    P ↔ ∃ e, es = [e] ∧ e.problem.isMistake x = true := by
  rw [h.intact]
  constructor
  · intro hall
    have hlength : es.length = 1 := by rw [← h.mistakes,List.countP_eq_length.mpr hall]
    obtain ⟨e,rfl⟩ := List.length_eq_one_iff.mp hlength
    exact ⟨e,rfl,hall e (.head _)⟩
  · rintro ⟨e,rfl,he⟩
    simpa using he

/-- A name that is declared nowhere is put in the place of an expression of an accepted program. Checking
reports that name as undefined once, with the warnings there were before. It reports nothing else just if
no later constant is computed from one with the mistake, and nothing is looked for in an array whose
elements are lost; all else that it may report is one of these two. -/
theorem Program.mistake_reported_once {policy : Policy} {p q : Program} {x : String} (hwritten : p.Written)
    (haccepted : (p.check policy).accepted = true) (hx : p.Avoids x)
    (hmistake : Item.MistakenIn x p.items q.items) (hpos : q.pos = p.pos) :
    (q.check policy).strayReturn = false ∧ (q.check policy).warnings = (p.check policy).warnings ∧
      (q.check policy).errors.countP (·.problem.isMistake x) = 1 ∧
      (∀ e ∈ (q.check policy).errors, e.problem.isMistake x = true ∧ e.problem.kind = .undefinedSymbol ∨
        e.problem.isLoss = true) ∧
      ((∃ e, (q.check policy).errors = [e] ∧ e.problem.isMistake x = true) ↔
        Apart x q.constants ∧ ∀ f ∈ (q.check policy).program.functions, f.body.Every searchesKnown true) := by
  obtain ⟨env,d,h⟩ := Program.check_stages haccepted
  obtain ⟨d',hd',htold,hblurs⟩ := Check.check_mistaken hwritten h hx hpos hmistake
  rw [hd'.checked_functions,Program.check_eq h.toCollects,Program.check_eq hd']
  refine ⟨hblurs.stray.trans h.entry.2,hblurs.warnings,htold.mistakes,fun e he => ?_,htold.single.symm⟩
  exact (htold.others e he).imp_left fun hmistake => ⟨hmistake,Problem.kind_of_isMistake hmistake⟩

/-- `fn run() -> Integer { if [element].contains(item) { return 1; } return 0; }` -/
def seeking (element item : Expr) : Program :=
  let pos : Pos := .unknown
  let note : Note := ⟨pos, none⟩
  ⟨pos, [.function ⟨pos, "run", [], some .integer, .mk pos
      [.cond pos (.branch pos (.method note (.array note [element]) "contains" [item] none)
          (.mk pos [.ret pos (some (.int note 1))]) .stop),
        .ret pos (some (.int note 0))], []⟩], none⟩

def one : Expr := .int ⟨.unknown, none⟩ 1

def missing : Expr := .name ⟨.unknown, none⟩ "missing" none

theorem seeking_one_written : (seeking one one).Written where
  functions := by
    rintro f (_ | ⟨_,⟨⟩⟩)
    exact ⟨⟨by decide,by decide⟩,by simp [Block.Every, Stmt.EveryIn, Stmt.Every, Chain.Every, Expr.Every,
      Expr.EveryIn, written, one]⟩
  records := nofun
  constants := nofun

theorem seeking_one_avoids : (seeking one one).Avoids "missing" where
  constants := nofun
  params := by
    rintro f (_ | ⟨_,⟨⟩⟩)
    exact nofun
  functions := by
    rintro f (_ | ⟨_,⟨⟩⟩)
    simp [Block.Every, Stmt.EveryIn, Stmt.Every, Chain.Every, Expr.Every, Expr.EveryIn, avoids, one]

/-- The item that is looked for is missing: that is all there is to say. -/
theorem mistake_reported_once_seeking : ((seeking one one).check .warn).accepted = true ∧
    ((seeking one missing).check .warn).errors = [⟨.undefinedName "missing",.unknown⟩] ∧
    ∀ f ∈ ((seeking one missing).check .warn).program.functions, f.body.Every searchesKnown true := by
  have haccepted : ((seeking one one).check .warn).accepted = true := by decide +kernel
  have herrors : ((seeking one missing).check .warn).errors = [⟨.undefinedName "missing",.unknown⟩] := by
    decide +kernel
  have hmistake : Item.MistakenIn "missing" (seeking one one).items (seeking one missing).items :=
    .function (.mk (.here (.cond (.condition (.method (.here (.here .unknown rfl)))))))
  obtain ⟨-,-,-,-,hiff⟩ := Program.mistake_reported_once seeking_one_written haccepted seeking_one_avoids
    hmistake rfl
  exact ⟨haccepted,herrors,(hiff.mp ⟨_,herrors,rfl⟩).2⟩

/-- The only element is missing: it is reported, and so is the search among elements of no type. -/
theorem lost_elements_searched : ((seeking one one).check .warn).accepted = true ∧
    Item.MistakenIn "missing" (seeking one one).items (seeking missing one).items ∧
    ((seeking missing one).check .warn).errors =
      [⟨.undefinedName "missing",.unknown⟩,⟨.builtinScalar .error,.unknown⟩] :=
  ⟨by decide +kernel,.function (.mk (.here (.cond (.condition (.receiver (.array (.here (.here .unknown rfl)))))))),
    by decide +kernel⟩

end Covenant
