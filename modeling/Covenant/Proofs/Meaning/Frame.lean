import Covenant.Proofs.Flow.Basic
import Covenant.Proofs.Meaning.Run
import Covenant.Proofs.Tree.Walk

/-! What a run leaves alone and where it goes. Operations work on the heap and the host and jump nowhere. A slot changes
only where a statement or a pattern names it; calls have slots of their own. -/

namespace Covenant

/-- Statements and patterns write to free slots only. -/
def writes (free : Option Nat → Prop) : Rule where
  expr e := match e with
    | .select _ _ as => ∀ a ∈ as, free (a.pattern.form.binder?.bind (·.slot))
    | _ => True
  stmt _ s := match s with
    | .bind _ _ _ _ slot | .each _ _ _ _ slot => free slot
    | .assign _ (.name _ _ sym) _ => free (sym.bind (·.slot))
    | _ => True
  guard _ := True

def untouched (i : Nat) : Rule := writes (· ≠ some i)

theorem writes_any : writes (fun _ => True) = .any := by
  rw [writes,Rule.any,Rule.mk.injEq]
  refine ⟨funext fun e => ?_,funext fun _ => funext fun s => ?_,rfl⟩
  · cases e <;> simp
  · split <;> rfl

namespace Meaning

variable {α β : Type}

def Jump.exit : Jump → Exit
  | .leave => .leave
  | .next => .next
  | .ret v => .ret v.isSome

theorem Jump.exit_ne_done (j : Jump) : j.exit ≠ .done := by
  intro h
  cases j <;> cases h

def State.plain (s : State) (i : Nat) : Guard.Word × Bool :=
  (s.slots.plain.word i,s.slots.plain.truth i)

/-- What a run may do to the state and what it may trap for. It may do anything to the heap, and trap for any reason
but a missing return. -/
structure Course where
  keeps : State → State → Prop
  traps : Trap → Prop
  of_slots {s t : State} : t.slots = s.slots → keeps s t
  trans {s t u : State} : keeps s t → keeps t u → keeps s u
  of_ne {k : Trap} : k ≠ .noReturn → traps k

/-- The state may change; no return is missing. -/
def Course.returning : Course := ⟨fun _ _ => True, (· ≠ .noReturn), fun _ => trivial, fun _ _ => trivial, id⟩

/-- A slot holds what it held. -/
def Course.holding (i : Nat) : Course where
  keeps s t := t.plain i = s.plain i
  traps _ := True
  of_slots h := by rw [State.plain,h,State.plain]
  trans h h' := h'.trans h
  of_ne _ := trivial

variable {c : Course} {f g h : Flow} {p q : Prop} {i : Nat}

def Outcome.Goes (c : Course) (f : Flow) (s : State) : Outcome α → Prop
  | .done _ t => c.keeps s t ∧ f .done
  | .jump j t => c.keeps s t ∧ f j.exit
  | .trap k t => c.keeps s t ∧ c.traps k
  | .stuck | .late => True

theorem Outcome.Goes.after {o : Outcome α} {s t : State} (h : o.Goes c f t) (hs : c.keeps s t) : o.Goes c f s := by
  cases o with
  | done _ u | jump _ u | trap _ u => exact ⟨c.trans hs h.1,h.2⟩
  | stuck | late => trivial

/-- Whatever becomes of a step, it keeps to its course, and it is one of the ways to go on or a trap. -/
def Eval.Goes (c : Course) (f : Flow) (x : Eval α) : Prop := ∀ s, (x s).Goes c f s

abbrev Eval.Ends (c : Course) (x : Eval α) : Prop := x.Goes c (.only .done)

namespace Eval.Goes

variable {x : Eval α} {y : α → Eval β}

theorem weaken (hx : x.Goes c f) (h : ∀ k, f k → g k) : x.Goes c g := by
  intro s
  have hs := hx s
  cases hr : x s with
  | done | jump =>
    rw [hr] at hs
    exact ⟨hs.1,h _ hs.2⟩
  | trap =>
    rw [hr] at hs
    exact hs
  | stuck | late => trivial

protected theorem pure (a : α) : (pure a : Eval α).Ends c := fun _ => ⟨c.of_slots rfl,rfl⟩

protected theorem stuck : Eval.Goes c f (Eval.stuck : Eval α) := fun _ => trivial

protected theorem late : Eval.Goes c f (Eval.late : Eval α) := fun _ => trivial

protected theorem trap {k : Trap} (hk : k ≠ .noReturn) : Eval.Goes c f (Eval.trap k : Eval α) :=
  fun _ => ⟨c.of_slots rfl,c.of_ne hk⟩

protected theorem jump (j : Jump) : Eval.Goes c (.only j.exit) (Eval.jump j : Eval α) :=
  fun _ => ⟨c.of_slots rfl,rfl⟩

protected theorem get : Eval.get.Ends c := fun _ => ⟨c.of_slots rfl,rfl⟩

protected theorem orStuck (a : Option α) : (Eval.orStuck a).Ends c := by
  cases a with
  | none => exact .stuck
  | some a => exact .pure a

theorem setHeap {f : State → Eval α} (h : ∀ s, ∃ a heap, f s s = .done a { s with heap }) :
    (Eval.get >>= f).Ends c := by
  intro s
  obtain ⟨a,heap,hs⟩ := h s
  show (f s s).Goes c _ s
  rw [hs]
  exact ⟨c.of_slots rfl,rfl⟩

/-- What follows goes on from an answer that was really given. -/
theorem bindOn (hx : x.Goes c f) (hy : ∀ s a t, x s = .done a t → f .done → (y a).Goes c g) :
    Eval.Goes c (f.andThen g) (x >>= y) := by
  intro s
  have hs := hx s
  rw [bind_apply,Eval.andThen]
  cases hr : x s with
  | done a t =>
    rw [hr] at hs
    exact (((hy s a t hr hs.2).weaken fun _ hk => .inr ⟨hs.2,hk⟩) t).after hs.1
  | jump j t =>
    rw [hr] at hs
    exact ⟨hs.1,.inl ⟨hs.2,j.exit_ne_done⟩⟩
  | trap =>
    rw [hr] at hs
    exact hs
  | stuck | late => trivial

protected theorem andThen (hx : x.Goes c f) (hy : ∀ a, (y a).Goes c g) : Eval.Goes c (f.andThen g) (x >>= y) :=
  hx.bindOn fun _ a _ _ _ => hy a

protected theorem bind (hx : x.Ends c) (hy : ∀ a, (y a).Goes c f) : Eval.Goes c f (x >>= y) :=
  Flow.done_andThen f ▸ hx.andThen hy

protected theorem after (hx : x.Goes c f) (hy : ∀ a, (y a).Ends c) : Eval.Goes c f (x >>= y) :=
  Flow.andThen_done f ▸ hx.andThen hy

theorem need {x : Eval (Option Val)} (hx : x.Goes c f) : (need x).Goes c f := hx.after fun _ => .orStuck _

theorem truth {x : Eval (Option Val)} (hx : x.Goes c f) : (truth x).Goes c f := hx.need.after fun _ => .orStuck _

theorem decides {test : Eval Bool} {y : Eval α} {may : Bool → Prop} (ht : test.Goes c f)
    (hmay : ∀ s b t, test s = .done b t → may b) (hx : x.Goes c g) (hy : y.Goes c h) :
    Eval.Goes c (f.andThen (.choice (may true) (may false) g h)) (test >>= fun b => if b = true then x else y) := by
  refine ht.bindOn fun s b t hrun _ => ?_
  cases b with
  | true => exact hx.weaken fun _ hk => .inl ⟨hmay s true t hrun,hk⟩
  | false => exact hy.weaken fun _ hk => .inr ⟨hmay s false t hrun,hk⟩

end Eval.Goes

theorem allocate_ends (o : Obj) : (allocate o).Ends c := .setHeap fun _ => ⟨_,_,rfl⟩

theorem put_ends (a : Nat) (o : Obj) : (put a o).Ends c := .setHeap fun _ => ⟨_,_,rfl⟩

theorem object_ends (v : Val) : (object v).Ends c := by
  cases v with
  | ref a => exact .bind .get fun _ => .bind (.orStuck _) fun _ => .pure _
  | _ => exact .stuck

theorem arrayAt_ends (v : Val) : (arrayAt v).Ends c := by
  refine .bind (object_ends v) fun r => ?_
  obtain ⟨a,o⟩ := r
  cases o with
  | array es c => exact .pure _
  | _ => exact .stuck

theorem variantAt_ends (v : Val) : (variantAt v).Ends c := by
  refine .bind (object_ends v) fun r => ?_
  obtain ⟨a,o⟩ := r
  cases o with
  | variant b p => exact .pure _
  | _ => exact .stuck

theorem unary_ends (op : UnaryOp) (v : Val) : (unary op v).Ends c := by
  cases op <;> cases v <;> first | exact .pure _ | exact .stuck

theorem binary_ends (op : BinaryOp) (v w : Val) : (binary op v w).Ends c := by
  have hq (v w) : (quotient v w).Ends c := by
    rw [quotient]
    split
    · exact .trap nofun
    · split
      · exact .trap nofun
      · exact .pure _
  have hr (v w) : (remainder v w).Ends c := by
    rw [remainder]
    split
    · exact .trap nofun
    · exact .pure _
  cases op with
  | eq | ne => exact .bind (.orStuck _) fun _ => .pure _
  | div => cases v <;> cases w <;> first | exact hq _ _ | exact .stuck
  | rem => cases v <;> cases w <;> first | exact hr _ _ | exact .stuck
  | _ => cases v <;> cases w <;> first | exact .pure _ | exact .stuck

theorem readSlot_ends (types : List Ty) (slot : Option Nat) : (readSlot types slot).Ends c :=
  .bind (.orStuck _) fun _ => .bind (.orStuck _) fun _ => .bind .get fun _ => .orStuck _

theorem name_ends (types : List Ty) (sym : Option Symbol) : (name types sym).Ends c := by
  cases sym with
  | none => exact .stuck
  | some sym =>
    obtain ⟨n,t,m,k,slot,v⟩ := sym
    cases k with
    | constant => exact .bind (.orStuck _) fun _ => .pure _
    | _ => exact readSlot_ends _ _

theorem element_ends (array index : Val) : (element array index).Ends c := by
  refine .bind (arrayAt_ends array) fun r => ?_
  cases index with
  | int w =>
    dsimp only
    split
    · exact .pure _
    · exact .trap nofun
  | _ => exact .stuck

theorem getElement_ends (place : Nat × Nat) : (getElement place).Ends c :=
  .bind (arrayAt_ends _) fun _ => .orStuck _

theorem setElement_ends (place : Nat × Nat) (v : Val) : (setElement place v).Ends c :=
  .bind (arrayAt_ends _) fun _ => put_ends _ _

theorem getField_ends (v : Val) (field : String) : (getField v field).Ends c := by
  refine .bind (object_ends v) fun r => ?_
  obtain ⟨a,o⟩ := r
  cases o with
  | record fs => exact .orStuck _
  | _ => exact .stuck

theorem setField_ends (v : Val) (field : String) (x : Val) : (setField v field x).Ends c := by
  refine .bind (object_ends v) fun r => ?_
  obtain ⟨a,o⟩ := r
  cases o with
  | record fs => exact put_ends _ _
  | _ => exact .stuck

theorem push_ends (array v : Val) : (push array v).Ends c := by
  refine .bind (arrayAt_ends array) fun r => ?_
  dsimp only
  split
  · exact .trap nofun
  · exact .bind (put_ends _ _) fun _ => .pure _

theorem pop_ends (array : Val) : (pop array).Ends c := by
  refine .bind (arrayAt_ends array) fun r => ?_
  dsimp only
  split
  · exact .bind (allocate_ends _) fun _ => .pure _
  · exact .bind (put_ends _ _) fun _ => .bind (allocate_ends _) fun _ => .pure _

theorem builtin_ends (b : Builtin) (args : List Val) : (builtin b args).Ends c := by
  unfold builtin
  split
  · exact .bind (arrayAt_ends _) fun _ => .pure _
  · exact .pure _
  · exact .pure _
  · exact push_ends _ _
  · exact pop_ends _
  · exact .bind (arrayAt_ends _) fun _ => .bind (.orStuck _) fun _ => .pure _
  · exact .stuck

theorem hostCall_ends (host : Host) (h : HostFunction) (args : List Val) : (hostCall host h args).Ends c := by
  intro s
  rw [hostCall]
  split
  · exact ⟨c.of_slots rfl,rfl⟩
  · exact ⟨c.of_slots rfl,c.of_ne nofun⟩

theorem matches?_ends (enums : List EnumDecl) (v : Val) (p : PatternForm) : (matches? enums v p).Ends c := by
  cases p with
  | int | bool | text => exact .orStuck _
  | enum => exact .bind (.orStuck _) fun _ => .orStuck _
  | some | ok | none | err => exact .bind (variantAt_ends _) fun _ => .pure _
  | wild | bind => exact .pure _

theorem Slots.plain_write {s t : Slots} {k : SlotKind} {j : Nat} {v : Val} (hj : j ≠ i)
    (h : s.write k j v = some t) :
    t.plain.word i = s.plain.word i ∧ t.plain.truth i = s.plain.truth i := by
  cases k <;> cases v <;> simp only [write, Option.some.injEq, reduceCtorEq] at h <;> subst h <;>
    simp [setWord, setTruth, setOther, Ne.symm hj]

theorem writeSlot_holds (types : List Ty) {slot : Option Nat} (v : Val) (h : slot ≠ some i) :
    (writeSlot types slot v).Ends (.holding i) := by
  intro s
  cases slot with
  | none => trivial
  | some j =>
    show Outcome.Goes _ _ s ((Eval.orStuck types[j]? >>= fun t => Eval.get >>= fun s =>
      Eval.orStuck (s.slots.write (.ofType t) j v) >>= fun slots => Eval.set { s with slots }) s)
    cases types[j]? with
    | none => trivial
    | some t =>
      show Outcome.Goes _ _ s ((Eval.orStuck (s.slots.write (.ofType t) j v) >>= fun slots =>
        Eval.set { s with slots }) s)
      cases hw : s.slots.write (.ofType t) j v with
      | none => trivial
      | some slots =>
        obtain ⟨hword,htruth⟩ := Slots.plain_write (fun hj => h (congrArg some hj)) hw
        exact ⟨Prod.ext hword htruth,rfl⟩

theorem writeSlot_returns (types : List Ty) (slot : Option Nat) (v : Val) :
    (writeSlot types slot v).Ends .returning :=
  .bind (.orStuck _) fun _ => .bind (.orStuck _) fun _ => .bind .get fun _ => .bind (.orStuck _) fun _ =>
    fun _ => ⟨trivial,rfl⟩

theorem round_goes {body again : Eval Unit} (ht : f .done) (hp : p) (hb : body.Goes c g)
    (ha : again.Goes c (.Rounds f p q g)) : (round body again).Goes c (.Rounds f p q g) := by
  intro s
  have hs := hb s
  rw [round]
  cases hr : body s with
  | done _ t =>
    rw [hr] at hs
    exact (ha t).after hs.1
  | jump j t =>
    rw [hr] at hs
    cases j with
    | next => exact (ha t).after hs.1
    | leave => exact ⟨hs.1,.leave ht hp hs.2⟩
    | ret v => exact ⟨hs.1,.ret ht hp hs.2⟩
  | trap =>
    rw [hr] at hs
    exact hs
  | stuck | late => trivial

theorem whileLoop_goes {test : Eval Bool} {body : Eval Unit} {may : Bool → Prop} (ht : test.Goes c f)
    (hmay : ∀ s b t, test s = .done b t → may b) (hb : body.Goes c g) (n : Nat) :
    (whileLoop test body n).Goes c (.Rounds f (may true) (may false) g) := by
  -- what comes after the test, by its answer
  have hstep {x : Eval Unit} (hx : f .done → may true → x.Goes c (.Rounds f (may true) (may false) g)) :
      Eval.Goes c (.Rounds f (may true) (may false) g) (test >>= fun b => if b = true then x else pure ()) := by
    refine (ht.bindOn (g := .Rounds f (may true) (may false) g) fun s b t hrun hdone => ?_).weaken fun _ hk =>
      hk.elim (fun hk => .out hk.1 hk.2) And.right
    cases b with
    | true => exact hx hdone (hmay s true t hrun)
    | false => exact (Eval.Goes.pure _).weaken fun _ hk => hk ▸ .stop hdone (hmay s false t hrun)
  induction n with
  | zero => exact hstep fun _ _ => .late
  | succ n ih => exact hstep fun hdone hmore => round_goes hdone hmore hb ih

theorem eachLoop_goes {bind : Val → Eval Unit} {body : Eval Unit} (array : Val)
    (ht : ∀ v, (bind v).Ends c) (hb : body.Goes c g) (n i : Nat) :
    (eachLoop array bind body n i).Goes c (.Rounds (.only .done) True True g) := by
  have hstop : Eval.Goes c (.Rounds (.only .done) True True g) (pure () : Eval Unit) :=
    (Eval.Goes.pure _).weaken fun _ hk => by cases hk; exact .stop rfl trivial
  induction n generalizing i with
  | zero =>
    rw [eachLoop]
    refine .bind (arrayAt_ends array) fun r => ?_
    dsimp only
    split
    · exact hstop
    · exact .late
  | succ n ih =>
    rw [eachLoop]
    refine .bind (arrayAt_ends array) fun r => ?_
    dsimp only
    split
    · exact hstop
    · exact .bind (.orStuck _) fun _ => .bind (ht _) fun _ => round_goes rfl trivial hb (ih _)

/-- A call ends with the slots of its caller. -/
theorem enter_ends {d : FunctionDecl} {body : Eval Unit} (htrap : ∀ s k t, body s = .trap k t → c.traps k)
    (hdone : d.result.isSome = true → ∀ s a t, body s = .done a t → c.traps .noReturn) (args : List Val) :
    (enter d body args).Ends c := by
  intro s
  rw [enter]
  split
  · trivial
  · split
    · trivial
    · rename_i slots _
      cases hr : body { s with slots } with
      | done _ t =>
        dsimp only
        split
        · exact ⟨c.of_slots rfl,hdone ‹_› _ _ _ hr⟩
        · exact ⟨c.of_slots rfl,rfl⟩
      | jump j t => cases j <;> first | exact ⟨c.of_slots rfl,rfl⟩ | trivial
      | trap => exact ⟨c.of_slots rfl,htrap _ _ _ hr⟩
      | stuck | late => trivial

theorem calls_hold (p : Program) (host : Host) (capacity n : Nat) (f : String) (args : List Val) :
    (p.calls host capacity n f args).Ends (.holding i) := by
  cases n with
  | zero => exact .late
  | succ n =>
    rw [Program.calls]
    split
    · exact .stuck
    · exact enter_ends (fun _ _ _ _ => trivial) (fun _ _ _ _ _ => trivial) _

variable {w : World} {free : Option Nat → Prop}

theorem callee_ends (hw : ∀ f args, (w.call f args).Ends c) (args : List Val) (f : Callee) :
    (callee w args f).Ends c := by
  cases f with
  | unresolved => exact .stuck
  | user f => exact hw f args
  | builtin b => exact .bind (builtin_ends _ _) fun _ => .pure _
  | host h => exact hostCall_ends _ _ _

theorem truth_mayBe {e : Expr} (s : State) (b : Bool) (t : State) (h : truth (expr w e) s = .done b t) :
    e.mayBe b := by
  cases e with
  | bool n v =>
    cases h
    rfl
  | _ => trivial

theorem exprs_go {es : List Expr} (h : ∀ e ∈ es, (expr w e).Goes c e.flow) :
    (exprs w es).Goes c (Expr.flowIn es) :=
  parts_walk es h (.pure _) fun _ _ he hes => he.need.andThen fun _ => hes.after fun _ => .pure _

section

variable (hwrite : ∀ {slot}, free slot → ∀ v, (writeSlot w.types slot v).Ends c)

include hwrite

theorem bindName_ends (v : Val) {p : PatternForm} (h : free (p.binder?.bind (·.slot))) :
    (bindName w.types v p).Ends c := by
  rw [bindName]
  cases hb : p.binder? with
  | none => exact .pure _
  | some b =>
    rw [hb] at h
    dsimp only
    split
    · exact hwrite h _
    · exact .bind (variantAt_ends _) fun _ => .bind (.orStuck _) fun _ => hwrite h _

theorem arms_go {as : List Arm} (hfree : ∀ a ∈ as, free (a.pattern.form.binder?.bind (·.slot)))
    (h : ∀ a ∈ as, (expr w a.body).Goes c a.body.flow) (v : Val) : (arms w v as).Goes c (Arm.flowOf as) := by
  refine parts_walk as (fun a ha => And.intro (hfree a ha) (h a ha)) (.trap nofun) fun (.mk ..) _ ha has =>
    .bind (matches?_ends _ _ _) fun b => ?_
  cases b with
  | true => exact (Eval.Goes.bind (bindName_ends hwrite _ ha.1) fun _ => ha.2).weaken fun _ => .inl
  | false => exact has.weaken fun _ => .inr

variable (free) in
theorem goes_walk (hw : ∀ f args, (w.call f args).Ends c) : Walk (writes free) (fun _ e => (expr w e).Goes c e.flow)
    (fun _ x => (stmt w x).Goes c x.flow) (fun _ xs => (stmts w xs).Goes c (Stmt.flowIn xs))
    (fun _ b => (block w b).Goes c b.flow) (fun _ x => (chain w x).Goes c x.flow) where
  int _ := .pure _
  bool _ := .pure _
  text _ := .pure _
  name _ := .bind (name_ends _ _) fun _ => .pure _
  unary _ he := he.need.after fun _ => .bind (unary_ends _ _) fun _ => .pure _
  binary {_ _ op _ _} _ ha hb := by
    cases op with
    | and => exact .decides ha.truth truth_mayBe hb (.pure _)
    | or => exact .decides ha.truth truth_mayBe (.pure _) hb
    | _ => exact ha.need.andThen fun _ => hb.need.after fun _ => .bind (binary_ends _ _ _) fun _ => .pure _
  call _ hes := (exprs_go hes).after fun _ => callee_ends hw _ _
  method _ he hes := he.need.andThen fun _ => (exprs_go hes).after fun _ =>
    .bind (.orStuck _) fun _ => .bind (builtin_ends _ _) fun _ => .pure _
  array {_ _ es} _ hes := by
    have helements : ∀ a i, (elements w a i es).Goes c (Expr.flowIn es) :=
      parts_walk es hes (fun _ _ => .pure _) fun _ _ he hes _ _ =>
        he.need.andThen fun _ => .bind (setElement_ends _ _) fun _ => hes _ _
    exact .bind (allocate_ends _) fun _ => (helements _ _).after fun _ => .pure _
  index _ ha hi := ha.need.andThen fun _ => hi.need.after fun _ =>
    .bind (element_ends _ _) fun _ => .bind (getElement_ends _) fun _ => .pure _
  field _ he := he.need.after fun _ => .bind (getField_ends _ _) fun _ => .pure _
  record {_ _ _ fs} _ hfs := by
    have hfields : ∀ a, (fields w a fs).Goes c (FieldInit.flowIn fs) :=
      parts_walk fs hfs (fun _ => .pure _) fun (.mk ..) _ hf hfs _ =>
        hf.need.andThen fun _ => .bind (setField_ends _ _ _) fun _ => hfs _
    exact .bind (.orStuck _) fun _ => .bind (allocate_ends _) fun _ => (hfields _).after fun _ => .pure _
  wrap _ he := .bind (allocate_ends _) fun _ => he.need.after fun _ => .bind (put_ends _ _) fun _ => .pure _
  noneLit _ := .bind (allocate_ends _) fun _ => .pure _
  enum _ := .bind (.orStuck _) fun _ => .pure _
  select h he has := he.need.andThen fun _ => (arms_go hwrite h.1 has _).after fun _ => .pure _
  block _ hss := hss.after fun _ => .pure _
  tail _ hss he := hss.andThen fun _ => he
  bind h he := he.need.after fun _ => hwrite h.1 _
  assignName h he := by
    rw [Stmt.flow,Expr.flow,Flow.done_andThen]
    exact he.need.after fun _ => hwrite h.1 _
  assignField _ ht he := ht.need.andThen fun _ => he.need.after fun _ => (setField_ends _ _ _)
  assignIndex _ ht hi he := by
    rw [Stmt.flow,Expr.flow,Flow.andThen_assoc]
    exact ht.need.andThen fun _ => hi.need.andThen fun _ => .bind (element_ends _ _) fun _ =>
      he.need.after fun _ => (setElement_ends _ _)
  assignOther {_ _ t _} _ hplace _ _ := by
    cases t with
    | name | field | index => cases hplace
    | _ => exact .stuck
  ret _ := .jump _
  retValue _ he := he.need.andThen fun _ => .jump _
  expr _ he := he.after fun _ => .pure _
  cond _ hc := hc
  loop _ he hb := whileLoop_goes he.truth truth_mayBe hb _
  each h he hb := he.need.andThen fun _ => eachLoop_goes _ (hwrite h.1) hb _ _
  leave _ := .jump _
  next _ := .jump _
  nil := .pure _
  cons _ hs hss := hs.andThen fun _ => hss
  body hss := hss
  stop := .pure _
  otherwise hb := hb
  branch _ he hb hc := .decides he.truth truth_mayBe hb hc

end

def World.Apart (w : World) : Prop := ∀ f args i, (w.call f args).Ends (.holding i)

theorem expr_holds (hw : w.Apart) {e : Expr} {l : Bool} (h : e.Every (untouched i) l) :
    (expr w e).Goes (.holding i) e.flow :=
  (goes_walk (· ≠ some i) (fun h v => writeSlot_holds _ v h) fun f args => hw f args i).onExpr e h

theorem block_returns (hw : ∀ f args, (w.call f args).Ends .returning) (b : Block) :
    (block w b).Goes .returning b.flow :=
  (goes_walk (fun _ => True) (fun _ v => writeSlot_returns _ _ v) hw).onBlock b
    (writes_any ▸ b.every_any false)

end Meaning

end Covenant
