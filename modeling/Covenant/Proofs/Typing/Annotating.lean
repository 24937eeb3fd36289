import Covenant.Proofs.Typing.Stages

/-! Checking only annotates. If nothing is found, the checked program is the program that was read, once
all that checking adds is taken away from both: types, symbols, slots, callees and tags. Which of the declared types
are enums is found out by checking too, and so is what a second name of an operation means. -/

namespace Covenant

def Ty.bare : Ty → Ty
  | .enum n => .record n
  | .array t => .array t.bare
  | .option t => .option t.bare
  | .result t => .result t.bare
  | t => t

def Note.bare (n : Note) : Note := { n with type := none }

def Callee.bare (c : Callee) : Callee :=
  .unresolved (((Builtin.ofFunction? c.name).map (·.name)).getD c.name)

def Pattern.bare (p : Pattern) : Pattern :=
  match p.form.binder? with
  | none => p
  | some b => { p with form := p.form.setBinder { b with slot := none } }

mutual

def Expr.bare : Expr → Expr
  | .int n v => .int n.bare v
  | .bool n b => .bool n.bare b
  | .text n s => .text n.bare s
  | .name n x _ => .name n.bare x none
  | .unary n op e => .unary n.bare op e.bare
  | .binary n op a b => .binary n.bare op a.bare b.bare
  | .call n f args => .call n.bare f.bare (Expr.bareIn args)
  | .method n e x args _ => .method n.bare e.bare x (Expr.bareIn args) none
  | .array n es => .array n.bare (Expr.bareIn es)
  | .index n a i => .index n.bare a.bare i.bare
  | .field n e f => .field n.bare e.bare f
  | .record n x fs => .record n.bare x (FieldInit.bareIn fs)
  | .wrap n w e => .wrap n.bare w e.bare
  | .noneLit n => .noneLit n.bare
  | .enum n o v _ => .enum n.bare o v none
  | .select n e as => .select n.bare e.bare (Arm.bareIn as)
  | .block n ss none _ => .block n.bare (Stmt.bareIn ss) none false
  | .block n ss (some e) _ => .block n.bare (Stmt.bareIn ss) (some e.bare) false

def Expr.bareIn : List Expr → List Expr
  | [] => []
  | e :: es => e.bare :: Expr.bareIn es

def FieldInit.bareIn : List FieldInit → List FieldInit
  | [] => []
  | .mk p x e :: fs => .mk p x e.bare :: FieldInit.bareIn fs

def Arm.bareIn : List Arm → List Arm
  | [] => []
  | .mk pos p e :: as => .mk pos p.bare e.bare :: Arm.bareIn as

def Stmt.bare : Stmt → Stmt
  | .bind p x d e _ => .bind p x (d.map Ty.bare) e.bare none
  | .assign p t e => .assign p t.bare e.bare
  | .ret p none => .ret p none
  | .ret p (some e) => .ret p (some e.bare)
  | .expr p e => .expr p e.bare
  | .cond p c => .cond p c.bare
  | .loop p e b => .loop p e.bare b.bare
  | .each p x e b _ => .each p x e.bare b.bare none
  | .leave p => .leave p
  | .next p => .next p

def Stmt.bareIn : List Stmt → List Stmt
  | [] => []
  | s :: ss => s.bare :: Stmt.bareIn ss

def Block.bare : Block → Block
  | .mk p ss => .mk p (Stmt.bareIn ss)

def Chain.bare : Chain → Chain
  | .stop => .stop
  | .otherwise b => .otherwise b.bare
  | .branch p e b rest => .branch p e.bare b.bare rest.bare

end

def Param.bare (p : Param) : Param := { p with type := p.type.bare }

def FieldDecl.bare (f : FieldDecl) : FieldDecl := { f with type := f.type.bare }

def RecordDecl.bare (r : RecordDecl) : RecordDecl := { r with fields := r.fields.map FieldDecl.bare }

def FunctionDecl.bare (f : FunctionDecl) : FunctionDecl :=
  ⟨f.pos, f.name, f.params.map Param.bare, f.result.map Ty.bare, f.body.bare, []⟩

def ConstDecl.bare (c : ConstDecl) : ConstDecl := { c with type := c.type.bare, value := c.value.bare }

def Item.bare : Item → Item
  | .function f => .function f.bare
  | .record r => .record r.bare
  | .enum e => .enum e
  | .constant c => .constant c.bare

def Program.bare (p : Program) : Program := { p with items := p.items.map Item.bare }

theorem Callee.bare_builtin {c : Callee} {b : Builtin} (h : Builtin.ofFunction? c.name = some b) :
    Callee.bare (.builtin b) = c.bare := by
  have hname : Builtin.ofFunction? (Callee.builtin b).name = some b := b.ofFunction?_name
  simp only [Callee.bare, h, hname]
  rfl

theorem Callee.bare_host {c : Callee} {f : HostFunction} (h : HostFunction.find? c.name = some f) :
    Callee.bare (.host f) = c.bare := by
  have hname : f.name = c.name := by simpa using List.find?_some h
  show Callee.unresolved (((Builtin.ofFunction? f.name).map (·.name)).getD f.name) = c.bare
  rw [hname]
  rfl

theorem Pattern.bare_setBinder {p : Pattern} {b : Binder} (h : p.form.binder? = some b) (slot : Option Nat) :
    Pattern.bare { p with form := p.form.setBinder { b with slot } } = p.bare := by
  obtain ⟨pos,form⟩ := p
  cases form with
  | bind c | some c | ok c | err c =>
    cases h
    rfl
  | _ => cases h

theorem Check.Env.resolve_bare {env : Check.Env} {t u : Ty} (h : env.resolve t = .ok u) : u.bare = t.bare := by
  induction t generalizing u with
  | array t ih | option t ih | result t ih =>
    obtain ⟨v,hr,rfl⟩ := resolve_inside h
    simp only [Ty.bare, ih hr]
  | record n =>
    simp only [Check.Env.resolve] at h
    split at h
    · cases h
      rfl
    · split at h <;> cases h
      rfl
  | _ =>
    cases h
    rfl

namespace Check

variable {env : Env} {s : State}

theorem LetFits.kept {value : Typed} {d d' : Option Ty} {t : Ty} (h : LetFits env value d d' t) :
    d'.map Ty.bare = d.map Ty.bare := by
  cases h with
  | declared hr => exact congrArg some (Env.resolve_bare hr)
  | inferred => rfl

theorem PatternAccepted.kept {t : Ty} {u : State} {p q : Pattern} (h : PatternAccepted env t s p q u) :
    q.bare = p.bare := by
  cases h with
  | plain => rfl
  | binds _ _ hb => exact Pattern.bare_setBinder hb _

mutual

theorem ExprAccepted.kept {s u : State} (h : ExprAccepted env s e r u) : r.1.bare = e.bare := by
  cases h with
  | int | bool | text | noneLit | name | enum => rfl
  | unary he => exact congrArg (Expr.unary _ _) he.kept
  | binary he _ hf => exact congrArg₂ (Expr.binary _ _) he.kept hf.kept
  | user _ hes => exact congrArg (Expr.call _ _) hes.kept
  | builtin _ hb hes => exact congrArg₂ (Expr.call _) (Callee.bare_builtin hb) hes.kept
  | host _ _ hh hes => exact congrArg₂ (Expr.call _) (Callee.bare_host hh) hes.kept
  | method he _ hes | methodLost he hes =>
    exact congrArg₂ (fun e es => Expr.method _ e _ es none) he.kept hes.kept
  | array hes => exact congrArg (Expr.array _) hes.kept
  | index he _ hi => exact congrArg₂ (Expr.index _) he.kept hi.kept
  | field he => exact congrArg (Expr.field _ · _) he.kept
  | record _ hfs => exact congrArg (Expr.record _ _) hfs.kept
  | wrap he => exact congrArg (Expr.wrap _ _) he.kept
  | select he _ _ has => exact congrArg₂ (Expr.select _) he.kept has.kept
  | unit hss => exact congrArg (Expr.block _ · none false) hss.kept
  | value hss he => exact congrArg₂ (fun ss e => Expr.block _ ss (some e) false) hss.kept he.kept

theorem ValuesAccepted.kept {s u : State} (h : ValuesAccepted env s es rs u) :
    Expr.bareIn (rs.map (·.1)) = Expr.bareIn es := by
  cases h with
  | nil => rfl
  | cons he _ hes => exact congrArg₂ List.cons he.kept hes.kept

theorem InitsAccepted.kept {s u : State} (h : InitsAccepted env s d seen fs r u) :
    FieldInit.bareIn r.1 = FieldInit.bareIn fs := by
  cases h with
  | nil => rfl
  | cons he _ _ _ _ hfs => exact congrArg₂ (fun e fs => FieldInit.mk _ _ e :: fs) he.kept hfs.kept

theorem ArmsAccepted.kept {s u : State} (h : ArmsAccepted env s t common catchAll covered as r u) :
    Arm.bareIn r.1 = Arm.bareIn as := by
  cases h with
  | nil => rfl
  | cons _ hp he _ has =>
    simp only [Arm.bareIn, hp.kept, has.kept]
    exact congrArg (Arm.mk _ _ · :: _) he.kept

theorem StmtAccepted.kept {s u : State} (h : StmtAccepted env s x r u) : r.1.bare = x.bare := by
  cases h with
  | bind he _ hd => exact congrArg₂ (fun d e => Stmt.bind _ _ d e none) (letType_fits hd).kept he.kept
  | assignName _ _ he => exact congrArg (Stmt.assign _ (.name _ _ none)) he.kept
  | assign _ hf he => exact congrArg₂ (Stmt.assign _) hf.kept he.kept
  | retUnit | leave | next => rfl
  | retValue _ he => exact congrArg (Stmt.ret _ <| some ·) he.kept
  | expr he => exact congrArg (Stmt.expr _) he.kept
  | cond hc => exact congrArg (Stmt.cond _) hc.kept
  | loop he _ _ hb => exact congrArg₂ (Stmt.loop _) he.kept hb.kept
  | each he _ _ _ hss => exact congrArg₂ (fun e ss => Stmt.each _ _ e (.mk _ ss) none) he.kept hss.kept

theorem StmtsAccepted.kept {s u : State} (h : StmtsAccepted env s ended warned xs r u) :
    Stmt.bareIn r.1 = Stmt.bareIn xs := by
  cases h with
  | nil => rfl
  | cons _ hx hxs => exact congrArg₂ List.cons hx.kept hxs.kept

theorem BlockAccepted.kept {s u : State} (h : BlockAccepted env s b r u) : r.1.bare = b.bare := by
  cases h with
  | mk hss => exact congrArg (Block.mk _) hss.kept

theorem ChainAccepted.kept {s u : State} (h : ChainAccepted env s c r u) : r.1.bare = c.bare := by
  cases h with
  | stop => rfl
  | otherwise hb => exact congrArg Chain.otherwise hb.kept
  | branch he _ _ hb hrest =>
    simp only [Chain.bare, hrest.kept]
    exact congrArg₂ (Chain.branch _ · · _) he.kept hb.kept

end

theorem FieldFrom.bare {f f' : FieldDecl} (h : FieldFrom env.resolve f f') : f'.bare = f.bare := by
  obtain ⟨t,ht,rfl⟩ := h
  exact congrArg (FieldDecl.mk f.pos f.name) (Env.resolve_bare ht)

theorem RecordFrom.bare {q q' : RecordDecl} (h : RecordFrom env.resolve q q') : q'.bare = q.bare := by
  obtain ⟨fs,hfs,rfl⟩ := h
  exact congrArg (RecordDecl.mk q.pos q.name) (map_eq_of_forall₂ (hfs.imp fun _ _ => FieldFrom.bare))

theorem ParamFrom.bare {p p' : Param} (h : ParamFrom env.resolve p p') : p'.bare = p.bare := by
  obtain ⟨t,ht,rfl⟩ := h
  exact congrArg (Param.mk p.pos p.name) (Env.resolve_bare ht)

theorem HeadFrom.bare {f f' : FunctionDecl} (h : HeadFrom env.resolve f f') : f'.bare = f.bare := by
  have hparams : f'.params.map Param.bare = f.params.map Param.bare :=
    map_eq_of_forall₂ (h.params.imp fun _ _ => ParamFrom.bare)
  have hresult : f'.result.map Ty.bare = f.result.map Ty.bare := by
    have hrel := h.result
    generalize f.result = o, f'.result = o' at hrel ⊢
    cases hrel with
    | none => rfl
    | some ht => exact congrArg some (Env.resolve_bare ht)
  rw [h.same]
  simp only [FunctionDecl.bare, hparams, hresult]

theorem ConstantAccepted.kept {u : State} {c c' : ConstDecl} (h : ConstantAccepted env s c c' u) :
    c'.bare = c.bare := by
  cases h with
  | mk _ hd _ he => exact congrArg₂ (ConstDecl.mk c.pos c.name) (Env.resolve_bare hd) he.kept

theorem FunctionAccepted.kept {u : State} {f f' : FunctionDecl} (h : FunctionAccepted env s f f' u) :
    f'.bare = f.bare := by
  obtain @⟨ss,ends,u,hss,-⟩ := h
  have hbody : (Block.mk f.body.pos ss).bare = f.body.bare := by
    cases hb : f.body with
    | mk pos ss' =>
      rw [hb] at hss
      exact congrArg (Block.mk pos) hss.kept
  exact congrArg (FunctionDecl.mk f.pos f.name _ _ · []) hbody

theorem placeConstants_bare {cs : List ConstDecl} {is : List Item}
    (h : cs.map ConstDecl.bare = (constantsOf is).map ConstDecl.bare) :
    (placeConstants cs is).map Item.bare = is.map Item.bare := by
  induction is generalizing cs with
  | nil => rfl
  | cons i is ih =>
    cases i with
    | constant c =>
      cases cs with
      | nil => cases h
      | cons d cs =>
        obtain ⟨hfirst,hrest⟩ := List.cons.inj h
        exact congrArg₂ (fun c is => Item.constant c :: is) hfirst (ih hrest)
    | function | record | enum => exact congrArg (_ :: ·) (ih h)

theorem place_bare {gs : List FunctionDecl} {rs : List RecordDecl} {is : List Item}
    (hgs : gs.map FunctionDecl.bare = (functionsOf is).map FunctionDecl.bare)
    (hrs : rs.map RecordDecl.bare = (recordsOf is).map RecordDecl.bare) :
    (place gs rs is).map Item.bare = is.map Item.bare := by
  induction is generalizing gs rs with
  | nil => rfl
  | cons i is ih =>
    cases i with
    | function f =>
      cases gs with
      | nil => cases hgs
      | cons g gs =>
        obtain ⟨hfirst,hrest⟩ := List.cons.inj hgs
        exact congrArg₂ (fun f is => Item.function f :: is) hfirst (ih hrest hrs)
    | record r =>
      cases rs with
      | nil => cases hrs
      | cons q rs =>
        obtain ⟨hfirst,hrest⟩ := List.cons.inj hrs
        exact congrArg₂ (fun r is => Item.record r :: is) hfirst (ih hgs hrest)
    | enum | constant => exact congrArg (_ :: ·) (ih hgs hrs)

end Check

theorem Program.check_bare {policy : Policy} {p : Program} (h : (p.check policy).accepted = true) :
    (p.check policy).program.bare = p.bare := by
  obtain ⟨env,d,hstages⟩ := check_stages h
  have hfunctions := Check.map_eq_of_forall₂ (hstages.heads.imp fun _ _ => Check.HeadFrom.bare)
  have hrecords := Check.map_eq_of_forall₂ (hstages.records.imp fun _ _ => Check.RecordFrom.bare)
  have hcs := (hstages.constantSteps.keeps (I := fun _ => True) (fun _ _ _ _ _ h _ => ⟨trivial,h.kept⟩) trivial).2
  have hfs := (hstages.functionSteps.keeps (I := fun _ => True) (fun _ _ _ _ _ h _ => ⟨trivial,h.kept⟩) trivial).2
  rw [check_eq hstages.toCollects]
  refine congrArg (Program.mk p.pos · p.contract) ((Check.place_bare ?_ ?_).trans
    (Check.placeConstants_bare (Check.map_eq_of_forall₂ hcs)))
  · rw [Check.functionsOf_placeConstants,Check.map_eq_of_forall₂ hfs,hfunctions]
  · rw [Check.recordsOf_placeConstants,hrecords]

end Covenant
