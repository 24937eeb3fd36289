import Covenant.Proofs.Tree.Walk

/-! Two conditions on every node of a tree, and a third that follows from them node by node; and a
condition on a node that follows from another one on all that lies below it. The stub of a node is what it is
besides its parts: of an expression below it the type is left, or what is seen of the type, and of a block
nothing. -/

namespace Covenant

/-- What obeys the first two rules at a node obeys the third. -/
structure Rule.Join (R R' R'' : Rule) : Prop where
  expr : ∀ e, R.expr e → R'.expr e → R''.expr e
  stmt : ∀ l s, R.stmt l s → R'.stmt l s → R''.stmt l s
  guard : ∀ e, R.guard e → R'.guard e → R''.guard e

/-- What obeys the first rule throughout obeys the second at its top. -/
structure Rule.Entails (R R' : Rule) : Prop where
  expr : ∀ {e l}, e.Every R l → R'.expr e
  stmt : ∀ {s l}, s.Every R l → R'.stmt l s
  guard : ∀ {e l}, R.guard e → e.Every R l → R'.guard e

/-- What obeys the first two rules throughout obeys the third at its top. -/
structure Rule.Implies (R R' R'' : Rule) : Prop where
  expr : ∀ {e l}, e.Every R l → e.Every R' l → R''.expr e
  stmt : ∀ {s l}, s.Every R l → s.Every R' l → R''.stmt l s
  guard : ∀ {e l}, R.guard e → R'.guard e → e.Every R l → e.Every R' l → R''.guard e

variable {R R' R'' : Rule}

theorem Rule.Join.implies (h : R.Join R' R'') : R.Implies R' R'' where
  expr he he' := h.expr _ he.head he'.head
  stmt hs hs' := h.stmt _ _ hs.head hs'.head
  guard hg hg' _ _ := h.guard _ hg hg'

theorem Rule.Entails.implies (h : R.Entails R') : R.Implies R R' where
  expr he _ := h.expr he
  stmt hs _ := h.stmt hs
  guard hg _ he _ := h.guard hg he

theorem Rule.Implies.walk (r : R.Implies R' R'') : Walk R (fun l e => e.Every R' l → e.Every R'' l)
    (fun l s => s.Every R' l → s.Every R'' l) (fun l ss => Stmt.EveryIn R' l ss → Stmt.EveryIn R'' l ss)
    (fun l b => b.Every R' l → b.Every R'' l) (fun l c => c.Every R' l → c.Every R'' l) where
  int h h' := r.expr h h'
  bool h h' := r.expr h h'
  text h h' := r.expr h h'
  name h h' := r.expr h h'
  unary h he h' := ⟨r.expr h h',he h'.2⟩
  binary h ha hb h' := ⟨r.expr h h',ha h'.2.1,hb h'.2.2⟩
  call {_ _ _ es} h hes h' := ⟨r.expr h h',parts_walk es hes id (fun _ _ he hes h' => ⟨he h'.1,hes h'.2⟩) h'.2⟩
  method {_ _ _ _ es _} h he hes h' := ⟨r.expr h h',he h'.2.1,
    parts_walk es hes id (fun _ _ he hes h' => ⟨he h'.1,hes h'.2⟩) h'.2.2⟩
  array {_ _ es} h hes h' := ⟨r.expr h h',parts_walk es hes id (fun _ _ he hes h' => ⟨he h'.1,hes h'.2⟩) h'.2⟩
  index h ha hi h' := ⟨r.expr h h',ha h'.2.1,hi h'.2.2⟩
  field h he h' := ⟨r.expr h h',he h'.2⟩
  record {_ _ _ fs} h hfs h' := ⟨r.expr h h',
    parts_walk fs hfs id (fun (.mk ..) _ hf hfs h' => ⟨hf h'.1,hfs h'.2⟩) h'.2⟩
  wrap h he h' := ⟨r.expr h h',he h'.2⟩
  noneLit h h' := r.expr h h'
  enum h h' := r.expr h h'
  select {_ _ _ as} h he has h' := ⟨r.expr h h',he h'.2.1,
    parts_walk as has id (fun (.mk ..) _ ha has h' => ⟨ha h'.1,has h'.2⟩) h'.2.2⟩
  block h hss h' := ⟨r.expr h h',hss h'.2⟩
  tail h hss he h' := ⟨r.expr h h',hss h'.2.1,he h'.2.2⟩
  bind h he h' := ⟨r.stmt h h',he h'.2⟩
  assignName h he h' := ⟨r.stmt h h',he h'.2⟩
  assignField h ht he h' := ⟨r.stmt h h',⟨r.expr h.2.1 h'.2.1,ht h'.2.1.2⟩,he h'.2.2⟩
  assignIndex h ht hi he h' :=
    ⟨r.stmt h h',⟨r.expr h.2.1 h'.2.1,ht h'.2.1.2.1,hi h'.2.1.2.2⟩,he h'.2.2⟩
  assignOther {_ _ t _} h hplace ht he h' := by
    have hname : t.isName = false := by cases t <;> first | rfl | cases hplace
    have h'' := (Stmt.every_assign hname).mp h'
    exact (Stmt.every_assign hname).mpr ⟨r.stmt h h',ht h''.2.1,he h''.2.2⟩
  ret h h' := r.stmt h h'
  retValue h he h' := ⟨r.stmt h h',he h'.2⟩
  expr h he h' := ⟨r.stmt h h',he h'.2⟩
  cond h hc h' := ⟨r.stmt h h',hc h'.2⟩
  loop h he hb h' := ⟨r.stmt h h',he h'.2.1,hb h'.2.2⟩
  each h he hb h' := ⟨r.stmt h h',he h'.2.1,hb h'.2.2⟩
  leave h h' := r.stmt h h'
  next h h' := r.stmt h h'
  nil := id
  cons _ hs hss h' := ⟨hs h'.1,hss h'.2⟩
  body hss := hss
  stop := id
  otherwise hb := hb
  branch h he hb hc h' :=
    ⟨r.guard h.1 h'.1 h.2.1 h'.2.1,he h'.2.1,hb h'.2.2.1,hc h'.2.2.2⟩

theorem Expr.Every.join {e : Expr} {l : Bool} (h : R.Join R' R'') (he : e.Every R l) (he' : e.Every R' l) :
    e.Every R'' l := h.implies.walk.onExpr e he he'

theorem Block.Every.join {b : Block} {l : Bool} (h : R.Join R' R'') (hb : b.Every R l) (hb' : b.Every R' l) :
    b.Every R'' l := h.implies.walk.onBlock b hb hb'

theorem Block.Every.entail {b : Block} {l : Bool} (h : R.Entails R') (hb : b.Every R l) : b.Every R' l :=
  h.implies.walk.onBlock b hb hb

def Rule.both (R R' : Rule) : Rule where
  expr e := R.expr e ∧ R'.expr e
  stmt l s := R.stmt l s ∧ R'.stmt l s
  guard e := R.guard e ∧ R'.guard e

theorem Rule.join_both (R R' : Rule) : R.Join R' (R.both R') :=
  ⟨fun _ h h' => ⟨h,h'⟩,fun _ _ h h' => ⟨h,h'⟩,fun _ h h' => ⟨h,h'⟩⟩

theorem Rule.both_right (R R' : Rule) : (R.both R').Join (R.both R') R' :=
  ⟨fun _ h _ => h.2,fun _ _ h _ => h.2,fun _ h _ => h.2⟩

variable (v : Option Ty → Option Ty)

def Expr.stub (e : Expr) : Expr := .noneLit ⟨.unknown, v e.type⟩

def FieldInit.stub (f : FieldInit) : FieldInit := .mk f.pos f.name (f.value.stub v)

def Arm.stub (a : Arm) : Arm := .mk a.pos a.pattern (a.body.stub v)

def Block.stub (b : Block) : Block := .mk b.pos []

def Expr.shape : Expr → Expr
  | .unary n op e => .unary n op (e.stub v)
  | .binary n op a b => .binary n op (a.stub v) (b.stub v)
  | .call n f args => .call n f (args.map (Expr.stub v))
  | .method n e m args b => .method n (e.stub v) m (args.map (Expr.stub v)) b
  | .array n es => .array n (es.map (Expr.stub v))
  | .index n a i => .index n (a.stub v) (i.stub v)
  | .field n e f => .field n (e.stub v) f
  | .record n x fs => .record n x (fs.map (FieldInit.stub v))
  | .wrap n w e => .wrap n w (e.stub v)
  | .select n e as => .select n (e.stub v) (as.map (Arm.stub v))
  | .block n _ tail d => .block n [] (tail.map (Expr.stub v)) d
  | e => e

def Stmt.shape : Stmt → Stmt
  | .bind p x d e i => .bind p x d (e.stub v) i
  | .assign p t e => .assign p (t.shape v) (e.stub v)
  | .ret p e => .ret p (e.map (Expr.stub v))
  | .expr p e => .expr p (e.stub v)
  | .cond p _ => .cond p .stop
  | .loop p e b => .loop p (e.stub v) b.stub
  | .each p x e b i => .each p x (e.stub v) b.stub i
  | s => s

theorem Expr.type_shape (e : Expr) : (e.shape v).type = e.type := by
  cases e <;> rfl

structure Rule.OfShapes (R : Rule) : Prop where
  expr : ∀ e, R.expr (e.shape v) ↔ R.expr e
  stmt : ∀ l s, R.stmt l (s.shape v) ↔ R.stmt l s
  guard : ∀ e, R.guard (e.stub v) ↔ R.guard e

variable {v}

theorem Rule.OfShapes.both {R R' : Rule} (h : R.OfShapes v) (h' : R'.OfShapes v) : (R.both R').OfShapes v where
  expr e := and_congr (h.expr e) (h'.expr e)
  stmt l s := and_congr (h.stmt l s) (h'.stmt l s)
  guard e := and_congr (h.guard e) (h'.guard e)

end Covenant
