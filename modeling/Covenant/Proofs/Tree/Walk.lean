import Covenant.Syntax.Basic
import Covenant.Syntax.Build
import Covenant.Syntax.Gather

/-! Conditions on every node of a syntax tree, and induction over trees, done once. A rule looks at one node and at the
annotations of its parts; what follows from it is shown by one step for each kind of node. -/

namespace Covenant

/-- What is asked of expressions, of statements inside or outside of a loop, and of the guards of an
`if`. -/
structure Rule where
  expr : Expr → Prop
  stmt : Bool → Stmt → Prop
  guard : Expr → Prop

def Expr.isName : Expr → Bool
  | .name _ _ _ => true
  | _ => false

section Every

variable {e : Expr} {R : Rule} {l : Bool}

theorem Expr.eq_name_of_isName (h : e.isName = true) : ∃ n x sym, e = .name n x sym := by
  cases e <;> first | exact ⟨_,_,_,rfl⟩ | cases h

mutual

def Expr.Every (R : Rule) (l : Bool) : Expr → Prop
  | .int n v => R.expr (.int n v)
  | .bool n b => R.expr (.bool n b)
  | .text n s => R.expr (.text n s)
  | .name n x sym => R.expr (.name n x sym)
  | .unary n op e => R.expr (.unary n op e) ∧ e.Every R l
  | .binary n op a b => R.expr (.binary n op a b) ∧ a.Every R l ∧ b.Every R l
  | .call n f args => R.expr (.call n f args) ∧ Expr.EveryIn R l args
  | .method n e m args b => R.expr (.method n e m args b) ∧ e.Every R l ∧ Expr.EveryIn R l args
  | .array n es => R.expr (.array n es) ∧ Expr.EveryIn R l es
  | .index n a i => R.expr (.index n a i) ∧ a.Every R l ∧ i.Every R l
  | .field n e f => R.expr (.field n e f) ∧ e.Every R l
  | .record n x fs => R.expr (.record n x fs) ∧ FieldInit.EveryIn R l fs
  | .wrap n w e => R.expr (.wrap n w e) ∧ e.Every R l
  | .noneLit n => R.expr (.noneLit n)
  | .enum n o v t => R.expr (.enum n o v t)
  | .select n e as => R.expr (.select n e as) ∧ e.Every R l ∧ Arm.EveryIn R l as
  | .block n ss none d => R.expr (.block n ss none d) ∧ Stmt.EveryIn R l ss
  | .block n ss (some e) d =>
    R.expr (.block n ss (some e) d) ∧ Stmt.EveryIn R l ss ∧ e.Every R l

def Expr.EveryIn (R : Rule) (l : Bool) : List Expr → Prop
  | [] => True
  | e :: es => e.Every R l ∧ Expr.EveryIn R l es

def FieldInit.EveryIn (R : Rule) (l : Bool) : List FieldInit → Prop
  | [] => True
  | .mk _ _ e :: fs => e.Every R l ∧ FieldInit.EveryIn R l fs

def Arm.EveryIn (R : Rule) (l : Bool) : List Arm → Prop
  | [] => True
  | .mk _ _ e :: as => e.Every R l ∧ Arm.EveryIn R l as

/-- The name that an assignment changes is no expression of its own. -/
def Stmt.Every (R : Rule) (l : Bool) : Stmt → Prop
  | .bind p x d e s => R.stmt l (.bind p x d e s) ∧ e.Every R l
  | .assign p (.name n x sym) e => R.stmt l (.assign p (.name n x sym) e) ∧ e.Every R l
  | .assign p t e => R.stmt l (.assign p t e) ∧ t.Every R l ∧ e.Every R l
  | .ret p none => R.stmt l (.ret p none)
  | .ret p (some e) => R.stmt l (.ret p (some e)) ∧ e.Every R l
  | .expr p e => R.stmt l (.expr p e) ∧ e.Every R l
  | .cond p c => R.stmt l (.cond p c) ∧ c.Every R l
  | .loop p e b => R.stmt l (.loop p e b) ∧ e.Every R l ∧ b.Every R true
  | .each p x e b s => R.stmt l (.each p x e b s) ∧ e.Every R l ∧ b.Every R true
  | .leave p => R.stmt l (.leave p)
  | .next p => R.stmt l (.next p)

def Stmt.EveryIn (R : Rule) (l : Bool) : List Stmt → Prop
  | [] => True
  | s :: ss => s.Every R l ∧ Stmt.EveryIn R l ss

def Block.Every (R : Rule) (l : Bool) : Block → Prop
  | .mk _ ss => Stmt.EveryIn R l ss

def Chain.Every (R : Rule) (l : Bool) : Chain → Prop
  | .stop => True
  | .otherwise b => b.Every R l
  | .branch _ e b rest => R.guard e ∧ e.Every R l ∧ b.Every R l ∧ rest.Every R l

end

theorem Expr.Every.head (h : e.Every R l) : R.expr e := by
  cases e with
  | block n ss tail d => cases tail <;> (rw [Expr.Every] at h; exact h.1)
  | int | bool | text | name | noneLit | enum =>
    rw [Expr.Every] at h
    exact h
  | _ =>
    rw [Expr.Every] at h
    exact h.1

theorem Stmt.Every.head {s : Stmt} (h : s.Every R l) : R.stmt l s := by
  cases s with
  | assign p t e =>
    cases t <;> exact h.1
  | ret p e => cases e with
    | none => exact h
    | some e => exact h.1
  | leave | next => exact h
  | _ => exact h.1

theorem Block.every_iff {b : Block} : b.Every R l ↔ Stmt.EveryIn R l b.statements := by
  cases b with
  | mk pos ss => exact .rfl

theorem Expr.every_of_mem {es : List Expr} (h : Expr.EveryIn R l es) :
    ∀ e ∈ es, e.Every R l := by
  induction es with
  | nil => simp
  | cons e es ih => exact List.forall_mem_cons.mpr ⟨h.1,ih h.2⟩

/-- The target of an assignment that is no name counts like any expression. -/
theorem Stmt.every_assign {p : Pos} {t : Expr} (h : t.isName = false) :
    (Stmt.assign p t e).Every R l ↔ R.stmt l (.assign p t e) ∧ t.Every R l ∧ e.Every R l := by
  rw [Stmt.Every]
  rintro n x sym rfl
  cases h

theorem Stmt.everyIn_append (R : Rule) (l : Bool) (ss ts : List Stmt) :
    Stmt.EveryIn R l (ss ++ ts) ↔ Stmt.EveryIn R l ss ∧ Stmt.EveryIn R l ts := by
  induction ss with
  | nil => simp [Stmt.EveryIn]
  | cons s ss ih => simp [Stmt.EveryIn, ih, and_assoc]

theorem FieldInit.every_of_mem {fs : List FieldInit} (h : FieldInit.EveryIn R l fs) :
    ∀ f ∈ fs, f.value.Every R l := by
  induction fs with
  | nil => simp
  | cons f fs ih =>
    cases f
    exact List.forall_mem_cons.mpr ⟨h.1,ih h.2⟩

theorem Arm.every_of_mem {as : List Arm} (h : Arm.EveryIn R l as) :
    ∀ a ∈ as, a.body.Every R l := by
  induction as with
  | nil => simp
  | cons a as ih =>
    cases a
    exact List.forall_mem_cons.mpr ⟨h.1,ih h.2⟩

end Every

@[elab_as_elim]
theorem parts_walk {α : Type} {p : α → Prop} {motive : List α → Prop} (as : List α) (h : ∀ a ∈ as, p a)
    (nil : motive []) (cons : ∀ a as, p a → motive as → motive (a :: as)) : motive as := by
  induction as with
  | nil => exact nil
  | cons a as ih =>
    obtain ⟨ha,has⟩ := List.forall_mem_cons.mp h
    exact cons a as ha (ih has)

/-- The steps of an induction over expressions, statements, lists of them, blocks and `if` statements. -/
structure Walk (R : Rule) (E : Bool → Expr → Prop) (T : Bool → Stmt → Prop) (L : Bool → List Stmt → Prop)
    (B : Bool → Block → Prop) (C : Bool → Chain → Prop) : Prop where
  int {l n v} (h : (Expr.int n v).Every R l) : E l (.int n v)
  bool {l n b} (h : (Expr.bool n b).Every R l) : E l (.bool n b)
  text {l n s} (h : (Expr.text n s).Every R l) : E l (.text n s)
  name {l n x sym} (h : (Expr.name n x sym).Every R l) : E l (.name n x sym)
  unary {l n op e} (h : (Expr.unary n op e).Every R l) (he : E l e) : E l (.unary n op e)
  binary {l n op a b} (h : (Expr.binary n op a b).Every R l) (ha : E l a) (hb : E l b) : E l (.binary n op a b)
  call {l n f es} (h : (Expr.call n f es).Every R l) (hes : ∀ e ∈ es, E l e) : E l (.call n f es)
  method {l n e m es b} (h : (Expr.method n e m es b).Every R l) (he : E l e) (hes : ∀ e ∈ es, E l e) :
    E l (.method n e m es b)
  array {l n es} (h : (Expr.array n es).Every R l) (hes : ∀ e ∈ es, E l e) : E l (.array n es)
  index {l n a i} (h : (Expr.index n a i).Every R l) (ha : E l a) (hi : E l i) : E l (.index n a i)
  field {l n e f} (h : (Expr.field n e f).Every R l) (he : E l e) : E l (.field n e f)
  record {l n x fs} (h : (Expr.record n x fs).Every R l) (hfs : ∀ f ∈ fs, E l f.value) : E l (.record n x fs)
  wrap {l n w e} (h : (Expr.wrap n w e).Every R l) (he : E l e) : E l (.wrap n w e)
  noneLit {l n} (h : (Expr.noneLit n).Every R l) : E l (.noneLit n)
  enum {l n o v t} (h : (Expr.enum n o v t).Every R l) : E l (.enum n o v t)
  select {l n e as} (h : (Expr.select n e as).Every R l) (he : E l e) (has : ∀ a ∈ as, E l a.body) :
    E l (.select n e as)
  block {l n ss d} (h : (Expr.block n ss none d).Every R l) (hss : L l ss) : E l (.block n ss none d)
  tail {l n ss e d} (h : (Expr.block n ss (some e) d).Every R l) (hss : L l ss) (he : E l e) :
    E l (.block n ss (some e) d)
  bind {l p x d e s} (h : (Stmt.bind p x d e s).Every R l) (he : E l e) : T l (.bind p x d e s)
  assignName {l p n x sym e} (h : (Stmt.assign p (.name n x sym) e).Every R l) (he : E l e) :
    T l (.assign p (.name n x sym) e)
  assignField {l p n t f e} (h : (Stmt.assign p (.field n t f) e).Every R l) (ht : E l t) (he : E l e) :
    T l (.assign p (.field n t f) e)
  assignIndex {l p n t i e} (h : (Stmt.assign p (.index n t i) e).Every R l) (ht : E l t) (hi : E l i) (he : E l e) :
    T l (.assign p (.index n t i) e)
  assignOther {l p t e} (h : (Stmt.assign p t e).Every R l) (hplace : Build.isPlace t = false) (ht : E l t)
    (he : E l e) :
    T l (.assign p t e)
  ret {l p} (h : (Stmt.ret p none).Every R l) : T l (.ret p none)
  retValue {l p e} (h : (Stmt.ret p (some e)).Every R l) (he : E l e) : T l (.ret p (some e))
  expr {l p e} (h : (Stmt.expr p e).Every R l) (he : E l e) : T l (.expr p e)
  cond {l p c} (h : (Stmt.cond p c).Every R l) (hc : C l c) : T l (.cond p c)
  loop {l p e b} (h : (Stmt.loop p e b).Every R l) (he : E l e) (hb : B true b) : T l (.loop p e b)
  each {l p x e b s} (h : (Stmt.each p x e b s).Every R l) (he : E l e) (hb : B true b) : T l (.each p x e b s)
  leave {l p} (h : (Stmt.leave p).Every R l) : T l (.leave p)
  next {l p} (h : (Stmt.next p).Every R l) : T l (.next p)
  nil {l} : L l []
  cons {l s ss} (h : Stmt.EveryIn R l (s :: ss)) (hs : T l s) (hss : L l ss) : L l (s :: ss)
  body {l p ss} (hss : L l ss) : B l (.mk p ss)
  stop {l} : C l .stop
  otherwise {l b} (hb : B l b) : C l (.otherwise b)
  branch {l p e b c} (h : (Chain.branch p e b c).Every R l) (he : E l e) (hb : B l b) (hc : C l c) :
    C l (.branch p e b c)

namespace Walk

variable {R : Rule} {E : Bool → Expr → Prop} {T : Bool → Stmt → Prop} {L : Bool → List Stmt → Prop}
  {B : Bool → Block → Prop} {C : Bool → Chain → Prop}

mutual

theorem onExpr (w : Walk R E T L B C) : ∀ (e : Expr) {l : Bool}, e.Every R l → E l e
  | .int _ _, _, h => w.int h
  | .bool _ _, _, h => w.bool h
  | .text _ _, _, h => w.text h
  | .name _ _ _, _, h => w.name h
  | .unary _ _ e, _, h => w.unary h (w.onExpr e h.2)
  | .binary _ _ a b, _, h => w.binary h (w.onExpr a h.2.1) (w.onExpr b h.2.2)
  | .call _ _ es, _, h => w.call h (w.onExprs es h.2)
  | .method _ e _ es _, _, h => w.method h (w.onExpr e h.2.1) (w.onExprs es h.2.2)
  | .array _ es, _, h => w.array h (w.onExprs es h.2)
  | .index _ a i, _, h => w.index h (w.onExpr a h.2.1) (w.onExpr i h.2.2)
  | .field _ e _, _, h => w.field h (w.onExpr e h.2)
  | .record _ _ fs, _, h => w.record h (w.onFields fs h.2)
  | .wrap _ _ e, _, h => w.wrap h (w.onExpr e h.2)
  | .noneLit _, _, h => w.noneLit h
  | .enum _ _ _ _, _, h => w.enum h
  | .select _ e as, _, h => w.select h (w.onExpr e h.2.1) (w.onArms as h.2.2)
  | .block _ ss none _, _, h => w.block h (w.onStmts ss h.2)
  | .block _ ss (some e) _, _, h => w.tail h (w.onStmts ss h.2.1) (w.onExpr e h.2.2)

theorem onExprs (w : Walk R E T L B C) : ∀ (es : List Expr) {l : Bool}, Expr.EveryIn R l es → ∀ e ∈ es, E l e
  | [], _, _ => nofun
  | e :: es, _, h => List.forall_mem_cons.mpr ⟨w.onExpr e h.1,w.onExprs es h.2⟩

theorem onFields (w : Walk R E T L B C) : ∀ (fs : List FieldInit) {l : Bool}, FieldInit.EveryIn R l fs →
    ∀ f ∈ fs, E l f.value
  | [], _, _ => nofun
  | .mk _ _ e :: fs, _, h => List.forall_mem_cons.mpr ⟨w.onExpr e h.1,w.onFields fs h.2⟩

theorem onArms (w : Walk R E T L B C) : ∀ (as : List Arm) {l : Bool}, Arm.EveryIn R l as → ∀ a ∈ as, E l a.body
  | [], _, _ => nofun
  | .mk _ _ e :: as, _, h => List.forall_mem_cons.mpr ⟨w.onExpr e h.1,w.onArms as h.2⟩

theorem onStmt (w : Walk R E T L B C) : ∀ (s : Stmt) {l : Bool}, s.Every R l → T l s
  | .bind _ _ _ e _, _, h => w.bind h (w.onExpr e h.2)
  | .assign _ t e, _, h => by
    cases t with
    | name => exact w.assignName h (w.onExpr e h.2)
    | field _ t _ => exact w.assignField h (w.onExpr t h.2.1.2) (w.onExpr e h.2.2)
    | index _ t i => exact w.assignIndex h (w.onExpr t h.2.1.2.1) (w.onExpr i h.2.1.2.2) (w.onExpr e h.2.2)
    | _ => exact w.assignOther h rfl (w.onExpr _ h.2.1) (w.onExpr e h.2.2)
  | .ret _ none, _, h => w.ret h
  | .ret _ (some e), _, h => w.retValue h (w.onExpr e h.2)
  | .expr _ e, _, h => w.expr h (w.onExpr e h.2)
  | .cond _ c, _, h => w.cond h (w.onChain c h.2)
  | .loop _ e b, _, h => w.loop h (w.onExpr e h.2.1) (w.onBlock b h.2.2)
  | .each _ _ e b _, _, h => w.each h (w.onExpr e h.2.1) (w.onBlock b h.2.2)
  | .leave _, _, h => w.leave h
  | .next _, _, h => w.next h

theorem onStmts (w : Walk R E T L B C) : ∀ (ss : List Stmt) {l : Bool}, Stmt.EveryIn R l ss → L l ss
  | [], _, _ => w.nil
  | s :: ss, _, h => w.cons h (w.onStmt s h.1) (w.onStmts ss h.2)

theorem onBlock (w : Walk R E T L B C) : ∀ (b : Block) {l : Bool}, b.Every R l → B l b
  | .mk _ ss, _, h => w.body (w.onStmts ss h)

theorem onChain (w : Walk R E T L B C) : ∀ (c : Chain) {l : Bool}, c.Every R l → C l c
  | .stop, _, _ => w.stop
  | .otherwise b, _, h => w.otherwise (w.onBlock b h)
  | .branch _ e b c, _, h => w.branch h (w.onExpr e h.2.1) (w.onBlock b h.2.2.1) (w.onChain c h.2.2.2)

end

end Walk

abbrev AllIn {α : Type} (Q : α → Prop) (as : List α) : Prop := ∀ a ∈ as, Q a

theorem AllIn.nil {α : Type} {Q : α → Prop} : AllIn Q [] := nofun

theorem AllIn.append {α : Type} {Q : α → Prop} {as bs : List α} (h : AllIn Q as) (h' : AllIn Q bs) :
    AllIn Q (as ++ bs) :=
  List.forall_mem_append.mpr ⟨h,h'⟩

/-- What is gathered from a tree comes from nodes that obey its rule. The name of a variable that is assigned to
obeys none. -/
theorem gather_walk {α : Type} {R : Rule} {g : Gather α} {Q : α → Prop}
    (hexpr : ∀ {l} {e : Expr}, e.Every R l → AllIn Q (g.expr e))
    (hstmt : ∀ {l} {s : Stmt}, s.Every R l → AllIn Q (g.stmt s)) (hname : ∀ n x y, AllIn Q (g.expr (.name n x y))) :
    Walk R (fun _ e => AllIn Q (e.gather g)) (fun _ s => AllIn Q (s.gather g)) (fun _ ss => AllIn Q (Stmt.gatherIn g ss))
      (fun _ b => AllIn Q (b.gather g)) (fun _ c => AllIn Q (c.gather g)) where
  int h := (hexpr h).append .nil
  bool h := (hexpr h).append .nil
  text h := (hexpr h).append .nil
  name h := (hexpr h).append .nil
  unary h he := (hexpr h).append he
  binary h ha hb := (hexpr h).append (ha.append hb)
  call {_ _ _ es} h hes := (hexpr h).append (parts_walk es hes .nil fun _ _ he hes => he.append hes)
  method {_ _ _ _ es _} h he hes :=
    (hexpr h).append (he.append (parts_walk es hes .nil fun _ _ he hes => he.append hes))
  array {_ _ es} h hes := (hexpr h).append (parts_walk es hes .nil fun _ _ he hes => he.append hes)
  index h ha hi := (hexpr h).append (ha.append hi)
  field h he := (hexpr h).append he
  record {_ _ _ fs} h hfs := (hexpr h).append (parts_walk fs hfs nofun fun (.mk ..) _ hf hfs => hf.append hfs)
  wrap h he := (hexpr h).append he
  noneLit h := (hexpr h).append .nil
  enum h := (hexpr h).append .nil
  select {_ _ _ as} h he has :=
    (hexpr h).append (he.append (parts_walk as has nofun fun (.mk ..) _ ha has => ha.append has))
  block h hss := (hexpr h).append hss
  tail h hss he := (hexpr h).append (hss.append he)
  bind h he := (hstmt h).append he
  assignName h he := (hstmt h).append (((hname _ _ _).append .nil).append he)
  assignField h ht he := (hstmt h).append (((hexpr ((Stmt.every_assign rfl).mp h).2.1).append ht).append he)
  assignIndex h ht hi he :=
    (hstmt h).append (((hexpr ((Stmt.every_assign rfl).mp h).2.1).append (ht.append hi)).append he)
  assignOther h _ ht he := (hstmt h).append (ht.append he)
  ret h := (hstmt h).append .nil
  retValue h he := (hstmt h).append he
  expr h he := (hstmt h).append he
  cond h hc := (hstmt h).append hc
  loop h he hb := (hstmt h).append (he.append hb)
  each h he hb := (hstmt h).append (he.append hb)
  leave h := (hstmt h).append .nil
  next h := (hstmt h).append .nil
  nil := nofun
  cons _ hs hss := hs.append hss
  body hss := hss
  stop := nofun
  otherwise hb := hb
  branch _ he hb hc := he.append (hb.append hc)

def Rule.any : Rule := ⟨fun _ => True, fun _ _ => True, fun _ => True⟩

mutual

theorem Expr.every_any : ∀ (e : Expr) (l : Bool), e.Every .any l
  | .int _ _, _ | .bool _ _, _ | .text _ _, _ | .name _ _ _, _ | .noneLit _, _ | .enum _ _ _ _, _ => trivial
  | .unary _ _ e, l | .field _ e _, l | .wrap _ _ e, l => ⟨trivial,e.every_any l⟩
  | .binary _ _ a b, l | .index _ a b, l => ⟨trivial,a.every_any l,b.every_any l⟩
  | .call _ _ es, l | .array _ es, l => ⟨trivial,Expr.everyIn_any es l⟩
  | .method _ e _ es _, l => ⟨trivial,e.every_any l,Expr.everyIn_any es l⟩
  | .record _ _ fs, l => ⟨trivial,FieldInit.everyIn_any fs l⟩
  | .select _ e as, l => ⟨trivial,e.every_any l,Arm.everyIn_any as l⟩
  | .block _ ss none _, l => ⟨trivial,Stmt.everyIn_any ss l⟩
  | .block _ ss (some e) _, l => ⟨trivial,Stmt.everyIn_any ss l,e.every_any l⟩

theorem Expr.everyIn_any : ∀ (es : List Expr) (l : Bool), Expr.EveryIn .any l es
  | [], _ => trivial
  | e :: es, l => ⟨e.every_any l,Expr.everyIn_any es l⟩

theorem FieldInit.everyIn_any : ∀ (fs : List FieldInit) (l : Bool), FieldInit.EveryIn .any l fs
  | [], _ => trivial
  | .mk _ _ e :: fs, l => ⟨e.every_any l,FieldInit.everyIn_any fs l⟩

theorem Arm.everyIn_any : ∀ (as : List Arm) (l : Bool), Arm.EveryIn .any l as
  | [], _ => trivial
  | .mk _ _ e :: as, l => ⟨e.every_any l,Arm.everyIn_any as l⟩

theorem Stmt.every_any : ∀ (s : Stmt) (l : Bool), s.Every .any l
  | .bind _ _ _ e _, l | .ret _ (some e), l | .expr _ e, l => ⟨trivial,e.every_any l⟩
  | .assign _ t e, l => by
    cases t with
    | name => exact ⟨trivial,e.every_any l⟩
    | _ => exact ⟨trivial,Expr.every_any _ l,e.every_any l⟩
  | .ret _ none, _ | .leave _, _ | .next _, _ => trivial
  | .cond _ c, l => ⟨trivial,c.every_any l⟩
  | .loop _ e b, l | .each _ _ e b _, l => ⟨trivial,e.every_any l,b.every_any true⟩

theorem Stmt.everyIn_any : ∀ (ss : List Stmt) (l : Bool), Stmt.EveryIn .any l ss
  | [], _ => trivial
  | s :: ss, l => ⟨s.every_any l,Stmt.everyIn_any ss l⟩

theorem Block.every_any : ∀ (b : Block) (l : Bool), b.Every .any l
  | .mk _ ss, l => Stmt.everyIn_any ss l

theorem Chain.every_any : ∀ (c : Chain) (l : Bool), c.Every .any l
  | .stop, _ => trivial
  | .otherwise b, l => b.every_any l
  | .branch _ e b c, l => ⟨trivial,e.every_any l,b.every_any l,c.every_any l⟩

end

end Covenant
