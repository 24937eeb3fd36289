import Covenant.Proofs.Mistakes.Types
import Covenant.Proofs.Typing.Accepts

/-! Two checks side by side: one of a tree in which nothing is found, one of the same tree with a mistake, where a
name that is declared nowhere stands for an expression without a `match`. The second sees the same names, and of
their types what the mistake has left. -/

namespace Covenant

mutual

def Expr.isPlain : Expr → Bool
  | .int _ _ | .bool _ _ | .text _ _ | .name _ _ _ | .noneLit _ | .enum _ _ _ _ => true
  | .unary _ _ e | .field _ e _ | .wrap _ _ e => e.isPlain
  | .binary _ _ a b | .index _ a b => a.isPlain && b.isPlain
  | .call _ _ args | .array _ args => Expr.arePlain args
  | .method _ e _ args _ => e.isPlain && Expr.arePlain args
  | .record _ _ fs => FieldInit.arePlain fs
  | .select _ _ _ | .block _ _ _ _ => false

def Expr.arePlain : List Expr → Bool
  | [] => true
  | e :: es => e.isPlain && Expr.arePlain es

def FieldInit.arePlain : List FieldInit → Bool
  | [] => true
  | .mk _ _ e :: fs => e.isPlain && FieldInit.arePlain fs

end

mutual

/-- The second tree is the first with the name `x` in the place of one expression. The condition of a
`while` is replaced in part only: what stands there decides whether the loop can end. -/
inductive Expr.Mistaken (x : String) : Expr → Expr → Prop
  | here {e : Expr} (pos : Pos) (h : e.isPlain = true) : Expr.Mistaken x e (.name ⟨pos,none⟩ x none)
  | unary {n : Note} {op : UnaryOp} {e e' : Expr} (h : Expr.Mistaken x e e') :
      Expr.Mistaken x (.unary n op e) (.unary n op e')
  | left {n : Note} {op : BinaryOp} {a a' b : Expr} (h : Expr.Mistaken x a a') :
      Expr.Mistaken x (.binary n op a b) (.binary n op a' b)
  | right {n : Note} {op : BinaryOp} {a b b' : Expr} (h : Expr.Mistaken x b b') :
      Expr.Mistaken x (.binary n op a b) (.binary n op a b')
  | call {n : Note} {f : Callee} {es es' : List Expr} (h : Expr.MistakenIn x es es') :
      Expr.Mistaken x (.call n f es) (.call n f es')
  | receiver {n : Note} {e e' : Expr} {m : String} {es : List Expr} {b : Option Builtin}
      (h : Expr.Mistaken x e e') : Expr.Mistaken x (.method n e m es b) (.method n e' m es b)
  | method {n : Note} {e : Expr} {m : String} {es es' : List Expr} {b : Option Builtin}
      (h : Expr.MistakenIn x es es') : Expr.Mistaken x (.method n e m es b) (.method n e m es' b)
  | array {n : Note} {es es' : List Expr} (h : Expr.MistakenIn x es es') :
      Expr.Mistaken x (.array n es) (.array n es')
  | target {n : Note} {a a' i : Expr} (h : Expr.Mistaken x a a') : Expr.Mistaken x (.index n a i) (.index n a' i)
  | index {n : Note} {a i i' : Expr} (h : Expr.Mistaken x i i') : Expr.Mistaken x (.index n a i) (.index n a i')
  | field {n : Note} {e e' : Expr} {f : String} (h : Expr.Mistaken x e e') :
      Expr.Mistaken x (.field n e f) (.field n e' f)
  | record {n : Note} {r : String} {fs fs' : List FieldInit} (h : FieldInit.MistakenIn x fs fs') :
      Expr.Mistaken x (.record n r fs) (.record n r fs')
  | wrap {n : Note} {w : Wrapper} {e e' : Expr} (h : Expr.Mistaken x e e') :
      Expr.Mistaken x (.wrap n w e) (.wrap n w e')
  | scrutinee {n : Note} {e e' : Expr} {as : List Arm} (h : Expr.Mistaken x e e') :
      Expr.Mistaken x (.select n e as) (.select n e' as)
  | arms {n : Note} {e : Expr} {as as' : List Arm} (h : Arm.MistakenIn x as as') :
      Expr.Mistaken x (.select n e as) (.select n e as')
  | block {n : Note} {ss ss' : List Stmt} {tail : Option Expr} {d : Bool} (h : Stmt.MistakenIn x ss ss') :
      Expr.Mistaken x (.block n ss tail d) (.block n ss' tail d)
  | tail {n : Note} {ss : List Stmt} {e e' : Expr} {d : Bool} (h : Expr.Mistaken x e e') :
      Expr.Mistaken x (.block n ss (some e) d) (.block n ss (some e') d)

inductive Expr.MistakenIn (x : String) : List Expr → List Expr → Prop
  | here {e e' : Expr} {es : List Expr} (h : Expr.Mistaken x e e') : Expr.MistakenIn x (e :: es) (e' :: es)
  | later {e : Expr} {es es' : List Expr} (h : Expr.MistakenIn x es es') : Expr.MistakenIn x (e :: es) (e :: es')

inductive FieldInit.MistakenIn (x : String) : List FieldInit → List FieldInit → Prop
  | here {pos : Pos} {f : String} {e e' : Expr} {fs : List FieldInit} (h : Expr.Mistaken x e e') :
      FieldInit.MistakenIn x (.mk pos f e :: fs) (.mk pos f e' :: fs)
  | later {f : FieldInit} {fs fs' : List FieldInit} (h : FieldInit.MistakenIn x fs fs') :
      FieldInit.MistakenIn x (f :: fs) (f :: fs')

inductive Arm.MistakenIn (x : String) : List Arm → List Arm → Prop
  | here {pos : Pos} {p : Pattern} {e e' : Expr} {as : List Arm} (h : Expr.Mistaken x e e') :
      Arm.MistakenIn x (.mk pos p e :: as) (.mk pos p e' :: as)
  | later {a : Arm} {as as' : List Arm} (h : Arm.MistakenIn x as as') : Arm.MistakenIn x (a :: as) (a :: as')

inductive Stmt.Mistaken (x : String) : Stmt → Stmt → Prop
  | bind {pos : Pos} {y : String} {d : Option Ty} {e e' : Expr} {slot : Option Nat} (h : Expr.Mistaken x e e') :
      Stmt.Mistaken x (.bind pos y d e slot) (.bind pos y d e' slot)
  | target {pos : Pos} {t t' e : Expr} (h : Expr.Mistaken x t t') : Stmt.Mistaken x (.assign pos t e) (.assign pos t' e)
  | assign {pos : Pos} {t e e' : Expr} (h : Expr.Mistaken x e e') : Stmt.Mistaken x (.assign pos t e) (.assign pos t e')
  | ret {pos : Pos} {e e' : Expr} (h : Expr.Mistaken x e e') : Stmt.Mistaken x (.ret pos (some e)) (.ret pos (some e'))
  | expr {pos : Pos} {e e' : Expr} (h : Expr.Mistaken x e e') : Stmt.Mistaken x (.expr pos e) (.expr pos e')
  | cond {pos : Pos} {c c' : Chain} (h : Chain.Mistaken x c c') : Stmt.Mistaken x (.cond pos c) (.cond pos c')
  | condition {pos : Pos} {e e' : Expr} {b : Block} (h : Expr.Mistaken x e e') (hpart : e'.isName = false) :
      Stmt.Mistaken x (.loop pos e b) (.loop pos e' b)
  | loop {pos : Pos} {e : Expr} {b b' : Block} (h : Block.Mistaken x b b') :
      Stmt.Mistaken x (.loop pos e b) (.loop pos e b')
  | iterable {pos : Pos} {y : String} {e e' : Expr} {b : Block} {slot : Option Nat} (h : Expr.Mistaken x e e') :
      Stmt.Mistaken x (.each pos y e b slot) (.each pos y e' b slot)
  | each {pos : Pos} {y : String} {e : Expr} {b b' : Block} {slot : Option Nat} (h : Block.Mistaken x b b') :
      Stmt.Mistaken x (.each pos y e b slot) (.each pos y e b' slot)

inductive Stmt.MistakenIn (x : String) : List Stmt → List Stmt → Prop
  | here {s s' : Stmt} {ss : List Stmt} (h : Stmt.Mistaken x s s') : Stmt.MistakenIn x (s :: ss) (s' :: ss)
  | later {s : Stmt} {ss ss' : List Stmt} (h : Stmt.MistakenIn x ss ss') : Stmt.MistakenIn x (s :: ss) (s :: ss')

inductive Block.Mistaken (x : String) : Block → Block → Prop
  | mk {pos : Pos} {ss ss' : List Stmt} (h : Stmt.MistakenIn x ss ss') : Block.Mistaken x (.mk pos ss) (.mk pos ss')

inductive Chain.Mistaken (x : String) : Chain → Chain → Prop
  | otherwise {b b' : Block} (h : Block.Mistaken x b b') : Chain.Mistaken x (.otherwise b) (.otherwise b')
  | condition {pos : Pos} {e e' : Expr} {b : Block} {c : Chain} (h : Expr.Mistaken x e e') :
      Chain.Mistaken x (.branch pos e b c) (.branch pos e' b c)
  | body {pos : Pos} {e : Expr} {b b' : Block} {c : Chain} (h : Block.Mistaken x b b') :
      Chain.Mistaken x (.branch pos e b c) (.branch pos e b' c)
  | rest {pos : Pos} {e : Expr} {b : Block} {c c' : Chain} (h : Chain.Mistaken x c c') :
      Chain.Mistaken x (.branch pos e b c) (.branch pos e b c')

end

/-- One item has the mistake, in the body of a function or in the initializer of a constant. -/
inductive Item.MistakenIn (x : String) : List Item → List Item → Prop
  | function {f : FunctionDecl} {b : Block} {is : List Item} (h : f.body.Mistaken x b) :
      Item.MistakenIn x (.function f :: is) (.function { f with body := b } :: is)
  | constant {c : ConstDecl} {e : Expr} {is : List Item} (h : c.value.Mistaken x e) :
      Item.MistakenIn x (.constant c :: is) (.constant { c with value := e } :: is)
  | later {i : Item} {is is' : List Item} (h : Item.MistakenIn x is is') : Item.MistakenIn x (i :: is) (i :: is')

def avoids (x : String) : Rule where
  expr e := match e with
    | .select _ _ as => ∀ a ∈ as, ∀ b, a.pattern.form.binder? = some b → b.name ≠ x
    | _ => True
  stmt _ s := match s with
    | .bind _ y _ _ _ | .each _ y _ _ _ => y ≠ x
    | _ => True
  guard _ := True

structure Program.Avoids (p : Program) (x : String) : Prop where
  constants : ∀ c ∈ p.constants, c.name ≠ x ∧ c.value.Every (avoids x) false
  params : ∀ f ∈ p.functions, ∀ y ∈ f.params, y.name ≠ x
  functions : ∀ f ∈ p.functions, f.body.Every (avoids x) false

/-- In a checked tree, nothing is looked for in an array whose elements are lost. -/
def searchesKnown : Rule where
  expr e := match e with
    | .call _ (.builtin b) args => ¬ b.Searches (args.filterMap (·.type))
    | .method _ r _ args (some b) => ¬ b.Searches ((r :: args).filterMap (·.type))
    | _ => True
  stmt _ _ := True
  guard _ := True

def Problem.isMistake (x : String) : Problem → Bool
  | .undefinedName y | .undeclaredTarget y => y = x
  | _ => false

/-- What follows from a type or a value that is lost: an item is looked for among elements of no type, or a
constant is computed from one without a value. -/
def Problem.isLoss : Problem → Bool
  | .builtinScalar t => t = .error
  | .notConstant _ => true
  | _ => false

structure Symbol.Blurs (a b : Symbol) : Prop where
  name : b.name = a.name
  type : a.type.Blurs b.type
  isMutable : b.isMutable = a.isMutable
  kind : b.kind = a.kind

structure Frame.Blurs (f g : Frame) : Prop where
  nested : g.nested = f.nested
  symbols : List.Forall₂ Symbol.Blurs f.symbols g.symbols

structure Scope.Blurs (x : String) (c d : Scope) : Prop where
  globals : List.Forall₂ Symbol.Blurs c.globals d.globals
  frames : List.Forall₂ Frame.Blurs c.frames d.frames
  noGlobal : ∀ y ∈ c.globals, y.name ≠ x
  noLocal : ∀ f ∈ c.frames, ∀ y ∈ f.symbols, y.name ≠ x

theorem Symbol.find?_rel {R : Symbol → Symbol → Prop} (hR : ∀ a b, R a b → b.name = a.name)
    {l l' : List Symbol} (h : List.Forall₂ R l l') (y : String) :
    Option.Rel R (l.find? (·.name = y)) (l'.find? (·.name = y)) := by
  induction h with
  | nil => exact .none
  | @cons a b _ _ hab _ ih =>
    by_cases hy : a.name = y
    · simpa [hR a b hab, hy] using Option.Rel.some hab
    · simpa [hR a b hab, hy] using ih

namespace Scope.Blurs

variable {x : String} {c d : Scope}

theorem findIn? {fs gs : List Frame} (h : List.Forall₂ Frame.Blurs fs gs) (y : String) :
    Option.Rel Symbol.Blurs (Scope.findIn? fs y) (Scope.findIn? gs y) := by
  induction h with
  | nil => exact .none
  | @cons f g _ _ hfg _ ih =>
    have hfound := Symbol.find?_rel (fun _ _ h => h.name) hfg.symbols y
    simp only [Scope.findIn?, List.findSome?_cons, Frame.find?] at ih ⊢
    revert hfound
    cases f.symbols.find? (·.name = y) <;> cases g.symbols.find? (·.name = y) <;> intro hfound
    · exact ih
    · cases hfound
    · cases hfound
    · exact hfound

theorem get? (h : c.Blurs x d) (y : String) : Option.Rel Symbol.Blurs (c.get? y) (d.get? y) := by
  have hlocal := findIn? h.frames y
  have hglobal := Symbol.find?_rel (fun _ _ h => h.name) h.globals y
  simp only [Scope.get?, Option.orElse_eq_orElse, Option.orElse_eq_or, Scope.findGlobal?]
  revert hlocal
  cases Scope.findIn? c.frames y <;> cases Scope.findIn? d.frames y <;> intro hlocal
  · exact hglobal
  · cases hlocal
  · cases hlocal
  · exact hlocal

theorem get?_absent (h : c.Blurs x d) : d.get? x = none := by
  have hnone : c.get? x = none := by
    have hframes : Scope.findIn? c.frames x = none := by
      rw [Scope.findIn?,List.findSome?_eq_none_iff]
      intro f hf
      simpa [Frame.find?] using h.noLocal f hf
    have hglobals : c.findGlobal? x = none := by simpa [Scope.findGlobal?] using h.noGlobal
    simp [Scope.get?, hframes, hglobals]
  have hrel := h.get? x
  rw [hnone] at hrel
  cases hd : d.get? x with
  | none => rfl
  | some y =>
    rw [hd] at hrel
    cases hrel

theorem push (h : c.Blurs x d) (nested : Bool) : (c.push nested).Blurs x (d.push nested) where
  globals := h.globals
  frames := .cons ⟨rfl,.nil⟩ h.frames
  noGlobal := h.noGlobal
  noLocal := by
    intro f hf y hy
    rcases List.mem_cons.mp hf with rfl | hf
    · cases hy
    · exact h.noLocal f hf y hy

theorem pop (h : c.Blurs x d) : c.pop.Blurs x d.pop where
  globals := h.globals
  frames := by
    have hframes := h.frames
    simp only [Scope.pop]
    generalize c.frames = fs, d.frames = gs at hframes
    cases hframes with
    | nil => exact .nil
    | cons _ hrest => exact hrest
  noGlobal := h.noGlobal
  noLocal := fun f hf => h.noLocal f (List.mem_of_mem_tail hf)

theorem beginFunction (h : c.Blurs x d) : c.beginFunction.Blurs x d.beginFunction where
  globals := h.globals
  frames := .nil
  noGlobal := h.noGlobal
  noLocal := by simp [Scope.beginFunction]

theorem declare (h : c.Blurs x d) {y : String} (hy : y ≠ x) {t t' : Ty} (ht : t.Blurs t')
    (k : SymbolKind) (b : Bool) : (c.declare y t k b).2.Blurs x (d.declare y t' k b).2 where
  globals := h.globals
  frames := by
    have hframes := h.frames
    simp only [Scope.declare, Scope.allocate]
    generalize c.frames = fs, d.frames = gs at hframes
    cases hframes with
    | nil => exact .nil
    | cons hfg hrest => exact .cons ⟨hfg.nested,.cons ⟨rfl,ht,rfl,rfl⟩ hfg.symbols⟩ hrest
  noGlobal := h.noGlobal
  noLocal := by
    intro f hf z hz
    simp only [Scope.declare, Scope.allocate] at hf
    cases hfs : c.frames with
    | nil => simp [hfs] at hf
    | cons g gs =>
      rw [hfs] at hf
      rcases List.mem_cons.mp hf with rfl | hf
      · rcases List.mem_cons.mp hz with rfl | hz
        · exact hy
        · exact h.noLocal g (by simp [hfs]) z hz
      · exact h.noLocal f (by simp [hfs, hf]) z hz

theorem isSome_innermost (h : c.Blurs x d) (y : String) :
    (d.frames.head?.bind (·.find? y)).isSome = (c.frames.head?.bind (·.find? y)).isSome := by
  have hframes := h.frames
  generalize c.frames = fs, d.frames = gs at hframes
  cases hframes with
  | nil => rfl
  | @cons f g _ _ hfg _ =>
    have hfound := Symbol.find?_rel (fun _ _ h => h.name) hfg.symbols y
    simp only [List.head?_cons, Option.bind_some, Frame.find?]
    generalize f.symbols.find? _ = a, g.symbols.find? _ = b at hfound
    cases hfound <;> rfl

theorem hides (h : c.Blurs x d) (y : String) :
    (d.inNestedBody && ((d.getOuter? y).isSome || (d.findGlobal? y).isSome)) =
      (c.inNestedBody && ((c.getOuter? y).isSome || (c.findGlobal? y).isSome)) := by
  have hsome {a b : Option Symbol} (hr : Option.Rel Symbol.Blurs a b) : b.isSome = a.isSome := by
    cases hr <;> rfl
  have hnested : d.inNestedBody = c.inNestedBody := by
    have hframes := h.frames
    simp only [Scope.inNestedBody]
    generalize c.frames = fs, d.frames = gs at hframes
    cases hframes with
    | nil => rfl
    | cons hfg _ => exact hfg.nested
  have houter : (d.getOuter? y).isSome = (c.getOuter? y).isSome := hsome (findIn? h.pop.frames y)
  have hglobal : (d.findGlobal? y).isSome = (c.findGlobal? y).isSome :=
    hsome (Symbol.find?_rel (fun _ _ h => h.name) h.globals y)
  rw [hnested,houter,hglobal]

end Scope.Blurs

namespace Check

structure State.Blurs (x : String) (s t : State) : Prop where
  scope : s.scope.Blurs x t.scope
  loops : t.loops = s.loops
  warnings : t.warnings = s.warnings
  stray : t.strayReturn = s.strayReturn

/-- Of what is found, `k` problems are uses of the name `x`, all others follow from what is lost, and there
are none of these just if `P` holds. -/
structure Told (x : String) (k : Nat) (P : Prop) (found : List Diagnostic) : Prop where
  mistakes : found.countP (·.problem.isMistake x) = k
  others : ∀ d ∈ found, d.problem.isMistake x = true ∨ d.problem.isLoss = true
  intact : P ↔ ∀ d ∈ found, d.problem.isMistake x = true

namespace Told

variable {x : String} {k l : Nat} {P Q : Prop} {es fs : List Diagnostic}

theorem nothing (h : P) : Told x 0 P [] := ⟨rfl,by simp,by simp [h]⟩

theorem append (h : Told x k P es) (h' : Told x l Q fs) : Told x (k + l) (P ∧ Q) (es ++ fs) where
  mistakes := by rw [List.countP_append,h.mistakes,h'.mistakes]
  others := List.forall_mem_append.mpr ⟨h.others,h'.others⟩
  intact := (and_congr h.intact h'.intact).trans List.forall_mem_append.symm

theorem of_iff (h : Told x k P es) (hPQ : P ↔ Q) : Told x k Q es :=
  ⟨h.mistakes,h.others,hPQ.symm.trans h.intact⟩

end Told

variable {α β : Type} {x : String}

/-- A check beside one that ends in the state `u`. With what was `found` before, it finds what is stated, and
of the state `u` it leaves what the mistake leaves. -/
def Beside (x : String) (u s' : State) (found : List Diagnostic) (m : Checking α)
    (R : α → List Diagnostic → Prop) : Prop :=
  ∃ more, (m.run s').2.errors = s'.errors ++ more ∧ R (m.run s').1 (found ++ more) ∧ u.Blurs x (m.run s').2

/-- The same, where nothing is found. -/
abbrev Beside.Quiet (x : String) (u s' : State) (m : Checking α) (Q : α → Prop) : Prop :=
  Beside x u s' [] m fun a found => found = [] ∧ Q a

namespace Beside

variable {s s' t u : State} {found : List Diagnostic} {m : Checking α} {f : α → Checking β}
  {R : α → List Diagnostic → Prop} {T : β → List Diagnostic → Prop}

protected theorem pure {a : α} (hu : u.Blurs x s') (h : R a found) : Beside x u s' found (pure a) R :=
  ⟨[],(List.append_nil _).symm,(List.append_nil found).symm ▸ h,hu⟩

protected theorem bind (hm : Beside x t s' [] m R)
    (hf : ∀ a t' more, R a more → t.Blurs x t' → Beside x u t' (found ++ more) (f a) T) :
    Beside x u s' found (m >>= f) T := by
  obtain ⟨more,hmore,hR,ht⟩ := hm
  obtain ⟨last,hlast,hT,hu⟩ := hf _ _ more hR ht
  refine ⟨more ++ last,?_,List.append_assoc found more last ▸ hT,hu⟩
  rw [← List.append_assoc,← hmore]
  exact hlast

theorem quiet {Q : α → Prop} (hm : Beside.Quiet x t s' m Q)
    (hf : ∀ a t', Q a → t.Blurs x t' → Beside x u t' found (f a) T) : Beside x u s' found (m >>= f) T :=
  .bind hm fun a t' _ ⟨hnone,hQ⟩ ht => by
    rw [hnone,List.append_nil]
    exact hf a t' hQ ht

theorem step {a : α} (hm : m = pure a) (hf : Beside x u s' found (f a) T) : Beside x u s' found (m >>= f) T := by
  rwa [hm,pure_bind]

/-- What the check gives in any state is known as well. -/
theorem also {P : α → Prop} (hm : Beside x u s' found m R) (h : ∀ t', P (m.run t').1) :
    Beside x u s' found m fun a found => R a found ∧ P a := by
  obtain ⟨more,hmore,hR,hu⟩ := hm
  exact ⟨more,hmore,⟨hR,h s'⟩,hu⟩

end Beside

section Steps

variable {s s' t u : State} {m : Checking α}

theorem reportIf_none {bad : Bool} (h : bad = false) (p : Problem) (pos : Pos) : reportIf bad p pos = pure () := by
  rw [h]
  rfl

theorem typeOr_some {r : Option Ty} {t : Ty} (h : r = some t) (p : Problem) (pos : Pos) : typeOr r p pos = pure t := by
  rw [h]
  rfl

theorem misfit {s t s' t' : Ty} (hs : s.Blurs s') (ht : t.Blurs t') (h : s.compatible t = true) :
    (!s'.compatible t') = false := by
  rw [hs.compatible ht h]
  rfl

theorem builtinResult_beside {b : Builtin} {ts ts' : List Ty} {r : Ty} (pos : Pos) (hs : s.Blurs x s')
    (hr : b.result ts = .ok r) (hts : List.Forall₂ Ty.Blurs ts ts') :
    Beside x s s' [] (builtinResult b ts' pos) fun r' found => Told x 0 (¬ b.Searches ts') found ∧ r.Blurs r' := by
  rcases Builtin.result_blurs hts hr with ⟨t',hr',ht,hno⟩ | ⟨hr',hsearch⟩
  · have hrun : builtinResult b ts' pos = pure t' := by simp only [builtinResult, hr']
    rw [hrun]
    exact .pure hs ⟨.nothing hno,ht⟩
  · have hrun : builtinResult b ts' pos = report (.builtinScalar .error) pos := by
      simp only [builtinResult, hr']
    rw [hrun]
    refine ⟨[⟨.builtinScalar .error,pos⟩],rfl,⟨⟨rfl,by simp [Problem.isLoss],?_⟩,.lost _⟩,
      hs.scope,hs.loops,hs.warnings,hs.stray⟩
    simp [hsearch, Problem.isMistake]

variable {pos : Pos} {R : α → List Diagnostic → Prop} {y : String}

theorem warnIf_beside {b : Bool} {c : Caution} {f : Unit → Checking α} {found : List Diagnostic}
    (hw : Remarks (if b then warn c pos else pure ()) s t) (hs : s.Blurs x s')
    (h : ∀ t', t.Blurs x t' → Beside x u t' found (f ()) R) :
    Beside x u s' found (if b then warn c pos >>= f else f ()) R := by
  cases b with
  | false =>
    obtain rfl : s = t := congrArg Prod.snd hw.run
    exact h s' hs
  | true =>
    obtain rfl : { s with warnings := s.warnings ++ [⟨c,pos⟩] } = t := congrArg Prod.snd hw.run
    exact h { s' with warnings := s'.warnings ++ [⟨c,pos⟩] }
      ⟨hs.scope,hs.loops,congrArg (· ++ [⟨c,pos⟩]) hs.warnings,hs.stray⟩

def reportHidden (env : Env) (w : Keyword) (y : String) (pos : Pos) (hidden : Bool) : Checking Unit := do
  if hidden then
    match env.policy with
    | .allow => return
    | .warn => warn (.hides w y) pos
    | .error => let _ ← report (.hides w y) pos

theorem reportHidden_beside {env : Env} {w : Keyword} {hidden : Bool}
    (h : ((reportHidden env w y pos hidden).run s).2.errors = s.errors) (hs : s.Blurs x s') :
    Beside.Quiet x ((reportHidden env w y pos hidden).run s).2 s' (reportHidden env w y pos hidden) fun _ => True := by
  cases hidden with
  | false => exact .pure hs ⟨rfl,trivial⟩
  | true =>
    unfold reportHidden at h ⊢
    generalize env.policy = policy at h ⊢
    cases policy with
    | allow => exact .pure hs ⟨rfl,trivial⟩
    | warn =>
      exact ⟨[],(List.append_nil _).symm,⟨rfl,trivial⟩,hs.scope,hs.loops,
        congrArg (· ++ [(⟨.hides w y,pos⟩ : Warning)]) hs.warnings,hs.stray⟩
    | error => exact absurd (List.append_right_eq_self.mp h) (List.cons_ne_nil _ _)

theorem reportHiding_beside {env : Env} {w : Keyword}
    (h : Remarks (reportHiding env w y pos) s t) (hs : s.Blurs x s') :
    Beside.Quiet x t s' (reportHiding env w y pos) fun _ => True := by
  have hrun (t : State) : (reportHiding env w y pos).run t = (reportHidden env w y pos
      (t.scope.inNestedBody && ((t.scope.getOuter? y).isSome || (t.scope.findGlobal? y).isSome))).run t := rfl
  obtain rfl : _ = t := congrArg Prod.snd h.run
  have herrors := h.errors
  rw [hrun] at herrors ⊢
  rw [Beside.Quiet,Beside,hrun,hs.scope.hides y]
  exact reportHidden_beside herrors hs

theorem declare_beside (hy : y ≠ x) {t t' : Ty} (k : SymbolKind) (b : Bool) (hs : s.Blurs x s')
    (ht : t.Blurs t') :
    Beside.Quiet x { s with scope := (s.scope.declare y t k b).2 } s' (declare y t' k b) fun _ => True :=
  ⟨[],(List.append_nil _).symm,⟨rfl,trivial⟩,hs.scope.declare hy ht k b,hs.loops,hs.warnings,hs.stray⟩

theorem inFrame_beside {nested : Bool} (hs : s.Blurs x s')
    (h : ∀ t', State.Blurs x { s with scope := s.scope.push nested } t' → Beside x u t' [] m R) :
    Beside x { u with scope := u.scope.pop } s' [] (inFrame nested m) R := by
  obtain ⟨found,hfound,hR,hu⟩ := h { s' with scope := s'.scope.push nested }
    ⟨hs.scope.push nested,hs.loops,hs.warnings,hs.stray⟩
  exact ⟨found,hfound,hR,hu.scope.pop,hu.loops,hu.warnings,hu.stray⟩

theorem inLoop_beside (hs : s.Blurs x s')
    (h : ∀ t', State.Blurs x { s with loops := false :: s.loops } t' → Beside x u t' [] m R) :
    Beside x { u with loops := u.loops.tail } s' [] (inLoop m) fun r found =>
      R r.1 found ∧ r.2 = u.loops.headD false := by
  obtain ⟨found,hfound,hR,hu⟩ := h { s' with loops := false :: s'.loops }
    ⟨hs.scope,congrArg (false :: ·) hs.loops,hs.warnings,hs.stray⟩
  exact ⟨found,hfound,⟨hR,congrArg (·.headD false) hu.loops⟩,hu.scope,congrArg List.tail hu.loops,hu.warnings,
    hu.stray⟩

end Steps

end Check

end Covenant
