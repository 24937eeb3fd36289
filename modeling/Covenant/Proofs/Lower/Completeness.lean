import Covenant.Proofs.Lower.Expression
import Covenant.Proofs.Lower.Shape
import Covenant.Proofs.Tree.Walk
import Covenant.Proofs.Typing.Constants

/-! What checking tells of a tree is all that lowering needs. Only a text may be too long, or an item that is looked
for in an array of no known type, such as an empty one, may be of a type without equality: how items are compared then
depends on the item alone. The first of these is what lowering fails at. -/

namespace Covenant

open Lower (Fault)

/-- What lowering may fail at: a text, or an item that is looked for. -/
inductive Hazard where
  | text (s : String)
  | item (t : Ty)
  deriving DecidableEq, Repr

/-- A text has to have a length, an item equality. -/
def Hazard.fault? : Hazard → Option Fault
  | text s => if s.utf8ByteSize < Memory.lengthLimit then none else some .textTooLong
  | item t => if t.isScalar then none else some (.noEquality t)

theorem Hazard.fault?_eq_some {h : Hazard} {f : Fault} (hf : h.fault? = some f) :
    f = .textTooLong ∨ ∃ t, f = .noEquality t := by
  cases h <;> obtain ⟨-,heq⟩ := Option.ite_none_left_eq_some.mp hf <;> cases heq
  · exact .inl rfl
  · exact .inr ⟨_,rfl⟩

/-- The item that an operation looks for, if the elements of the array have no type yet. -/
def Builtin.hazards (op : Builtin) (types : List (Option Ty)) : List Hazard :=
  match op, types with
  | .arrayContains, some (.array .hole) :: some t :: _ => [.item t]
  | _, _ => []

def Callee.hazards (types : List (Option Ty)) : Callee → List Hazard
  | .builtin op => op.hazards types
  | _ => []

def Value.hazards : Value → List Hazard
  | .text s => [.text s]
  | _ => []

/-- A constant is written out. -/
def Symbol.hazards (y : Symbol) : List Hazard :=
  if y.kind = .constant then y.value.elim [] Value.hazards else []

def PatternForm.hazards : PatternForm → List Hazard
  | .text s => [.text s]
  | _ => []

theorem PatternForm.hazards_of_isCatchAll {p : PatternForm} (h : p.isCatchAll = true) : p.hazards = [] := by
  cases p <;> first | rfl | cases h

mutual

/-- What lowering an expression may fail at, in the order of the code. Arms behind a pattern that matches everything
count for nothing. -/
def Expr.hazards : Expr → List Hazard
  | .int _ _ | .bool _ _ | .name _ _ none | .noneLit _ | .enum _ _ _ _ => []
  | .text _ s => [.text s]
  | .name _ _ (some y) => y.hazards
  | .unary _ _ e | .field _ e _ | .wrap _ _ e => e.hazards
  | .binary _ _ a b | .index _ a b => a.hazards ++ b.hazards
  | .call _ f args => Expr.hazardsIn args ++ f.hazards (args.map (·.type))
  | .method _ e _ args none => e.hazards ++ Expr.hazardsIn args
  | .method _ e _ args (some op) =>
    (e.hazards ++ Expr.hazardsIn args) ++ op.hazards (e.type :: args.map (·.type))
  | .array _ es => Expr.hazardsIn es
  | .record _ _ fs => FieldInit.hazardsIn fs
  | .select _ e as => e.hazards ++ Arm.hazardsIn as
  | .block _ ss none _ => Stmt.hazardsIn ss
  | .block _ ss (some e) _ => Stmt.hazardsIn ss ++ e.hazards

def Expr.hazardsIn : List Expr → List Hazard
  | [] => []
  | e :: es => e.hazards ++ Expr.hazardsIn es

def FieldInit.hazardsIn : List FieldInit → List Hazard
  | [] => []
  | .mk _ _ e :: fs => e.hazards ++ FieldInit.hazardsIn fs

def Arm.hazardsIn : List Arm → List Hazard
  | [] => []
  | .mk _ p e :: as => p.form.hazards ++ (e.hazards ++ if p.form.isCatchAll then [] else Arm.hazardsIn as)

def Stmt.hazards : Stmt → List Hazard
  | .bind _ _ _ e _ | .ret _ (some e) | .expr _ e => e.hazards
  | .assign _ t e => t.hazards ++ e.hazards
  | .cond _ c => c.hazards
  | .loop _ e b | .each _ _ e b _ => e.hazards ++ b.hazards
  | .ret _ none | .leave _ | .next _ => []

def Stmt.hazardsIn : List Stmt → List Hazard
  | [] => []
  | s :: ss => s.hazards ++ Stmt.hazardsIn ss

def Block.hazards : Block → List Hazard
  | .mk _ ss => Stmt.hazardsIn ss

def Chain.hazards : Chain → List Hazard
  | .stop => []
  | .otherwise b => b.hazards
  | .branch _ e b rest => e.hazards ++ (b.hazards ++ rest.hazards)

end

def Program.hazards (p : Program) : List Hazard := p.functions.flatMap fun d => d.body.hazards

/-- The fault of the first hazard that has one. -/
def Program.fault? (p : Program) : Option Fault := p.hazards.findSome? Hazard.fault?

namespace Lower

open Wasm Typing

variable {r t u : Ty} {S : Site} {b i : Expr} {ts : List Ty} {c : Context} {as : List Arm}

/-- A failure at the first hazard with a fault, or a result in `Q` if none has one. -/
def Outcome {α : Type} (hs : List Hazard) (r : Except Fault α) (Q : α → Prop) : Prop :=
  match hs.findSome? Hazard.fault? with
  | none => ∃ a, r = .ok a ∧ Q a
  | some f => r = .error f

namespace Outcome

variable {α β : Type} {hs gs : List Hazard} {r : Except Fault α} {Q : α → Prop} {R : β → Prop}

theorem ok {a : α} (h : Q a) : Outcome [] (.ok a) Q := ⟨a,rfl,h⟩

theorem bind {f : α → Except Fault β} (hr : Outcome hs r Q) (hf : ∀ a, Q a → Outcome gs (f a) R) :
    Outcome (hs ++ gs) (r >>= f) R := by
  rw [Outcome,List.findSome?_append]
  rw [Outcome] at hr
  cases hfault : hs.findSome? Hazard.fault? with
  | some f =>
    rw [hfault] at hr
    rw [hr]
    rfl
  | none =>
    rw [hfault] at hr
    obtain ⟨a,ha,hQ⟩ := hr
    rw [ha]
    exact hf a hQ

theorem weaken {Q' : α → Prop} (hr : Outcome hs r Q) (h : ∀ a, r = .ok a → Q a → Q' a) : Outcome hs r Q' := by
  rw [Outcome] at *
  cases hfault : hs.findSome? Hazard.fault? with
  | some f =>
    rw [hfault] at hr
    exact hr
  | none =>
    rw [hfault] at hr
    obtain ⟨a,ha,hQ⟩ := hr
    exact ⟨a,ha,h a ha hQ⟩

theorem map {f : α → β} (hr : Outcome hs r Q) (h : ∀ a, Q a → R (f a)) :
    Outcome hs (do return f (← r)) R := by
  have hall : Outcome (hs ++ []) (do return f (← r)) R := hr.bind fun a ha => ok (h a ha)
  rwa [List.append_nil] at hall

end Outcome

/-- Lowering comes to an end with a result in `Q` unless a hazard has a fault, and fails at the first that has one
otherwise. -/
def Completes {α : Type} (hs : List Hazard) (m : M α) (Q : α → Prop) : Prop :=
  ∀ s, Outcome hs (m s) fun r => Q r.1

namespace Completes

variable {α β : Type} {hs gs : List Hazard} {m : M α} {Q : α → Prop} {R : β → Prop}

theorem pure {a : α} (h : Q a) : Completes [] (Pure.pure a) Q := fun s => .ok (a := (a, s)) h

theorem bind {f : α → M β} (hm : Completes hs m Q) (hf : ∀ a, Q a → Completes gs (f a) R) :
    Completes (hs ++ gs) (m >>= f) R :=
  fun s => (hm s).bind fun r hr => hf r.1 hr r.2

theorem map {f : α → β} (hm : Completes hs m Q) (h : ∀ a, Q a → R (f a)) :
    Completes hs (do return f (← m)) R := by
  have hall : Completes (hs ++ []) (do return f (← m)) R := hm.bind fun a ha => pure (h a ha)
  rwa [List.append_nil] at hall

theorem ran (hm : Completes hs m Q) : Completes hs m fun a => Q a ∧ ∃ s s', m s = .ok (a, s') :=
  fun s => (hm s).weaken fun r hr hQ => ⟨hQ,s,r.2,hr⟩

theorem orGap {g : Gap} {o : Option α} {a : α} (h : o = some a) :
    Completes [] (orGap g o) fun b => b = a := by
  subst h
  exact pure rfl

theorem temp (c : Context) (t : ValType) : Completes [] (temp c t) fun _ => True :=
  fun _ => ⟨_,rfl,trivial⟩

theorem intern (text : String) : Completes [.text text] (intern text) fun _ => True := by
  intro s
  rw [Outcome,List.findSome?_cons,List.findSome?_nil,Hazard.fault?,intern_eq]
  by_cases h : text.utf8ByteSize < Memory.lengthLimit
  · rw [if_pos h,if_pos h]
    exact ⟨_,rfl,trivial⟩
  · rw [if_neg h,if_neg h]

end Completes

/-- What lowering knows of the declarations is what checking knows of them. -/
structure Served (c : Context) (S : Site) : Prop where
  slots : c.slots = S.slots
  records : ∀ x, c.record? x = S.env.record? x
  enums : ∀ x, c.enum? x = S.env.enum? x
  targets : ∀ f sig, S.env.function? f = some sig → ∃ t, c.target? f = some t
  sized : c.Sized → S.env.Sized

theorem Served.inside (h : Served c S) (n : Nat) : Served (c.inside n) S :=
  ⟨h.slots,h.records,h.enums,h.targets,h.sized⟩

theorem Served.insideLoop (h : Served c S) : Served c.insideLoop S :=
  ⟨h.slots,h.records,h.enums,h.targets,h.sized⟩

/-- A place that code can be lowered at, with a loop around it if jumps are allowed. -/
structure Ready (S : Site) (jumps : Bool) (c : Context) : Prop where
  served : Served c S
  nested : c.Nested jumps

theorem Ready.inside {jumps : Bool} (h : Ready S jumps c) (n : Nat) : Ready S jumps (c.inside n) :=
  ⟨h.served.inside n,h.nested.inside n⟩

theorem Ready.insideLoop {jumps : Bool} (h : Ready S jumps c) : Ready S true c.insideLoop :=
  ⟨h.served.insideLoop,.insideLoop c⟩

def Provides (c : Context) (hs : List HostFunction) : Prop := ∀ h ∈ hs, ∃ i, c.importIndex? h = some i

section Provides

variable {c : Context} {hs gs : List HostFunction}

theorem Provides.left (h : Provides c (hs ++ gs)) : Provides c hs :=
  fun f hf => h f (List.mem_append_left gs hf)

theorem Provides.right (h : Provides c (hs ++ gs)) : Provides c gs :=
  fun f hf => h f (List.mem_append_right hs hf)

theorem Provides.expr {es : List Expr} (h : Provides c (Expr.gatherIn hosts es)) {e : Expr} (he : e ∈ es) :
    Provides c (e.gather hosts) := by
  induction he with
  | head => exact h.left
  | tail _ _ ih => exact ih h.right

theorem Provides.field {fs : List FieldInit} (h : Provides c (FieldInit.gatherIn hosts fs)) {f : FieldInit} (hf : f ∈ fs) :
    Provides c (f.value.gather hosts) := by
  induction hf with
  | head => cases f; exact h.left
  | @tail g _ _ ih => cases g; exact ih h.right

theorem Provides.arm (h : Provides c (Arm.gatherIn hosts as)) {a : Arm} (ha : a ∈ as) : Provides c (a.body.gather hosts) := by
  induction ha with
  | head => cases a; exact h.left
  | @tail b _ _ ih => cases b; exact ih h.right

end Provides

variable {S : Site} {c : Context} {l : Bool}

theorem equals_completes (t : Ty) : Completes [.item t] (equals t) Compares := by
  intro s
  cases t with
  | integer | mana | enum => exact ⟨_,rfl,.inl rfl⟩
  | boolean => exact ⟨_,rfl,.inr (.inl rfl)⟩
  | string | did => exact ⟨_,rfl,.inr (.inr rfl)⟩
  | _ => rfl

theorem equals_scalar (h : t.isScalar = true) : Completes [] (equals t) Compares := by
  intro s
  have hs := equals_completes t s
  simp only [Outcome, List.findSome?_cons, List.findSome?_nil, Hazard.fault?, h, if_true] at hs
  exact hs

theorem operator_completes {op : BinaryOp} {s t r : Ty} (h : op.Takes s t r) :
    Completes [] (operator op (some s)) Quiet := by
  have hequal (rest : List Instr) (hrest : Quiet rest) (hs : s.isScalar = true) :
      Completes [] (do return (← equals (← orGap .type (some s))) :: rest) Quiet := by
    refine (Completes.orGap rfl).bind fun u hu => ?_
    subst hu
    exact (equals_scalar hs).map fun _ hi => hi.quiet.cons hrest
  cases op with
  | eq => exact hequal [] ⟨rfl,rfl,rfl,rfl⟩ h.1.1
  | ne => exact hequal [.num .i32Eqz] ⟨rfl,rfl,rfl,rfl⟩ h.1.1
  | _ => exact .pure ⟨rfl,rfl,rfl,rfl⟩

theorem value_completes (v : Value) (h : c.Sized → v.InRange) :
    Completes v.hazards (value v) (Shape c [] []) := by
  cases v with
  | int v => exact .pure (.i64 h)
  | bool b => exact .pure (.of_quiet ⟨rfl,rfl,rfl,rfl⟩)
  | text s => exact (Completes.intern s).map fun _ _ => .of_quiet ⟨rfl,rfl,rfl,rfl⟩

variable {e a : Expr} {es : List Expr} {n : Note} {p : Pos} {d : RecordDecl} {x : String}

theorem name_completes {sym : Option Symbol} (pos : Pos) (hs : S.strict) (hc : Served c S)
    (h : (rule S).expr (.name n x sym)) :
    Completes (Expr.name n x sym).hazards (name pos x sym) (Shape c [] []) := by
  have hrange (hz : c.Sized) := ranged_of_rule hs (hc.sized hz) h
  obtain ⟨y,rfl,-,hknown⟩ := h.1
  obtain ⟨nm,t,m,kind,slot,v⟩ := y
  rcases hknown with ⟨hkind,i,hi,-⟩ | ⟨hkind,-,-,-,hvalue⟩
  · have hslot : slot = some i := hi
    subst hslot
    cases kind with
    | constant => exact absurd rfl hkind
    | _ => exact .pure (.of_quiet ⟨rfl,rfl,rfl,rfl⟩)
  · obtain ⟨w,hw,-⟩ := hvalue hs
    have hconstant : kind = .constant := hkind
    have hwritten : v = some w := hw
    rw [hconstant,hwritten]
    exact value_completes w fun hz => hrange hz hkind w hw

theorem fieldIndex_of_find {f : FieldDecl} (h : d.fields.find? (·.name = x) = some f) :
    ∃ i, d.fieldIndex? x = some i ∧ d.fields[i]? = some f := by
  obtain ⟨hname,i,hlt,rfl,hfirst⟩ := List.find?_eq_some_iff_getElem.mp h
  refine ⟨i,List.findIdx?_eq_some_iff_getElem.mpr ⟨hlt,hname,fun j hj => ?_⟩,List.getElem?_eq_getElem hlt⟩
  simpa using hfirst j hj

theorem fieldOffset_completes {type : Option Ty} {field r : String} {f : FieldDecl}
    (hc : Served c S) (ht : type = some (.record r)) (hd : S.env.record? r = some d)
    (hf : d.fields.find? (·.name = field) = some f) :
    Completes [] (fieldOffset c type field) fun _ => True := by
  have hrecord : c.record? r = some d := (hc.records r).trans hd
  obtain ⟨i,hi,-⟩ := fieldIndex_of_find hf
  unfold fieldOffset
  refine (Completes.orGap ht).bind fun u hu => ?_
  subst hu
  refine (Completes.orGap hrecord).bind fun e he => ?_
  subst he
  rw [hi]
  exact .pure trivial

theorem patternTest_completes {subject : Ty} {p : PatternForm} (hc : Served c S) (slot : Nat)
    (h : PatternFits S.env subject p) : Completes p.hazards (patternTest c slot p) (Shape c [] []) := by
  have htest {v : Int} (h : c.Sized → inWordRange v = true) : Shape c [] [] [.get slot, .i64 v, .num .i64Eq] := by
    have hcompared : Shape c [] [] ([.i64 v] ++ [.num .i64Eq]) := (Shape.i64 h).followed ⟨rfl,rfl,rfl,rfl⟩
    exact hcompared.cons ⟨rfl,rfl,rfl,rfl⟩
  cases p with
  | int v => exact .pure (htest fun _ => h.1)
  | text s => exact (Completes.intern s).map fun _ _ => .of_quiet ⟨rfl,rfl,rfl,rfl⟩
  | enum owner v =>
    obtain ⟨d,tag,hd,htag,-⟩ := h
    refine (Completes.orGap ((hc.enums owner).trans hd)).map fun e he => htest fun hz => ?_
    subst he
    rw [htag]
    exact e.inWordRange_tag htag (hc.sized hz e (List.mem_of_find?_eq_some hd))
  | bool b => cases b <;> exact .pure (.of_quiet ⟨rfl,rfl,rfl,rfl⟩)
  | _ => exact .pure (.of_quiet ⟨rfl,rfl,rfl,rfl⟩)

theorem bindPattern_completes {subject : Ty} {p : PatternForm} (hc : Served c S) (slot : Nat)
    (h : PatternSound S subject p) : Completes [] (bindPattern c slot p) Quiet := by
  unfold bindPattern
  split
  · rename_i x i hp
    obtain ⟨j,hj,hslot⟩ := h.2 _ hp
    cases hj
    split
    · exact .pure ⟨rfl,rfl,rfl,rfl⟩
    · rw [hc.slots]
      refine (Completes.orGap hslot).map fun t _ => ?_
      cases t.valType <;> exact ⟨rfl,rfl,rfl,rfl⟩
  · exact .pure ⟨rfl,rfl,rfl,rfl⟩

/-- Lowering an expression comes to an end with code of its shape, unless there is no equality for an item that it
looks for. -/
def ExprCompletes (c : Context) (e : Expr) : Prop := Completes e.hazards (expr c e) (Shape c e.jumps e.loops)

variable {jumps : Bool}

theorem unary_completes {op : UnaryOp} (h : ExprCompletes c e) : ExprCompletes c (.unary n op e) := by
  cases op with
  | neg => exact Completes.map h fun _ hx => (hx.cons ⟨rfl,rfl,rfl,rfl⟩).followed ⟨rfl,rfl,rfl,rfl⟩
  | not => exact Completes.map h fun _ hx => hx.followed ⟨rfl,rfl,rfl,rfl⟩

theorem junction_completes {op : BinaryOp} (hop : op = .and ∨ op = .or) (hc : c.Nested jumps)
    (ha : ExprCompletes c a) (hb : ExprCompletes (c.inside 1) b) : ExprCompletes c (.binary n op a b) := by
  have hquiet (v : Int) : Quiet [Instr.i32 v] := ⟨rfl,rfl,rfl,rfl⟩
  rcases hop with rfl | rfl
  · refine Completes.bind ha fun x hx => Completes.map hb fun y hy => hx.append ?_
    have hchoice : Shape c (b.jumps ++ []) (b.loops ++ []) [.cond (some .i32) y (some [.i32 0])] :=
      hy.choice hc (.of_quiet (hquiet 0))
    rwa [List.append_nil,List.append_nil] at hchoice
  · refine Completes.bind ha fun x hx => Completes.map hb fun y hy => hx.append ?_
    exact (Shape.of_quiet (hquiet 1)).choice hc hy

theorem strict_completes {op : BinaryOp} {s : Ty} (hand : op ≠ .and) (hor : op ≠ .or) (ht : a.type = some s)
    (h : op.Takes s t r) (ha : ExprCompletes c a) (hb : ExprCompletes c b) : ExprCompletes c (.binary n op a b) := by
  have hall : Completes (a.hazards ++ (b.hazards ++ [])) (expr c (.binary n op a b))
      (Shape c (a.jumps ++ b.jumps) (a.loops ++ b.loops)) := by
    rw [expr_strict hand hor,ht]
    exact Completes.bind ha fun _ hx => Completes.bind hb fun _ hy =>
      (operator_completes h).map fun _ ho => (hx.append hy).followed ho
  rwa [List.append_nil] at hall

theorem exprs_complete (h : ∀ e ∈ es, ExprCompletes c e) :
    Completes (Expr.hazardsIn es) (exprs c es) (Shape c (Expr.jumpsIn es) (Expr.loopsIn es)) :=
  parts_walk es h (.pure (.of_quiet ⟨rfl,rfl,rfl,rfl⟩)) fun _ _ he hes =>
    Completes.bind he fun _ hx => hes.map fun _ hy => hx.append hy

theorem push_completes (ha : a.type = some (.array t)) (hb : b.type = some u) (hac : ExprCompletes c a)
    (hbc : ExprCompletes c b) :
    Completes (a.hazards ++ b.hazards) (push c ⟨a.type, expr c a⟩ ⟨b.type, expr c b⟩)
      (Shape c (a.jumps ++ b.jumps) (a.loops ++ b.loops)) := by
  rw [push,ha,hb,elementType_eq,pure_bind]
  refine (Completes.temp c _).bind fun i _ => (Completes.temp c _).bind fun v _ =>
    (Completes.temp c _).bind fun k _ => Completes.bind hac fun _ hx => Completes.map hbc fun _ hy => ?_
  exact (hx.append (hy.cons ⟨rfl,rfl,rfl,rfl⟩)).followed (.cons ⟨rfl,rfl,rfl,rfl⟩ (pushCode_quiet _ i v k))

theorem pop_completes (hac : ExprCompletes c a) :
    Completes a.hazards (pop c ⟨a.type, expr c a⟩) (Shape c a.jumps a.loops) := by
  refine (Completes.temp c _).bind fun i _ => (Completes.temp c _).bind fun k _ =>
    (Completes.temp c _).bind fun out _ => ?_
  exact Completes.map hac fun _ hx => hx.followed (.cons ⟨rfl,rfl,rfl,rfl⟩ (popCode_quiet i k out))

theorem contains_completes (ha : a.type = some (.array t)) (hb : b.type = some u)
    (ht : t.isScalar = true ∨ t = .hole) (hac : ExprCompletes c a) (hbc : ExprCompletes c b) :
    Completes (a.hazards ++ (b.hazards ++ Builtin.hazards .arrayContains [a.type, b.type]))
      (contains c ⟨a.type, expr c a⟩ ⟨b.type, expr c b⟩) (Shape c (a.jumps ++ b.jumps) (a.loops ++ b.loops)) := by
  have hequals : Completes (Builtin.hazards .arrayContains [a.type, b.type]) (equals (itemType t u)) Compares := by
    rw [ha,hb]
    rcases ht with ht | rfl
    · have hsolid : t.hasHole = false := by cases t <;> first | rfl | cases ht
      have hnone : Builtin.hazards .arrayContains [some (.array t), some u] = [] := by
        cases t <;> first | rfl | cases ht
      rw [hnone,itemType,hsolid]
      exact equals_scalar ht
    · exact equals_completes u
  rw [contains,ha,hb,elementType_eq,pure_bind,← ha,← hb]
  refine (Completes.temp c _).bind fun i _ => (Completes.temp c _).bind fun v _ =>
    (Completes.temp c _).bind fun k _ => (Completes.temp c _).bind fun found _ => ?_
  refine Completes.bind hac fun _ hx => Completes.bind hbc fun _ hy => hequals.map fun _ hsame => ?_
  exact (hx.append (hy.cons ⟨rfl,rfl,rfl,rfl⟩)).followed
    (.cons ⟨rfl,rfl,rfl,rfl⟩ (containsCode_quiet i v k found hsame))

theorem builtin_completes {op : Builtin} (hargs : Args es ts) (hr : op.result ts = .ok r) (hts : .error ∉ ts)
    (h : ∀ e ∈ es, ExprCompletes c e) :
    Completes (Expr.hazardsIn es ++ op.hazards (es.map (·.type))) (builtin c op (operands c es))
      (Shape c (Expr.jumpsIn es) (Expr.loopsIn es)) := by
  have hinv := Builtin.takes_of_result hr hts
  have hlength (a : Expr) (ha : ExprCompletes c a) : Completes a.hazards (do
      return (← expr c a) ++ [Instr.load .i32 Memory.lengthOffset, Instr.num .i64ExtendI32U])
      (Shape c a.jumps a.loops) := Completes.map ha fun _ hx => hx.followed ⟨rfl,rfl,rfl,rfl⟩
  cases op with
  | arrayLen =>
    obtain ⟨-,t,rfl⟩ := hinv
    obtain ⟨a,rfl,-⟩ := hargs.one
    simp only [Builtin.hazards, Expr.hazardsIn, Expr.jumpsIn, Expr.loopsIn, List.append_nil]
    exact hlength a (h a List.mem_cons_self)
  | stringLen =>
    obtain ⟨-,rfl⟩ := hinv
    obtain ⟨a,rfl,-⟩ := hargs.one
    simp only [Builtin.hazards, Expr.hazardsIn, Expr.jumpsIn, Expr.loopsIn, List.append_nil]
    exact hlength a (h a List.mem_cons_self)
  | arrayPop =>
    obtain ⟨t,-,rfl⟩ := hinv
    obtain ⟨a,rfl,-⟩ := hargs.one
    simp only [Builtin.hazards, Expr.hazardsIn, Expr.jumpsIn, Expr.loopsIn, List.append_nil]
    exact pop_completes (h a List.mem_cons_self)
  | stringConcat =>
    obtain ⟨-,rfl⟩ := hinv
    obtain ⟨a,b,rfl,-,-⟩ := hargs.two
    have ha := h a (by simp)
    have hb := h b (by simp)
    simp only [Builtin.hazards, Expr.hazardsIn, Expr.jumpsIn, Expr.loopsIn, List.append_nil]
    exact Completes.bind ha fun _ hx => Completes.map hb fun _ hy => (hx.append hy).followed ⟨rfl,rfl,rfl,rfl⟩
  | arrayPush =>
    obtain ⟨-,t,u,rfl,-⟩ := hinv
    obtain ⟨a,b,rfl,hat,hbt⟩ := hargs.two
    simp only [Builtin.hazards, Expr.hazardsIn, Expr.jumpsIn, Expr.loopsIn, List.append_nil]
    exact push_completes hat hbt (h a (by simp)) (h b (by simp))
  | arrayContains =>
    obtain ⟨-,t,u,rfl,-,hscalar⟩ := hinv
    obtain ⟨a,b,rfl,hat,hbt⟩ := hargs.two
    simp only [Expr.hazardsIn, Expr.jumpsIn, Expr.loopsIn, List.append_nil, List.append_assoc]
    exact contains_completes hat hbt hscalar (h a (by simp)) (h b (by simp))

theorem call_completes {f : Callee} (hc : Served c S) (hargs : Args es ts) (hts : .error ∉ ts)
    (hf : CallSound S n.type ts f) (hh : Provides c ((Expr.call n f es).gather hosts)) (h : ∀ e ∈ es, ExprCompletes c e) :
    ExprCompletes c (.call n f es) := by
  have hcodes := exprs_complete h
  cases f with
  | unresolved x => cases hf
  | builtin b =>
    obtain ⟨r,hr,-⟩ := hf
    exact builtin_completes hargs hr hts h
  | user f =>
    obtain ⟨sig,hsig,-⟩ := hf
    obtain ⟨t,ht⟩ := hc.targets f sig hsig
    exact hcodes.bind fun _ hx => (Completes.orGap ht).map fun _ _ => hx.followed ⟨rfl,rfl,rfl,rfl⟩
  | host f =>
    obtain ⟨i,hi⟩ := hh f List.mem_cons_self
    exact hcodes.bind fun _ hx => (Completes.orGap hi).map fun _ _ => hx.followed ⟨rfl,rfl,rfl,rfl⟩

theorem elements_complete {address : Nat} (i : Nat) (hts : es.map (·.type) = ts.map some)
    (h : ∀ e ∈ es, ExprCompletes c e) :
    Completes (Expr.hazardsIn es) (elements c address i es) (Shape c (Expr.jumpsIn es) (Expr.loopsIn es)) := by
  induction es generalizing i ts with
  | nil => exact .pure (.of_quiet ⟨rfl,rfl,rfl,rfl⟩)
  | cons e es ih =>
    obtain ⟨he,hes⟩ := List.forall_mem_cons.mp h
    obtain ⟨t,us,rfl,ht,hus⟩ := List.map_eq_cons_iff.mp hts.symm
    refine Completes.bind he fun _ hx => (Completes.orGap ht.symm).bind fun _ _ =>
      (ih (i + 1) hus.symm hes).map fun _ hy => ?_
    exact (hx.cons ⟨rfl,rfl,rfl,rfl⟩).append (hy.cons (store_quiet _ _))

theorem array_completes (hargs : Args es ts) (h : ∀ e ∈ es, ExprCompletes c e) : ExprCompletes c (.array n es) := by
  refine (Completes.temp c _).bind fun i _ => (elements_complete 0 hargs.1 h).map fun _ hx => ?_
  exact (hx.preceded (arrayCode_quiet i _ _)).followed ⟨rfl,rfl,rfl,rfl⟩

theorem elementAddress_completes (ha : ExprCompletes c a) (hi : ExprCompletes c i) :
    Completes (a.hazards ++ i.hazards) (elementAddress c (expr c a) (expr c i))
      (Shape c (a.jumps ++ i.jumps) (a.loops ++ i.loops)) := by
  refine (Completes.temp c _).bind fun x _ => (Completes.temp c _).bind fun k _ =>
    Completes.bind ha fun _ hx => Completes.map hi fun _ hy => ?_
  exact (hx.append (hy.cons ⟨rfl,rfl,rfl,rfl⟩)).followed (.cons ⟨rfl,rfl,rfl,rfl⟩ (elementCode_quiet x k))

theorem index_completes (hn : n.type = some t) (ha : ExprCompletes c a) (hi : ExprCompletes c i) :
    ExprCompletes c (.index n a i) := by
  have hall : Completes ((a.hazards ++ i.hazards) ++ []) (expr c (.index n a i)) _ :=
    (elementAddress_completes ha hi).bind fun _ hx => (Completes.orGap hn).map fun _ _ =>
      hx.followed (load_quiet _ _)
  rwa [List.append_nil] at hall

theorem field_completes {f : String} (hc : Served c S) (h : Sound S (.field n e f))
    (he : ExprCompletes c e) : ExprCompletes c (.field n e f) := by
  obtain ⟨r,d,fd,ht,hd,hfd,hn⟩ := h
  have hall : Completes (e.hazards ++ []) (expr c (.field n e f)) _ :=
    Completes.bind he fun _ hx => (fieldOffset_completes hc ht hd hfd).bind fun _ _ =>
      (Completes.orGap hn).map fun _ _ => hx.followed (load_quiet _ _)
  rwa [List.append_nil] at hall

theorem fields_complete {address : Nat} {fs : List FieldInit}
    (hd : ∀ f ∈ fs, ∃ fd, d.fields.find? (·.name = f.name) = some fd ∧ Gives f.value fd.type)
    (h : ∀ f ∈ fs, ExprCompletes c f.value) :
    Completes (FieldInit.hazardsIn fs) (fields c d address fs)
      (Shape c (FieldInit.jumpsIn fs) (FieldInit.loopsIn fs)) := by
  induction fs with
  | nil => exact .pure (.of_quiet ⟨rfl,rfl,rfl,rfl⟩)
  | cons f fs ih =>
    obtain ⟨p,n,e⟩ := f
    obtain ⟨he,hfs⟩ := List.forall_mem_cons.mp h
    obtain ⟨⟨fd,hfd,-⟩,hds⟩ := List.forall_mem_cons.mp hd
    obtain ⟨i,hi,hget⟩ := fieldIndex_of_find hfd
    refine Completes.bind he fun _ hx => ?_
    have hindex : d.fieldIndex? n = some i := hi
    rw [hindex]
    refine (Completes.orGap hget).bind fun _ _ => (ih hds hfs).map fun _ hy => ?_
    exact (hx.cons ⟨rfl,rfl,rfl,rfl⟩).append (hy.cons (store_quiet _ _))

theorem record_completes {fs : List FieldInit} (hc : Served c S)
    (h : Sound S (.record n x fs)) (hfs : ∀ f ∈ fs, ExprCompletes c f.value) :
    ExprCompletes c (.record n x fs) := by
  obtain ⟨d,hd,-,hall⟩ := h
  refine (Completes.orGap ((hc.records x).trans hd)).bind fun e he => ?_
  subst he
  refine (Completes.temp c _).bind fun _ _ => (fields_complete hall hfs).map fun _ hx => ?_
  have hnew : Quiet (allocate (Memory.recordSize e.fields.length)) := ⟨rfl,rfl,rfl,rfl⟩
  exact ((hx.cons ⟨rfl,rfl,rfl,rfl⟩).preceded hnew).followed ⟨rfl,rfl,rfl,rfl⟩

theorem wrap_completes {k : Wrapper} (ht : e.type = some t) (he : ExprCompletes c e) :
    ExprCompletes c (.wrap n k e) := by
  have hall : Completes (e.hazards ++ []) (expr c (.wrap n k e)) (Shape c e.jumps e.loops) := by
    refine (Completes.temp c _).bind fun i _ => Completes.bind he fun _ hx => (Completes.orGap ht).map fun t _ => ?_
    have hstore : Quiet [Instr.store t.valType Memory.payloadOffset, Instr.get i] :=
      .cons (store_quiet _ _) ⟨rfl,rfl,rfl,rfl⟩
    exact ((hx.cons ⟨rfl,rfl,rfl,rfl⟩).preceded (variantCode_quiet i _)).followed hstore
  rwa [List.append_nil] at hall

theorem arms_complete {subject : Nat} {out : BlockType} (hc : Served c S) (hnest : c.Nested jumps)
    (hp : ∀ a ∈ as, PatternSound S t a.pattern.form) (h : ∀ a ∈ as, ∀ n, ExprCompletes (c.inside n) a.body) (n : Nat) :
    Completes (Arm.hazardsIn as) (arms (c.inside n) subject out as)
      (Shape (c.inside n) (Arm.jumpsIn as) (Arm.loopsIn as)) := by
  induction as generalizing n with
  | nil => exact .pure (.of_quiet ⟨rfl,rfl,rfl,rfl⟩)
  | cons a as ih =>
    obtain ⟨pos,p,e⟩ := a
    obtain ⟨he,has⟩ := List.forall_mem_cons.mp h
    obtain ⟨hpat,hpats⟩ := List.forall_mem_cons.mp hp
    have hbound := bindPattern_completes (hc.inside n) subject hpat
    rw [arms,Arm.hazardsIn,Arm.jumpsIn,Arm.loopsIn]
    split
    · rename_i hall
      simp only [PatternForm.hazards_of_isCatchAll hall, List.nil_append, List.append_nil]
      refine hbound.bind fun _ hb => Completes.map (he n) fun _ hx => ?_
      exact (hx.preceded hb).followed (unused_quiet _)
    · have htest := patternTest_completes (hc.inside n) subject hpat.1
      refine htest.bind fun _ ht => hbound.bind fun _ hb => Completes.bind (he (n + 1)) fun _ hx =>
        (ih hpats has (n + 1)).map fun _ hy => ?_
      exact ht.append (((hx.preceded hb).followed (unused_quiet _)).choice (hnest.inside n) hy)

theorem select_completes (hc : Served c S) (hnest : c.Nested jumps) (ht : e.type = some t)
    (hp : ∀ a ∈ as, PatternSound S t a.pattern.form)
    (he : ExprCompletes c e) (h : ∀ a ∈ as, ∀ n, ExprCompletes (c.inside n) a.body) :
    ExprCompletes c (.select n e as) := by
  refine (Completes.orGap ht).bind fun _ _ => (Completes.temp c _).bind fun _ _ =>
    Completes.bind he fun _ hx => (arms_complete hc hnest hp h 0).map fun _ hy => ?_
  exact (hx.append (Shape.cons hy ⟨rfl,rfl,rfl,rfl⟩)).followed (stop_quiet _)

def StmtCompletes (c : Context) (s : Stmt) : Prop := Completes s.hazards (stmt c s) (Shape c s.jumps s.loops)

def BlockCompletes (c : Context) (b : Block) : Prop := Completes b.hazards (block c b) (Shape c b.jumps b.loops)

theorem bind_completes {d : Option Ty} {slot : Option Nat} {i : Nat}
    (hi : slot = some i) (he : ExprCompletes c e) : StmtCompletes c (.bind p x d e slot) := by
  have hall : Completes (e.hazards ++ []) (stmt c (.bind p x d e slot)) _ :=
    Completes.bind he fun _ hx => (Completes.orGap hi).map fun _ _ => hx.followed ⟨rfl,rfl,rfl,rfl⟩
  rwa [List.append_nil] at hall

theorem assignName_completes {y : Symbol} (hy : y.IsVariable S.slots) (he : ExprCompletes c e) :
    StmtCompletes c (.assign p (.name n x (some y)) e) := by
  obtain ⟨hkind,i,hi,-⟩ := hy
  have hslot : (some y).bind (·.slot) = some i := hi
  have htarget : (Expr.name n x (some y)).hazards = [] := if_neg hkind
  rw [StmtCompletes,stmt,hslot,Stmt.hazards,htarget]
  exact Completes.map he fun _ hx => hx.followed ⟨rfl,rfl,rfl,rfl⟩

theorem assignField_completes {t : Expr} {f : String} (hc : Served c S)
    (h : Sound S (.field n t f)) (ht : ExprCompletes c t) (he : ExprCompletes c e) :
    StmtCompletes c (.assign p (.field n t f) e) := by
  obtain ⟨r,d,fd,htype,hd,hfd,hn⟩ := h
  have hall : Completes (t.hazards ++ (e.hazards ++ [])) (stmt c (.assign p (.field n t f) e)) _ :=
    Completes.bind ht fun _ hx => Completes.bind he fun _ hy =>
      (fieldOffset_completes hc htype hd hfd).bind fun _ _ => (Completes.orGap hn).map fun _ _ =>
        (hx.append hy).followed (store_quiet _ _)
  rwa [List.append_nil] at hall

theorem assignIndex_completes {t : Expr} (hn : n.type = some u) (ht : ExprCompletes c t) (hi : ExprCompletes c i)
    (he : ExprCompletes c e) : StmtCompletes c (.assign p (.index n t i) e) := by
  have hall : Completes ((t.hazards ++ i.hazards) ++ (e.hazards ++ [])) (stmt c (.assign p (.index n t i) e)) _ :=
    (elementAddress_completes ht hi).bind fun _ hx => Completes.bind he fun _ hy =>
      (Completes.orGap hn).map fun _ _ => (hx.append hy).followed (store_quiet _ _)
  rwa [List.append_nil] at hall

theorem loop_completes {b : Block} (hc : c.Nested jumps) (he : ExprCompletes (c.inside 2) e)
    (hb : BlockCompletes c.insideLoop b) : StmtCompletes c (.loop p e b) :=
  Completes.bind he fun _ hx => (Completes.ran hb).map fun _ hy => while_shape hc hx hy.1 ⟨_,hy.2⟩

theorem each_completes {b : Block} {slot : Option Nat} {i : Nat} {t : Ty}
    (hc : Served c S) (hi : slot = some i) (ht : S.slots[i]? = some t) (he : ExprCompletes c e)
    (hb : BlockCompletes c.insideLoop b) : StmtCompletes c (.each p x e b slot) := by
  refine (Completes.orGap hi).bind fun j hj => ?_
  subst hj
  rw [hc.slots]
  refine (Completes.orGap ht).bind fun _ _ => (Completes.temp c _).bind fun _ _ =>
    (Completes.temp c _).bind fun _ _ => Completes.bind he fun _ hx => (Completes.ran hb).map fun _ hy => ?_
  rw [Stmt.jumps,← List.append_nil e.jumps]
  exact hx.append (for_shape hy.1 ⟨_,hy.2⟩)

theorem jump_completes {s : Stmt} (hc : c.Nested true) (hs : s = .leave p ∨ s = .next p) :
    StmtCompletes c s := by
  obtain ⟨k,hk⟩ := hc.loop rfl
  rcases hs with rfl | rfl <;> rw [StmtCompletes,stmt,hk] <;>
    exact .pure ⟨.cons ⟨k,hk,rfl⟩ .nil,.nil,rfl,fun _ => rfl⟩

def ChainCompletes (c : Context) (ch : Chain) : Prop :=
  Completes ch.hazards (chain c ch) fun code => Shape c ch.jumps ch.loops (code.getD [])

theorem branch_completes {b : Block} {rest : Chain} (hc : c.Nested jumps) (he : ExprCompletes c e)
    (hb : BlockCompletes (c.inside 1) b) (hrest : ChainCompletes (c.inside 1) rest) :
    ChainCompletes c (.branch p e b rest) := by
  refine Completes.bind he fun _ hx => Completes.bind hb fun _ hy => Completes.map hrest fun no hz => ?_
  rw [Chain.jumps,Chain.loops,Option.getD_some]
  cases no with
  | none =>
    have hjumps : rest.jumps = [] := List.forall₂_nil_right_iff.mp hz.outs
    have hloops : rest.loops = [] := List.forall₂_nil_right_iff.mp hz.bodies
    rw [hjumps,hloops,List.append_nil,List.append_nil]
    exact hx.append (hy.option hc)
  | some no =>
    rw [List.append_assoc,List.append_assoc]
    exact hx.append (hy.choice hc hz)

theorem completes_walk (hs : S.strict) : Walk (rule S)
    (fun l e => ∀ c, Ready S l c → Provides c (e.gather hosts) → ExprCompletes c e)
    (fun l s => ∀ c, Ready S l c → Provides c (s.gather hosts) → StmtCompletes c s)
    (fun l ss => ∀ c, Ready S l c → Provides c (Stmt.gatherIn hosts ss) →
      Completes (Stmt.hazardsIn ss) (stmts c ss) (Shape c (Stmt.jumpsIn ss) (Stmt.loopsIn ss)))
    (fun l b => ∀ c, Ready S l c → Provides c (blockHosts b) → BlockCompletes c b)
    (fun l ch => ∀ c, Ready S l c → Provides c (ch.gather hosts) → ChainCompletes c ch) where
  int h _ hc _ := .pure (.i64 fun hz => ranged_of_rule hs (hc.served.sized hz) h)
  bool _ _ _ _ := .pure (.of_quiet ⟨rfl,rfl,rfl,rfl⟩)
  text _ _ _ _ := (Completes.intern _).map fun _ _ => .of_quiet ⟨rfl,rfl,rfl,rfl⟩
  name h _ hc _ := name_completes _ hs hc.served h
  unary _ he c hc hh := unary_completes (he c hc hh)
  binary {_ _ op _ _} h ha hb c hc hh := by
    obtain ⟨s,t,r,hat,hbt,hr,-⟩ := (h.1.2 hs).2
    have hac := ha c hc hh.right.left
    by_cases hand : op = .and
    · exact junction_completes (.inl hand) hc.nested hac (hb _ (hc.inside 1) hh.right.right)
    · by_cases hor : op = .or
      · exact junction_completes (.inr hor) hc.nested hac (hb _ (hc.inside 1) hh.right.right)
      · have htakes := BinaryOp.takes_of_type? hr (ne_error_of_every h.2.1 hs hat)
          (ne_error_of_every h.2.2 hs hbt)
        exact strict_completes hand hor hat htakes hac (hb c hc hh.right.right)
  call {_ _ f args} h hes c hc hh := by
    obtain ⟨ts,hts,hf⟩ := (h.1.2 hs).2
    have hargs : Provides c (Expr.gatherIn hosts args) := by
      cases f with
      | host f => exact fun g hg => hh g (List.mem_cons_of_mem f hg)
      | _ => exact hh
    exact call_completes hc.served hts (args_ne_error hts (Expr.every_of_mem h.2) hs) hf hh
      fun e he => hes e he c hc (hargs.expr he)
  method h he hes c hc hh := by
    obtain ⟨op,ts,r,rfl,hts,hr,-⟩ := (h.1.2 hs).2
    have hall := List.forall_mem_cons.mpr ⟨he c hc hh.right.left,fun e he => hes e he c hc (hh.right.right.expr he)⟩
    have hevery := List.forall_mem_cons.mpr ⟨h.2.1,Expr.every_of_mem h.2.2⟩
    exact builtin_completes hts hr (args_ne_error hts hevery hs) hall
  array h hes c hc hh := by
    obtain ⟨-,ts,hts⟩ := (h.1.2 hs).2
    exact array_completes hts fun e he => hes e he c hc (hh.expr he)
  index h ha hi c hc hh := by
    obtain ⟨t,u,-,-,-,hn⟩ := (h.1.2 hs).2
    exact index_completes hn (ha c hc hh.right.left) (hi c hc hh.right.right)
  field h he c hc hh := field_completes hc.served (h.1.2 hs).2 (he c hc hh)
  record h hfs c hc hh := record_completes hc.served (h.1.2 hs).2 fun f hf => hfs f hf c hc (hh.field hf)
  wrap h he c hc hh := by
    obtain ⟨t,ht,-⟩ := (h.1.2 hs).2
    exact wrap_completes ht (he c hc hh)
  noneLit _ c _ _ := (Completes.temp c _).map fun i _ =>
    .of_quiet ((variantCode_quiet i .err).append ⟨rfl,rfl,rfl,rfl⟩)
  enum h _ hc _ := by
    have hrange (hz : Context.Sized _) := ranged_of_rule hs (hc.served.sized hz) h
    obtain ⟨d,i,-,-,rfl⟩ := h.1
    exact .pure (.i64 hrange)
  select h he has c hc hh := by
    obtain ⟨t,r,ht,-,-,hp⟩ := (h.1.2 hs).2
    exact select_completes hc.served hc.nested ht (fun a ha => (hp a ha).1) (he c hc hh.right.left)
      fun a ha n => has a ha _ (hc.inside n) (hh.right.right.arm ha)
  block _ hss := hss
  tail _ hss he c hc hh :=
    (hss c hc hh.right.left).bind fun _ hx => Completes.map (he c hc hh.right.right) fun _ hy => hx.append hy
  bind h he c hc hh := by
    obtain ⟨i,t,hi,-⟩ := h.1 hs
    exact bind_completes hi (he c hc hh)
  assignName h he c hc hh := by
    obtain ⟨y,rfl,hy,-⟩ := h.1 hs
    exact assignName_completes hy (he c hc hh)
  assignField h ht he c hc hh :=
    assignField_completes hc.served (h.2.1.1.2 hs).2 (ht c hc hh.right.left.right) (he c hc hh.right.right)
  assignIndex h ht hi he c hc hh := by
    obtain ⟨u,v,-,-,-,hn⟩ := (h.2.1.1.2 hs).2
    exact assignIndex_completes hn (ht c hc hh.right.left.right.left) (hi c hc hh.right.left.right.right) (he c hc hh.right.right)
  assignOther {_ _ t _} h hplace _ _ _ _ _ := by
    cases t with
    | name | field | index => cases hplace
    | _ => exact absurd (h.1 hs).1 Bool.false_ne_true
  ret _ _ _ _ := .pure (.of_quiet ⟨rfl,rfl,rfl,rfl⟩)
  retValue _ he c hc hh := Completes.map (he c hc hh) fun _ hx => hx.followed ⟨rfl,rfl,rfl,rfl⟩
  expr _ he c hc hh := Completes.map (he c hc hh) fun _ hx => hx.followed (unused_quiet _)
  cond _ hch c hc hh := Completes.map (hch c hc hh) fun _ hx => hx
  loop _ he hb _ hc hh := loop_completes hc.nested (he _ (hc.inside 2) hh.right.left) (hb _ hc.insideLoop hh.right.right)
  each h he hb c hc hh := by
    obtain ⟨i,t,hi,ht,-⟩ := h.1 hs
    exact each_completes hc.served hi ht (he c hc hh.right.left) (hb _ hc.insideLoop hh.right.right)
  leave h _ hc _ := jump_completes (h hs ▸ hc.nested) (.inl rfl)
  next h _ hc _ := jump_completes (h hs ▸ hc.nested) (.inr rfl)
  nil _ _ _ := .pure (.of_quiet ⟨rfl,rfl,rfl,rfl⟩)
  cons _ hx hxs c hc hh :=
    Completes.bind (hx c hc hh.left) fun _ hx => (hxs c hc hh.right).map fun _ hy => hx.append hy
  body hss := hss
  stop _ _ _ := .pure (.of_quiet ⟨rfl,rfl,rfl,rfl⟩)
  otherwise hb c hc hh := Completes.map (hb c hc hh) fun _ hx => hx
  branch _ he hb hrest c hc hh := branch_completes hc.nested (he c hc hh.left)
    (hb _ (hc.inside 1) hh.right.left) (hrest _ (hc.inside 1) hh.right.right)

end Lower

end Covenant
