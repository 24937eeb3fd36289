import Covenant.Lower.Program
import Covenant.Proofs.Typing.Parts
import Covenant.Proofs.Wasm.Typing

/-! Reasoning about lowering. New locals are only added at the end, so that what is known of a local
stays true; whatever else lowering may run into, only code that comes out counts. Checking lets an expression of
open type stand for a value of any type, while its code leaves an `i64`, or nothing at all. That is right where the
code stops before, or where an `i64` is wanted. -/

namespace Covenant

open Wasm Typing

/-- Whether an expression that is no call without result leaves a value. -/
def Expr.leaves : Expr → Bool
  | .select ⟨_, some t⟩ _ _ => t ≠ .void && t ≠ .hole
  | .select ⟨_, none⟩ _ _ => false
  | .block _ _ none _ => false
  | .block _ _ (some e) _ => e.leaves
  | _ => true

mutual

/-- Whether the code of an expression that leaves nothing ends with a jump or a trap. Control may come
out of no branch of an `if`, and it may stay in a loop; that does not count. -/
def Expr.stops : Expr → Bool
  | .block _ ss none _ => Stmt.anyStops ss
  | .block _ _ (some e) _ => e.stops
  | .select ⟨_, t⟩ _ as => t = some .hole && Lower.allDiverge as
  | _ => false

def Stmt.stops : Stmt → Bool
  | .ret _ _ | .leave _ | .next _ => true
  | .expr _ e | .bind _ _ _ e _ | .assign _ (.name _ _ _) e => e.stops
  | _ => false

def Stmt.anyStops : List Stmt → Bool
  | [] => false
  | s :: ss => s.stops || Stmt.anyStops ss

end

/-- Where a value of type `t` is wanted: if the type of the expression or the wanted type is open, the
code stops or leaves a value of the right machine type. -/
def Settles (t : Ty) (e : Expr) : Prop :=
  t = .hole ∨ e.type = some .hole →
    e.stops = true ∨ (e.leaves = true ∧ e.type.map Ty.valType = some t.valType)

instance (t : Ty) (e : Expr) : Decidable (Settles t e) :=
  inferInstanceAs (Decidable (_ ∨ _ → _ ∨ (_ ∧ _)))

def Expr.Settled (e : Expr) : Prop := ∀ t, e.type = some t → Settles t e

/-- The arguments of a built-in operation. An array that leaves its element type open takes items as
they are. -/
def SettledArgs : List Expr → Prop
  | a :: item :: _ => ∀ t, a.type = some (.array t) →
    if t.hasHole then item.Settled else Settles t item
  | _ => True

def settled (S : Site) : Rule where
  expr e := match e with
    | .call _ (.user f) args => ∀ sig, S.env.function? f = some sig →
        List.Forall₂ Settles sig.params args
    | .call _ (.host h) args => List.Forall₂ Settles h.params args
    | .call _ (.builtin _) args => SettledArgs args
    | .method _ e _ args _ => SettledArgs (e :: args)
    | .array _ es => ∀ e ∈ es, e.Settled
    | .record _ x fs => ∀ d, S.env.record? x = some d → ∀ f ∈ fs, ∀ fd,
        d.fields.find? (·.name = f.name) = some fd → Settles fd.type f.value
    | .wrap _ _ e => e.Settled
    | .select n _ as => ∀ t, n.type = some t → t ≠ .void → t ≠ .hole → ∀ a ∈ as, Settles t a.body
    | _ => True
  stmt _ s := match s with
    | .bind _ _ _ e slot => ∀ i t, slot = some i → S.slots[i]? = some t → Settles t e
    | .assign _ a e => ∀ t, a.type = some t → Settles t e
    | .ret _ (some e) => ∀ t, S.result = some t → Settles t e
    | .loop _ e _ => Settles .boolean e
    | _ => True
  guard e := Settles .boolean e

namespace Lower

variable {E : BodyScope} {L : List (List ValType)} {is : List Instr} {t : ValType}

namespace Typed

theorem get {i : Nat} (h : E.locals[i]? = some t) : Typed E L [.get i] [] [t] :=
  op (by rw [Op.type?,h]; rfl)

theorem set {i : Nat} (h : E.locals[i]? = some t) : Typed E L [.set i] [t] [] :=
  op (by rw [Op.type?,h]; rfl)

theorem i32 (v : Int) : Typed E L [.i32 v] [] [.i32] := op rfl

theorem i64 (v : Int) : Typed E L [.i64 v] [] [.i64] := op rfl

theorem num (o : NumOp) : Typed E L [.num o] o.type.params o.type.results := op rfl

theorem load (hm : E.hasMemory = true) (t : ValType) (n : Nat) : Typed E L [.load t n] [.i32] [t] := by
  cases t <;> exact op (if_pos hm)

theorem store (hm : E.hasMemory = true) (t : ValType) (n : Nat) :
    Typed E L [.store t n] [.i32, t] [] := by
  cases t <;> exact op (if_pos hm)

theorem of_checkAll {ps rs : List ValType}
    (h : ∀ s : Stack, checkAll E L is (s.push ps) = some (s.push rs)) : Typed E L is ps rs :=
  fun s => ⟨s.push rs,h s,.refl _⟩

end Typed

variable {a i : Nat}

section Evaluation

-- code that is written out is checked by running the checker on it
attribute [local simp] checkAll check checkOp Instr.get Instr.set Instr.tee Instr.i32 Instr.i64
  Instr.num Instr.load Instr.store Instr.trapIf Instr.trap Op.type? NumOp.type Routine.type Stack.apply
  Stack.pops Stack.pop Stack.popIf Stack.push Stack.closes Stack.dead Stack.empty

variable (hm : E.hasMemory = true)
include hm

theorem elementCode_typed (ha : E.locals[a]? = some .i32) (hi : E.locals[i]? = some .i64) :
    Typed E L (elementCode a i) [] [.i32] :=
  .of_checkAll fun s => by simp [elementCode, ha, hi, hm]

theorem pushCode_typed {v n : Nat} (ha : E.locals[a]? = some .i32) (hv : E.locals[v]? = some t)
    (hn : E.locals[n]? = some .i32) : Typed E L (pushCode t a v n) [] [.i64] :=
  .of_checkAll fun s => by cases t <;> simp [pushCode, ha, hv, hn, hm]

theorem popCode_typed {n out : Nat} (ha : E.locals[a]? = some .i32) (hn : E.locals[n]? = some .i32)
    (ho : E.locals[out]? = some .i32) : Typed E L (popCode a n out) [] [.i32] :=
  .of_checkAll fun s => by simp [popCode, ha, hn, ho, hm]

theorem containsCode_typed {same : Instr} {v found : Nat} (ha : E.locals[a]? = some .i32)
    (hv : E.locals[v]? = some t) (hi : E.locals[i]? = some .i32) (hf : E.locals[found]? = some .i32)
    (hsame : ∀ (L : List (List ValType)) (s : Stack), check E L same (s.push [t, t]) = some (s.push [.i32])) :
    Typed E L (containsCode t same a v i found) [] [.i32] :=
  .of_checkAll fun s => by
    simp only [Stack.push, List.reverse_cons, List.reverse_nil, List.nil_append, List.cons_append] at hsame
    cases t <;> simp [containsCode, ha, hv, hi, hf, hm, hsame]

theorem arrayCode_typed (ha : E.locals[a]? = some .i32) (count capacity : Nat) :
    Typed E L (arrayCode a count capacity) [] [] :=
  .of_checkAll fun s => by simp [arrayCode, ha, hm]

theorem variantCode_typed (ha : E.locals[a]? = some .i32) (tag : Int) : Typed E L (variantCode a tag) [] [] :=
  .of_checkAll fun s => by simp [variantCode, ha, hm]

/-- The routines are well-typed, with their own locals and the first free address as global 0. -/
theorem routine_typed (r : Routine) (hl : E.locals = r.type.params ++ r.locals)
    (hr : E.results = r.type.results) {g : Global} (hg : E.globals[0]? = some g)
    (hgt : g.type = .i32) (hgm : g.isMutable = true) : Typed E [E.results] r.code [] E.results := by
  rw [hr]
  refine .of_checkAll fun s => ?_
  cases r with
  | alloc =>
    simp [Routine.code, Routine.allocCode, Routine.locals, Routine.heapGlobal, hl, hg, hgt, hgm,
      Option.filter, hm]
  | concat =>
    simp [Routine.code, Routine.concatCode, Routine.concatStart, Routine.copyBytes, Routine.locals, hl, hm]
  | equal =>
    simp [Routine.code, Routine.equalCode, Routine.locals, hl, hr, hm]

theorem forHead_typed {element : Nat} (ha : E.locals[a]? = some .i32)
    (hi : E.locals[i]? = some .i32) (he : E.locals[element]? = some t) : Typed E ([] :: [] :: L)
      [.get i, .get a, .load .i32 Memory.lengthOffset, .num .i32GeU, .op (.brIf 1),
        .get a, .get i, .i32 Memory.slotSize, .num .i32Mul, .num .i32Add,
        .load t Memory.arrayHeader, .set element] [] [] :=
  .of_checkAll fun s => by cases t <;> simp [ha, hi, he, hm]

omit hm in
theorem forTail_typed (hi : E.locals[i]? = some .i32) :
    Typed E ([] :: L) [.get i, .i32 1, .num .i32Add, .set i] [] [] :=
  .of_checkAll fun s => by simp [hi]

end Evaluation

theorem whileCode_typed {test body : List Instr} (ht : Typed E ([] :: [] :: L) test [] [.i32])
    (hb : Typed E ([] :: [] :: [] :: L) body [] []) : Typed E L (whileCode test body) [] [] := by
  refine .block (b := none) (.loop (b := none) (ht.append ?_))
  refine .cons (.num .i32Eqz) (.cons (.brIf rfl) (.cons (.block (b := none) hb) ?_))
  exact Stops.br rfl _ _

theorem forCode_typed {element : Nat} {body : List Instr} (hm : E.hasMemory = true)
    (ha : E.locals[a]? = some .i32) (hi : E.locals[i]? = some .i32) (he : E.locals[element]? = some t)
    (hb : Typed E ([] :: [] :: [] :: L) body [] []) : Typed E L (forCode t a i element body) [.i32] [] := by
  refine .cons (.set ha) (.cons (.i32 0) (.cons (.set hi) (.block (b := none) (.loop (b := none) ?_))))
  refine (forHead_typed hm ha hi he).append (.cons (.block (b := none) hb) ?_)
  exact (forTail_typed hi).append (Stops.br rfl _ _)

/-- What comes out of a step satisfies `Q`, for any locals that those of the step begin. -/
def Lowers {α : Type} (m : M α) (Q : List ValType → α → Prop) : Prop :=
  ∀ s a s', m s = .ok (a, s') →
    s.temps.toList <+: s'.temps.toList ∧ ∀ T, s'.temps.toList <+: T → Q T a

namespace Lowers

variable {α β : Type} {m : M α} {Q : List ValType → α → Prop} {R : List ValType → β → Prop}

theorem pure {a : α} (h : ∀ T, Q T a) : Lowers (pure a) Q := by
  intro s b s' hs
  cases hs
  exact ⟨List.prefix_rfl,fun T _ => h T⟩

theorem bind {f : α → M β} (hm : Lowers m Q) (hf : ∀ a, Lowers (f a) fun T b => Q T a → R T b) :
    Lowers (m >>= f) R := by
  intro s b s'' hs
  have hbind : (m s >>= fun r => f r.1 r.2) = .ok (b, s'') := hs
  cases hr : m s with
  | error e =>
    rw [hr] at hbind
    cases hbind
  | ok r =>
    obtain ⟨a,s'⟩ := r
    rw [hr] at hbind
    obtain ⟨hs',hQ⟩ := hm s a s' hr
    obtain ⟨hs'',hR⟩ := hf a s' b s'' hbind
    exact ⟨hs'.trans hs'',fun T hT => hR T hT (hQ T (hs''.trans hT))⟩

theorem weaken (hm : Lowers m Q) {Q' : List ValType → α → Prop} (h : ∀ T a, Q T a → Q' T a) :
    Lowers m Q' := by
  intro s a s' hs
  obtain ⟨hp,hQ⟩ := hm s a s' hs
  exact ⟨hp,fun T hT => h T a (hQ T hT)⟩

theorem throw (e : Fault) : Lowers (throw e : M α) Q := nofun

theorem orGap (g : Gap) (o : Option α) : Lowers (orGap g o) fun _ a => o = some a := by
  cases o with
  | none => exact throw _
  | some a => exact pure fun _ => rfl

theorem known {g : Gap} {a : α} {f : α → M β} (h : Lowers (f a) R) :
    Lowers (Lower.orGap g (some a) >>= f) R := h

end Lowers

def scope (G : List FuncType) (g : List Global) (S : Site) (T : List ValType) : BodyScope :=
  ⟨G, S.slots.map Ty.valType ++ T, g, true, S.result.toList.map Ty.valType⟩

theorem temp_lowers {c : Context} {S : Site} (hc : c.slots = S.slots) (G : List FuncType)
    (g : List Global) (t : ValType) :
    Lowers (temp c t) fun T i => (scope G g S T).locals[i]? = some t := by
  intro s i s' hs
  cases hs
  refine ⟨by simp,fun T hT => ?_⟩
  obtain ⟨T',rfl⟩ := hT
  rw [hc]
  simp [scope]

theorem intern_lowers (text : String) : Lowers (intern text) fun _ _ => True := by
  intro s a s' hs
  obtain ⟨-,rfl⟩ := intern_ok hs
  exact ⟨List.prefix_rfl,fun _ _ => trivial⟩

/-- The labels around a place: one for each block, and one for the function. The blocks that `break` and
`continue` leave have no results. -/
structure Context.Labels (c : Context) (L : List (List ValType)) : Prop where
  length : L.length = c.depth + 1
  jumps : ∀ l, c.loop = some l → ∀ n, n = l.leave ∨ n = l.next →
    n < c.depth ∧ L[c.distance n]? = some []

namespace Context.Labels

variable {c : Context} {L : List (List ValType)}

theorem inside (h : c.Labels L) (l : List ValType) : (c.inside 1).Labels (l :: L) where
  length := by simp [Context.inside, h.length]
  jumps k hk n hn := by
    obtain ⟨hlt,hlabel⟩ := h.jumps k hk n hn
    refine ⟨Nat.lt_succ_of_lt hlt,?_⟩
    have hdist : (c.inside 1).distance n = c.distance n + 1 := by
      simp only [Context.distance, Context.inside]
      omega
    rw [hdist]
    exact hlabel

theorem inside_two (h : c.Labels L) (l k : List ValType) : (c.inside 2).Labels (l :: k :: L) :=
  (h.inside k).inside l

theorem insideLoop (h : c.Labels L) : c.insideLoop.Labels ([] :: [] :: [] :: L) where
  length := by simp [Context.insideLoop, h.length]
  jumps k hk n hn := by
    cases hk
    rcases hn with rfl | rfl
    · have hdist : c.insideLoop.distance c.depth = 2 := by
        simp only [Context.distance, Context.insideLoop]
        omega
      exact ⟨Nat.lt_add_of_pos_right (by decide),by rw [hdist]; rfl⟩
    · have hdist : c.insideLoop.distance (c.depth + 2) = 0 := by
        simp only [Context.distance, Context.insideLoop]
        omega
      exact ⟨Nat.lt_succ_self _,by rw [hdist]; rfl⟩

end Context.Labels

/-- What lowering knows of the declarations is what checking knows of them, and what is called has the
type of its declaration. -/
structure Linked (G : List FuncType) (c : Context) (S : Site) : Prop where
  strict : S.strict
  proper : S.env.Proper
  slots : c.slots = S.slots
  records : ∀ x, c.record? x = S.env.record? x
  result : ∀ t, S.result = some t → t ≠ .error
  targets : ∀ f sig, S.env.function? f = some sig → ∃ t, c.target? f = some t ∧
    t.type = signature sig.params sig.result ∧ G[t.index]? = some t.type
  hosts : ∀ h ∈ HostFunction.all, ∀ i, c.importIndex? h = some i →
    G[i]? = some (signature h.params h.result)

variable {G : List FuncType} {g : List Global} {S : Site} {c : Context} {l : Bool} {e : Expr}

theorem Linked.inside (h : Linked G c S) (n : Nat) : Linked G (c.inside n) S :=
  ⟨h.strict,h.proper,h.slots,h.records,h.result,h.targets,h.hosts⟩

theorem Linked.insideLoop (h : Linked G c S) : Linked G c.insideLoop S :=
  ⟨h.strict,h.proper,h.slots,h.records,h.result,h.targets,h.hosts⟩

/-- Calls apart, the form of an expression tells whether it leaves a value; a call does unless its type
is that of nothing. -/
theorem pushes_eq_leaves (h : Linked G c S) (e : Expr) (he : e.Every (rule S) l) (hne : e.type ≠ some .void) :
    pushes c e = e.leaves := by
  cases e with
  | call n f args =>
    cases f with
    | user f =>
      obtain ⟨ts,-,sig,hsig,-,htype⟩ := (he.1.2 h.strict).2
      obtain ⟨t,ht,hsigt,-⟩ := h.targets f sig hsig
      have hsome : sig.result ≠ none := by
        intro hnone
        rw [hnone] at htype
        exact hne htype
      obtain ⟨r,hr⟩ := Option.ne_none_iff_exists'.mp hsome
      simp [pushes, Expr.leaves, ht, hsigt, signature, hr]
    | host f =>
      obtain ⟨ts,-,-,-,htype⟩ := (he.1.2 h.strict).2
      have hsome : f.result ≠ none := by
        intro hnone
        rw [hnone] at htype
        exact hne htype
      obtain ⟨r,hr⟩ := Option.ne_none_iff_exists'.mp hsome
      simp [pushes, Expr.leaves, hr]
    | _ => rfl
  | block n ss tail d =>
    cases tail with
    | none => rfl
    | some e =>
      have htype : n.type = e.type := (he.1.2 h.strict).2
      exact pushes_eq_leaves h e he.2.2 fun hv => hne (htype.trans hv)
  | select n => obtain ⟨_,_ | t⟩ := n <;> rfl
  | _ => rfl

theorem leaves_of_type {t : Ty} (e : Expr) (he : e.Every (rule S) l) (hs : S.strict) (ht : e.type = some t)
    (hv : t ≠ .void) (hh : t ≠ .hole) : e.leaves = true := by
  cases e with
  | block n ss tail d =>
    cases tail with
    | some e =>
      have htype : n.type = e.type := (he.1.2 hs).2
      exact leaves_of_type e he.2.2 hs (htype.symm.trans ht) hv hh
    | none =>
      have htype : n.type = some (if d = true then .hole else .void) := (he.1.2 hs).2
      have heq := Option.some.inj (htype.symm.trans ht)
      cases d
      · exact absurd heq.symm hv
      · exact absurd heq.symm hh
  | select n =>
    obtain ⟨_,_ | u⟩ := n
    · cases ht
    · cases ht
      simp [Expr.leaves, hv, hh]
  | _ => rfl

end Covenant.Lower
