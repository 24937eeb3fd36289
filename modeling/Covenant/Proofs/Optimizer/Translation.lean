import Covenant.Proofs.Optimizer.Program

/-! What the formulas of guards say about every run of a function: an expression with a formula has the
value of the formula in any state and does nothing else, and the unknowns of formulas are the slots. So a
loop that is removed would not have run its body. -/

namespace Covenant

open Guard (Formula)
open Meaning (World State Host looks truth valueOf)
open Typing (Site rule)

namespace Optimize

variable {r : Prover} {w : World} {S : Site} {l : Bool}
variable {n : Note} {a b e : Expr} {op : BinaryOp}

def Clear (e : Expr) : Prop := e.literal? ≠ none ∨ Guard.Meaning.ofExpr? e ≠ none

theorem clear_unary {op : UnaryOp} (h : Clear (unary n op e).value) : Clear e := by
  unfold unary at h
  cases hf : e.literal?.bind (Value.foldUnary op) with
  | some v =>
    obtain ⟨a,ha,-⟩ := Option.bind_eq_some_iff.mp hf
    exact .inl (by simp [ha])
  | none =>
    rw [hf] at h
    rcases h with h | h
    · exact absurd rfl h
    · refine .inr fun he => h ?_
      show Guard.Meaning.ofExpr? (.unary n op e) = none
      rw [Guard.Meaning.ofExpr?,he]

/-- A literal that settles `&&` or `||` without the operand on its right. -/
def Settles (op : BinaryOp) (e : Expr) : Prop :=
  ∃ n, op = .and ∧ e = .bool n false ∨ op = .or ∧ e = .bool n true

theorem clear_shortCircuit (h : Clear (shortCircuit n op a b).value) : Clear a ∧ Clear b ∨ Settles op a := by
  unfold shortCircuit at h
  split at h
  · rename_i m c
    cases c with
    | false => exact .inr ⟨m,.inl ⟨rfl,rfl⟩⟩
    | true => exact .inl ⟨.inl nofun,h⟩
  · rename_i m c
    cases c with
    | true => exact .inr ⟨m,.inr ⟨rfl,rfl⟩⟩
    | false => exact .inl ⟨.inl nofun,h⟩
  · rcases h with h | h
    · exact absurd rfl h
    · replace h : Guard.Meaning.ofExpr? (.binary n op a b) ≠ none := h
      rw [Guard.Meaning.ofExpr?] at h
      refine .inl ⟨.inr fun ha => h (by rw [ha]),.inr fun hb => h ?_⟩
      rw [hb]
      cases Guard.Meaning.ofExpr? a <;> rfl

theorem clear_binary (h : Clear (binary n op a b).value) : Clear a ∧ Clear b ∨ Settles op a := by
  unfold binary at h
  split at h
  · rename_i x y hx hy
    exact .inl ⟨.inl (by simp [hx]),.inl (by simp [hy])⟩
  · exact clear_shortCircuit h

theorem expr_of_settles {c : Expr} (w : World) (h : Settles op a) :
    Meaning.expr w (.binary n op a b) = Meaning.expr w (.binary n op a c) := by
  obtain ⟨m,⟨rfl,rfl⟩ | ⟨rfl,rfl⟩⟩ := h <;> rfl

/-- An expression that becomes a literal or a formula keeps its meaning. Whether the chains inside it are
steady does not matter, since none of them is run. -/
theorem expr_same_of_clear (h : Fits r w S) : ∀ (e : Expr) (l : Bool), e.Every (rule S) l →
    Clear (expr r e).value → Meaning.expr w (expr r e).value = Meaning.expr w e
  | .int _ _, _, _, _ | .bool _ _, _, _, _ | .text _ _, _, _, _ | .noneLit _, _, _, _
  | .enum _ _ _ _, _, _, _ => rfl
  | .name n x sym, _, _, _ => name_same w n x sym
  | .unary n op e, l, he, hc => by
    refine (unary_same w n op _).trans ?_
    simp only [Meaning.expr, expr_same_of_clear h e l he.2 (clear_unary hc)]
  | .binary n op a b, l, ⟨_,ha,hb⟩, hc => by
    refine (binary_same w n op h.sized (expr_kept r a l ha).1 (expr_kept r b l hb).1).trans ?_
    rcases clear_binary hc with ⟨hca,hcb⟩ | hsettles
    · cases op <;>
        simp only [Meaning.expr, expr_same_of_clear h a l ha hca, expr_same_of_clear h b l hb hcb]
    · have hca : Clear (expr r a).value := by
        obtain ⟨m,⟨-,hbool⟩ | ⟨-,hbool⟩⟩ := hsettles <;> exact .inl (by simp [hbool, Expr.literal?])
      rw [expr_of_settles (c := b) w hsettles]
      cases op <;> simp only [Meaning.expr, expr_same_of_clear h a l ha hca]
  | .call .., _, _, hc | .method .., _, _, hc | .array .., _, _, hc | .index .., _, _, hc
  | .field .., _, _, hc | .record .., _, _, hc | .wrap .., _, _, hc | .select .., _, _, hc
  | .block _ _ none _, _, _, hc | .block _ _ (some _) _, _, _, hc => by
    rcases hc with hc | hc <;> exact absurd rfl hc

theorem clear_of_neverTrue {facts : List Formula} (h : neverTrue r facts e = true) : Clear e := by
  unfold neverTrue at h
  split at h
  · exact .inl nofun
  · split at h
    · rename_i f hf
      rw [Guard.formula?] at hf
      refine .inr fun he => ?_
      simp [he] at hf
    · cases h

theorem truth_of_removed (h : Fits r w S) {pos : Pos} {b : Block} (he : e.Every (rule S) l)
    (hgone : (stmt r (.loop pos e b)).value = []) (s : State) : truth (Meaning.expr w e) s = .done false s := by
  rw [stmt_loop_value] at hgone
  have hnever : neverTrue r [] (expr r e).value = true := by
    by_contra hfalse
    rw [if_neg hfalse] at hgone
    cases hgone
  have hholds : Holds [] s := rfl
  rw [← expr_same_of_clear h e l he (clear_of_neverTrue hnever)]
  exact truth_of_neverTrue h.prover h.types (expr_kept r e l he).1 (fun _ => hholds) hnever

theorem ofSlot?_of_name {x : String} {a : Symbol} {m : Guard.Meaning}
    (he : (Expr.name n x (some a)).Every (rule S) l) (hm : Guard.Meaning.ofExpr? (.name n x (some a)) = some m) :
    ∃ i t, a.slot = some i ∧ S.slots[i]? = some t ∧ Guard.Meaning.ofSlot? t i = some m := by
  obtain ⟨s,hs,hn,hsym⟩ := he.1
  cases hs
  obtain ⟨pos,type⟩ := n
  obtain ⟨y,t,free,kind,slot,v⟩ := a
  cases hn
  cases slot with
  | none => cases hm
  | some i =>
    rcases hsym with ⟨-,j,hj,ht⟩ | hconst
    · cases hj
      exact ⟨i,t,rfl,ht,hm⟩
    · cases hconst.2.2.1

theorem ofSlot?_inj {s t : Ty} {i j : Nat} {m : Guard.Meaning} (hi : Guard.Meaning.ofSlot? s i = some m)
    (hj : Guard.Meaning.ofSlot? t j = some m) : i = j := by
  cases s <;> cases hi <;> cases t <;> cases hj <;> rfl

def onExprs (P : Expr → Prop) : Rule := ⟨P, fun _ _ => True, fun _ => True⟩

/-- In any state an expression with a formula has the formula's value and leaves all as it was. -/
def Exact (w : World) (e : Expr) : Prop :=
  ∀ m, Guard.Meaning.ofExpr? e = some m →
    ∀ s : State, Meaning.expr w e s = .done (some (valueOf s.slots.plain m)) s

/-- Two names stand for the same unknown exactly if they have the same slot. -/
def Matched (e e' : Expr) : Prop :=
  ∀ n x a m n' x' a' m', e = .name n x (some a) → Guard.Meaning.ofExpr? e = some m →
    e' = .name n' x' (some a') → Guard.Meaning.ofExpr? e' = some m' → (m = m' ↔ a.slot = a'.slot)

/-- A loop that is removed has a condition that fails at once, so that it does nothing, whatever its
body is. -/
def Spared (r : Prover) (w : World) (x : Stmt) : Prop :=
  ∀ pos e b, x = .loop pos e b → (stmt r x).value = [] →
    ∀ s : State, truth (Meaning.expr w e) s = .done false s ∧
      ∀ b', Meaning.stmt w (.loop pos e b') s = .done () s

theorem exact_of_every (hw : w.types = S.slots) (he : e.Every (rule S) l) : Exact w e := by
  intro m hm s
  rw [Meaning.expr_ofExpr? hw e l m he hm]
  rfl

theorem matched_of_every {e' : Expr} {l' : Bool} (he : e.Every (rule S) l) (he' : e'.Every (rule S) l') :
    Matched e e' := by
  rintro n x a m n' x' a' m' rfl hm rfl hm'
  obtain ⟨i,t,hi,ht,hmi⟩ := ofSlot?_of_name he hm
  obtain ⟨j,u,hj,hu,hmj⟩ := ofSlot?_of_name he' hm'
  rw [hi,hj]
  constructor
  · rintro rfl
    rw [ofSlot?_inj hmi hmj]
  · intro hij
    cases hij
    cases ht.symm.trans hu
    exact Option.some.inj (hmi.symm.trans hmj)

theorem spared_of_every (h : Fits r w S) {x : Stmt} (hx : x.Every (rule S) l) : Spared r w x := by
  rintro pos e b rfl hgone s
  have hfalse := truth_of_removed h hx.2.1 hgone
  refine ⟨hfalse s,fun b' => ?_⟩
  rw [Meaning.stmt,Meaning.whileLoop_of_false hfalse]
  rfl

theorem entails_onExprs {P : Expr → Prop} (h : ∀ {e l}, e.Every (rule S) l → P e) :
    (rule S).Entails (onExprs P) :=
  ⟨h,fun _ => trivial,fun _ _ => trivial⟩

theorem block_exact (hw : w.types = S.slots) {b : Block} (hb : b.Every (rule S) l) :
    b.Every (onExprs fun e => Exact w e ∧ b.Every (onExprs (Matched e)) l) l := by
  refine hb.entail (entails_onExprs fun he => ⟨exact_of_every hw he,?_⟩)
  exact hb.entail (entails_onExprs fun he' => matched_of_every he he')

end Optimize

open Optimize

/-- In a function of a checked program, and in what the optimiser makes of it, every expression with a
formula runs without a trap, leaves the slots, the heap and the calls to the host as they are, and has the
value of its formula under what the slots hold; names are the same unknown exactly if they have the same
slot. A loop that is removed on the word of a sound prover would never have run its body. -/
theorem Program.guards_translated_exactly (r : Prover) (hr : r.Sound) (policy : Policy) (p : Program)
    (hwritten : p.Written) (hsized : ∀ d ∈ p.enums, d.variants.length ≤ maxWord.toNat)
    (haccepted : (p.check policy).accepted = true)
    (d : FunctionDecl) (hd : d ∈ (p.check policy).program.functions) (host : Host) (capacity limit n : Nat) :
    let w := (p.check policy).program.world host capacity d.slots limit
      ((p.check policy).program.calls host capacity n)
    (∀ b ∈ [d.body, (Optimize.block r d.body).value],
      b.Every (onExprs fun e => Exact w e ∧ b.Every (onExprs (Matched e)) false) false) ∧
    d.body.Every ⟨fun _ => True, fun _ => Spared r w, fun _ => True⟩ false := by
  obtain ⟨htyped,henums⟩ := Program.check_typed haccepted
  have hfits := fits_world (p.check policy).program policy hr hwritten
    (fun d hd => hsized d (henums ▸ hd)) d host capacity limit n
  have hbody := (htyped.functions d hd).body
  refine ⟨?_,hbody.entail ⟨fun _ => trivial,spared_of_every hfits,fun _ _ => trivial⟩⟩
  intro b hb
  rcases List.mem_pair.mp hb with rfl | rfl
  · exact block_exact rfl hbody
  · exact block_exact rfl (block_kept r d.body false hbody)

/-- A function with a loop that runs while its parameter is both positive and not. -/
def torn : Program :=
  let pos : Pos := .unknown
  let note : Note := ⟨pos, none⟩
  let above : Expr := .binary note .gt (.name note "n" none) (.int note 0)
  ⟨pos, [.function ⟨pos, "run", [⟨pos, "n", .integer⟩], some .integer, .mk pos
    [.loop pos (.binary note .and above (.unary note .not above)) (.mk pos [.ret pos (some (.int note 1))]),
      .ret pos (some (.int note 2))], []⟩], none⟩

theorem torn_written : torn.Written where
  functions := by
    rintro f (_ | ⟨_,⟨⟩⟩)
    exact ⟨⟨by simp [Ty.isProper],by simp [Ty.isProper]⟩,
      by simp [Block.Every, Stmt.EveryIn, Stmt.Every, Expr.Every, written]⟩
  records := by rintro r ⟨⟩
  constants := by rintro c ⟨⟩

def denies : Prover
  | .and (.and f (.not g)) (.const true) => f = g
  | _ => false

theorem denies_sound : denies.Sound := by
  intro f hf v
  unfold denies at hf
  split at hf
  · rw [of_decide_eq_true hf]
    simp [Formula.eval]
  · cases hf

theorem guards_translated_exactly_torn :
    let q := (torn.check .warn).program
    (torn.check .warn).accepted = true ∧ (q.optimizeWith denies).savings = ⟨0, 1⟩ ∧
      ∃ d ∈ q.functions, ∃ pos e b rest, d.body.statements = .loop pos e b :: rest ∧
        (Optimize.stmt denies (.loop pos e b)).value = [] ∧
        ∀ (limit n : Nat) (s : State),
          truth (Meaning.expr (q.world quietHost 16 d.slots limit (q.calls quietHost 16 n)) e) s = .done false s := by
  refine ⟨by decide,by decide,_,.head _,_,_,_,_,rfl,by decide,fun limit n s => ?_⟩
  have hloops := (Program.guards_translated_exactly denies denies_sound .warn torn torn_written (by decide)
    (by decide) _ (.head _) quietHost 16 limit n).2
  exact (hloops.1.1 _ _ _ rfl (by decide) s).1

end Covenant
