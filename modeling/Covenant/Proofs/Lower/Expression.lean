import Covenant.Proofs.Lower.Lowering

/-! The code of expressions, one form at a time. -/

namespace Covenant.Lower

open Wasm Typing

variable {G : List FuncType} {g : List Global} {S : Site} {c : Context} {l : Bool} {e : Expr}
variable {t u : Ty} {i : Nat} {x : String} {ts : List Ty} {ca : M (List Instr)}

def left (c : Context) (e : Expr) : List ValType :=
  if pushes c e then [(e.type.getD .void).valType] else []

/-- Code that leaves a value of a machine type, wherever it stands. -/
def Leaves (G : List FuncType) (g : List Global) (S : Site) (c : Context) (vs : List ValType)
    (T : List ValType) (code : List Instr) : Prop :=
  ∀ L, c.Labels L → Typed (scope G g S T) L code [] vs

def ExprCode (G : List FuncType) (g : List Global) (S : Site) (c : Context) (e : Expr)
    (T : List ValType) (code : List Instr) : Prop :=
  Leaves G g S c (left c e) T code ∧
    (e.stops = true → ∀ L, c.Labels L → Stops (scope G g S T) L code)

def ExprLowers (G : List FuncType) (g : List Global) (S : Site) (c : Context) (e : Expr) : Prop :=
  Lowers (expr c e) (ExprCode G g S c e)

theorem left_of_type (hp : pushes c e = true) (ht : e.type = some t) : left c e = [t.valType] := by
  rw [left,if_pos hp,ht]
  rfl

theorem left_of_stops (h : pushes c e = false) : left c e = [] := by
  rw [left,if_neg (by simp [h])]

variable {a : Expr} {args es : List Expr} {is js : List Instr} {T vs : List ValType} {n : Note}

theorem locals_slot (h : S.slots[i]? = some t) : (scope G g S T).locals[i]? = some t.valType := by
  have hlt : i < (S.slots.map Ty.valType).length := by
    rw [List.length_map]
    exact (List.getElem?_eq_some_iff.mp h).1
  show (S.slots.map Ty.valType ++ T)[i]? = _
  rw [List.getElem?_append_left hlt,List.getElem?_map,h]
  rfl

/-- Where a value of type `t` is wanted and the place is settled, it is left there. -/
theorem ExprLowers.fit (h : ExprLowers G g S c e) (hc : Linked G c S) (he : e.Every (rule S) l)
    (hu : e.type = some u) (hvoid : u ≠ .void) (hs : Settles t e)
    (hval : t ≠ .hole → u ≠ .hole → u.valType = t.valType) : Lowers (expr c e) (Leaves G g S c [t.valType]) := by
  have hpushes : pushes c e = e.leaves :=
    pushes_eq_leaves hc e he fun hv => hvoid (Option.some.inj (hu.symm.trans hv))
  have hleaves (hl : e.leaves = true) (hval : u.valType = t.valType) : left c e = [t.valType] := by
    rw [left_of_type (hpushes.trans hl) hu,hval]
  refine Lowers.weaken h fun T code hcode => ?_
  by_cases hopen : t = .hole ∨ e.type = some .hole
  · rcases hs hopen with hstops | ⟨hl,hval⟩
    · exact fun L hL => hcode.2 hstops L hL _ _
    · rw [hu] at hval
      exact hleaves hl (Option.some.inj hval) ▸ hcode.1
  · rw [not_or] at hopen
    have hne : u ≠ .hole := fun hh => hopen.2 (hu.trans (congrArg some hh))
    exact hleaves (leaves_of_type e he hc.strict hu hvoid hne) (hval hopen.1 hne) ▸ hcode.1

theorem ExprLowers.use (h : ExprLowers G g S c e) (hc : Linked G c S) (he : e.Every (rule S) l) (ht : t ≠ .error)
    (hg : Gives e t) (hs : Settles t e) : Lowers (expr c e) (Leaves G g S c [t.valType]) := by
  obtain ⟨u,hu,hvoid,hcompat⟩ := hg
  refine h.fit hc he hu hvoid hs fun hth huh => ?_
  exact (Ty.valType_of_compatible hcompat hth ht huh (ne_error_of_every he hc.strict hu)).1.symm

theorem ExprLowers.value (h : ExprLowers G g S c e) (hc : Linked G c S) (he : e.Every (rule S) l)
    (ht : e.type = some t) (hvoid : t ≠ .void) (hhole : t ≠ .hole) :
    Lowers (expr c e) (Leaves G g S c [t.valType]) := by
  refine h.use hc he (ne_error_of_every he hc.strict ht) ⟨t,ht,hvoid,Ty.compatible_refl t⟩ fun hopen => ?_
  rcases hopen with hh | hh
  · exact absurd hh hhole
  · exact absurd (Option.some.inj (ht.symm.trans hh)) hhole

theorem ExprCode.of_leaves {code : List Instr} (hp : pushes c e = true) (hs : e.stops = false) (ht : e.type = some t)
    (h : Leaves G g S c [t.valType] T code) : ExprCode G g S c e T code :=
  ⟨left_of_type hp ht ▸ h,fun hstops => by rw [hs] at hstops; cases hstops⟩

theorem valType_of_word (h : (t.isNumeric || t.isEnum) = true) : t.valType = .i64 := by
  cases t <;> first | rfl | cases h

theorem int_lowers {v : Int} (hc : Linked G c S) (he : (Expr.int n v).Every (rule S) l) :
    ExprLowers G g S c (.int n v) := by
  obtain ⟨t,ht,hword⟩ := (he.2 hc.strict).2
  refine .pure fun T => .of_leaves rfl rfl ht fun L _ => ?_
  rw [valType_of_word hword]
  exact .i64 v

theorem bool_lowers {b : Bool} (hc : Linked G c S) (he : (Expr.bool n b).Every (rule S) l) :
    ExprLowers G g S c (.bool n b) :=
  .pure fun _ => .of_leaves rfl rfl (he.2 hc.strict).2 fun _ _ => .i32 _

theorem text_lowers {s : String} (hc : Linked G c S) (he : (Expr.text n s).Every (rule S) l) :
    ExprLowers G g S c (.text n s) :=
  .bind (intern_lowers s) fun _ => .pure fun _ _ =>
    .of_leaves rfl rfl (he.2 hc.strict).2 fun _ _ => .i32 _

theorem enum_lowers {o v : String} {tag : Option Nat} (hc : Linked G c S)
    (he : (Expr.enum n o v tag).Every (rule S) l) : ExprLowers G g S c (.enum n o v tag) := by
  obtain ⟨d,-,ht⟩ := (he.2 hc.strict).2
  cases tag with
  | none => exact .throw _
  | some tag => exact .pure fun _ => .of_leaves rfl rfl ht fun _ _ => .i64 _

theorem noneLit_lowers (hc : Linked G c S) (he : (Expr.noneLit n).Every (rule S) l) :
    ExprLowers G g S c (.noneLit n) := by
  refine .bind (temp_lowers hc.slots G g .i32) fun a => .pure fun T ha => ?_
  refine .of_leaves rfl rfl (he.2 hc.strict).2 fun L _ => ?_
  exact (variantCode_typed rfl ha 0).append (.get ha)

theorem value_lowers {v : Value} (h : v.HasType t) : Lowers (value v) (Leaves G g S c [t.valType]) := by
  cases v with
  | int n => exact .pure fun _ _ _ => valType_of_word h ▸ .i64 n
  | bool b =>
    cases h
    exact .pure fun _ _ _ => .i32 _
  | text s =>
    cases h
    exact .bind (intern_lowers s) fun _ => .pure fun _ _ _ _ => .i32 _

theorem name_lowers {sym : Option Symbol} (hc : Linked G c S) (he : (Expr.name n x sym).Every (rule S) l) :
    ExprLowers G g S c (.name n x sym) := by
  obtain ⟨s,rfl,ht,hs⟩ := he.1
  refine Lowers.weaken ?_ fun T code hcode => ExprCode.of_leaves rfl rfl ht hcode
  obtain ⟨x',t,m,k,slot,v⟩ := s
  rcases hs with ⟨hk,i,hi,hslot⟩ | ⟨hk,-,-,-,hvalue⟩
  · cases hi
    have hget : Lowers (do return [.get (← orGap .slot (some i))] : M (List Instr))
        (Leaves G g S c [t.valType]) :=
      .bind (.orGap _ _) fun j => .pure fun T hj L _ => by
        cases hj
        exact .get (locals_slot hslot)
    cases k with
    | constant => exact absurd rfl hk
    | _ => exact hget
  · cases hk
    obtain ⟨v,hv,htype⟩ := hvalue hc.strict
    cases hv
    exact value_lowers htype

theorem Leaves.append {ws : List ValType} (hi : Leaves G g S c vs T is)
    (hj : Leaves G g S c ws T js) : Leaves G g S c (vs ++ ws) T (is ++ js) := by
  intro L hL
  have hframe := (hj L hL).frame vs
  rw [List.append_nil] at hframe
  exact (hi L hL).append hframe

theorem Leaves.then {ws : List ValType} (hi : Leaves G g S c vs T is)
    (hj : ∀ L, Typed (scope G g S T) L js vs ws) : Leaves G g S c ws T (is ++ js) :=
  fun L hL => (hi L hL).append (hj L)

theorem Leaves.keep {t : ValType} (hi : Leaves G g S c [t] T is) (ht : (scope G g S T).locals[i]? = some t)
    (hj : Leaves G g S c vs T js) : Leaves G g S c vs T (is ++ Instr.set i :: js) :=
  fun L hL => (hi L hL).append (.cons (.set ht) (hj L hL))

theorem unary_lowers {op : UnaryOp} (hc : Linked G c S) (he : e.Every (rule S) l)
    (h : Sound S (.unary n op e)) (ih : ExprLowers G g S c e) : ExprLowers G g S c (.unary n op e) := by
  obtain ⟨t,r,ht,hr,hn⟩ := h
  simp only [UnaryOp.type?, if_neg (ne_error_of_every he hc.strict ht)] at hr
  cases op with
  | neg =>
    obtain ⟨hnum,hr⟩ := Option.ite_none_right_eq_some.mp hr
    cases hr
    have hcode := ih.value hc he ht (by rintro rfl; cases hnum) (by rintro rfl; cases hnum)
    refine .bind hcode fun code => .pure fun T hcode => .of_leaves rfl rfl hn ?_
    rw [Ty.valType_of_isNumeric hnum] at hcode ⊢
    exact Leaves.then (.append (fun _ _ => .i64 0) hcode) fun _ => .num .i64Sub
  | not =>
    obtain ⟨rfl,hr⟩ := Option.ite_none_right_eq_some.mp hr
    cases hr
    have hcode := ih.value hc he ht (by simp) (by simp)
    exact .bind hcode fun code => .pure fun T hcode =>
      .of_leaves rfl rfl hn (hcode.then fun _ => .num .i32Eqz)

theorem equals_lowers (t : Ty) : Lowers (equals t) fun _ i =>
    ∀ (E : BodyScope) (L : List (List ValType)) (s : Stack),
      check E L i (s.push [t.valType, t.valType]) = some (s.push [.i32]) := by
  unfold equals
  split
  · rename_i hword
    exact .pure fun _ E L s => by rw [valType_of_word hword]; rfl
  · split
    · rename_i hbool
      subst hbool
      exact .pure fun _ E L s => rfl
    · split
      · rename_i htext
        rw [Bool.or_eq_true,decide_eq_true_iff,decide_eq_true_iff] at htext
        rcases htext with rfl | rfl <;> exact .pure fun _ E L s => rfl
      · exact .throw _

theorem operator_lowers {op : BinaryOp} {s r : Ty} (h : op.type? s t = some r) (hs : s ≠ .error) (ht : t ≠ .error)
    (hand : op ≠ .and) (hor : op ≠ .or) :
    Lowers (operator op (some s)) fun _ code => ∀ (E : BodyScope) (L : List (List ValType)),
      Typed E L code [s.valType, t.valType] [r.valType] := by
  have hequal (hs1 : s.isScalar = true) (ht1 : t.isScalar = true) (hcompat : s.compatible t = true) :
      s.valType = t.valType :=
    (Ty.valType_of_compatible hcompat (by rintro rfl; cases hs1) hs (by rintro rfl; cases ht1) ht).1
  have htakes := BinaryOp.takes_of_type? h hs ht
  cases op with
  | and => exact absurd rfl hand
  | or => exact absurd rfl hor
  | concat =>
    obtain ⟨rfl,rfl,rfl⟩ := htakes
    exact .pure fun _ E L => .routine .concat
  | eq =>
    obtain ⟨⟨hs1,ht1⟩,hcompat,rfl⟩ := htakes
    refine .known (.bind (equals_lowers s) fun i => .pure fun _ hi E L => ?_)
    rw [← hequal hs1 ht1 hcompat]
    exact .of_check (hi E L)
  | ne =>
    obtain ⟨⟨hs1,ht1⟩,hcompat,rfl⟩ := htakes
    refine .known (.bind (equals_lowers s) fun i => .pure fun _ hi E L => ?_)
    rw [← hequal hs1 ht1 hcompat]
    exact .cons (.of_check (hi E L)) (.num .i32Eqz)
  | lt | gt | le | ge =>
    obtain ⟨hs1,ht1,rfl⟩ := htakes
    rw [Ty.valType_of_isNumeric hs1,Ty.valType_of_isNumeric ht1]
    exact .pure fun _ E L => .num _
  | _ =>
    obtain ⟨hs1,ht1,rfl⟩ := htakes
    rw [Ty.valType_of_isNumeric hs1,Ty.valType_of_isNumeric ht1]
    refine .pure fun _ E L => ?_
    split <;> exact .num _

theorem binary_lowers {op : BinaryOp} {b : Expr} (hc : Linked G c S)
    (ha : a.Every (rule S) l) (hb : b.Every (rule S) l) (h : Sound S (.binary n op a b))
    (iha : ExprLowers G g S c a) (ihb : ExprLowers G g S c b)
    (ihb' : ExprLowers G g S (c.inside 1) b) : ExprLowers G g S c (.binary n op a b) := by
  obtain ⟨s,t,r,hs,ht,hr,hn⟩ := h
  have hs1 := ne_error_of_every ha hc.strict hs
  have ht1 := ne_error_of_every hb hc.strict ht
  by_cases hlogic : op = .and ∨ op = .or
  · have hbool : s = .boolean ∧ t = .boolean ∧ r = .boolean := by
      rcases hlogic with rfl | rfl <;> exact BinaryOp.takes_of_type? hr hs1 ht1
    obtain ⟨rfl,rfl,rfl⟩ := hbool
    have hx := iha.value hc ha hs (by simp) (by simp)
    have hy := ihb'.value (hc.inside 1) hb ht (by simp) (by simp)
    rcases hlogic with rfl | rfl
    · refine .bind hx fun x => .bind hy fun y => .pure fun T hy hx => .of_leaves rfl rfl hn ?_
      exact fun L hL => (hx L hL).append (.cond (b := some .i32) (hy _ (hL.inside [.i32])) (.i32 0))
    · refine .bind hx fun x => .bind hy fun y => .pure fun T hy hx => .of_leaves rfl rfl hn ?_
      exact fun L hL => (hx L hL).append (.cond (b := some .i32) (.i32 1) (hy _ (hL.inside [.i32])))
  · rw [not_or] at hlogic
    have hexpr : expr c (.binary n op a b) =
        (do return (← expr c a) ++ (← expr c b) ++ (← operator op a.type)) := by
      cases op <;> first | rfl | simp at hlogic
    have hvalue : s ≠ .void ∧ s ≠ .hole ∧ t ≠ .void ∧ t ≠ .hole := by
      obtain ⟨hleft,hright⟩ := (BinaryOp.takes_of_type? hr hs1 ht1).isScalar
      refine ⟨?_,?_,?_,?_⟩ <;> rintro rfl
      · cases hleft
      · cases hleft
      · cases hright
      · cases hright
    rw [ExprLowers,hexpr,hs]
    refine .bind (iha.value hc ha hs hvalue.1 hvalue.2.1) fun x =>
      .bind (ihb.value hc hb ht hvalue.2.2.1 hvalue.2.2.2) fun y => ?_
    refine .bind (operator_lowers hr hs1 ht1 hlogic.1 hlogic.2) fun o => .pure fun T ho hy hx => ?_
    exact .of_leaves rfl rfl hn ((hx.append hy).then (ho _))

theorem left_of_result {r : Option Ty} (hp : pushes c e = r.isSome) (ht : e.type = some (r.getD .void)) :
    left c e = r.toList.map Ty.valType := by
  cases r with
  | none => exact left_of_stops hp
  | some t => exact left_of_type hp ht

theorem exprs_lowers (h : List.Forall₂ (fun t e => Lowers (expr c e) (Leaves G g S c [t.valType])) ts es) :
    Lowers (exprs c es) (Leaves G g S c (ts.map Ty.valType)) := by
  induction h with
  | nil => exact .pure fun _ _ _ => .nil
  | cons he _ ih => exact .bind he fun x => .bind ih fun xs => .pure fun T hxs hx => hx.append hxs

theorem args_lower {params : List Ty} (hc : Linked G c S) (hargs : Args args ts)
    (hfit : List.Forall₂ (fun t u => t.compatible u = true) params ts) (hs : List.Forall₂ Settles params args)
    (hp : ∀ t ∈ params, t ≠ .error) (he : ∀ e ∈ args, e.Every (rule S) l ∧ ExprLowers G g S c e) :
    Lowers (exprs c args) (Leaves G g S c (params.map Ty.valType)) := by
  refine exprs_lowers ?_
  obtain ⟨htypes,hvoid⟩ := hargs
  induction hs generalizing ts with
  | nil => exact .nil
  | cons hsettles _ ih =>
    cases hfit with
    | cons hcompat hfit =>
      obtain ⟨htype,htypes⟩ := List.cons.inj htypes
      rw [List.mem_cons,not_or] at hvoid
      rw [List.forall_mem_cons] at hp he
      refine .cons ?_ (ih hfit hp.2 he.2 htypes hvoid.2)
      exact he.1.2.use hc he.1.1 hp.1 ⟨_,htype,Ne.symm hvoid.1,hcompat⟩ hsettles

theorem userCall_lowers {f : String} (hc : Linked G c S)
    (h : Sound S (.call n (.user f) args)) (hs : (settled S).expr (.call n (.user f) args))
    (he : ∀ e ∈ args, e.Every (rule S) l ∧ ExprLowers G g S c e) :
    ExprLowers G g S c (.call n (.user f) args) := by
  obtain ⟨ts,hargs,sig,hsig,hfit,hn⟩ := h
  obtain ⟨t,ht,htype,hG⟩ := hc.targets f sig hsig
  have hparams : ∀ t ∈ sig.params, t ≠ .error := fun t ht =>
    Ty.ne_error_of_isSolid (Ty.isSolid_of_isProper (hc.proper.params sig (List.mem_of_find?_eq_some hsig) t ht))
  refine .bind (args_lower hc hargs hfit (hs sig hsig) hparams he) fun code => ?_
  refine .bind (.orGap _ _) fun t' => .pure fun T ht' hcode => ?_
  cases ht.symm.trans ht'
  refine ⟨?_,nofun⟩
  have hp : pushes c (.call n (.user f) args) = sig.result.isSome := by
    rw [pushes,ht,Option.map_some,htype]
    cases sig.result <;> rfl
  rw [left_of_result hp hn]
  exact hcode.then fun L => .op (hG.trans (congrArg some htype))

theorem hostCall_lowers {f : HostFunction} (hc : Linked G c S)
    (h : Sound S (.call n (.host f) args)) (hs : (settled S).expr (.call n (.host f) args))
    (he : ∀ e ∈ args, e.Every (rule S) l ∧ ExprLowers G g S c e) :
    ExprLowers G g S c (.call n (.host f) args) := by
  obtain ⟨ts,hargs,hf,hfit,hn⟩ := h
  have hparams : ∀ h ∈ HostFunction.all, ∀ t ∈ h.params, t ≠ .error := by decide
  refine .bind (args_lower hc hargs hfit hs (hparams f hf) he) fun code => ?_
  refine .bind (.orGap _ _) fun i => .pure fun T hi hcode => ⟨?_,nofun⟩
  rw [left_of_result (e := .call n (.host f) args) rfl hn]
  exact hcode.then fun L => .op (hc.hosts f hf i hi)

theorem args_ne_error (h : Args args ts) (he : ∀ e ∈ args, e.Every (rule S) l) (hs : S.strict) : .error ∉ ts := by
  intro hmem
  have hnone : some Ty.error ∈ args.map (·.type) := h.1 ▸ List.mem_map_of_mem hmem
  obtain ⟨e,hmem,htype⟩ := List.mem_map.mp hnone
  exact ne_error_of_every (he e hmem) hs htype rfl

theorem element_ne_error (h : a.Every (rule S) l) (hs : S.strict) (ht : a.type = some (.array t)) : t ≠ .error := by
  rcases solid_of_every h hs ht with hv | hsolid
  · cases hv
  · exact Ty.ne_error_of_isSolid hsolid

def itemType (t u : Ty) : Ty := if t.hasHole then u else t

theorem elementType_eq (t u : Ty) : elementType (some (.array t)) (some u) = pure (itemType t u) := by
  show (if t.hasHole then pure u else pure t : M Ty) = _
  rw [itemType]
  split <;> rfl

theorem item_lowers {item : Expr} (hc : Linked G c S) (he : item.Every (rule S) l) (ih : ExprLowers G g S c item)
    (ha : a.type = some (.array t)) (hu : item.type = some u) (hvoid : u ≠ .void) (hcompat : t.compatible u = true)
    (ht : t ≠ .error) (hs : SettledArgs (a :: item :: es)) :
    Lowers (expr c item) (Leaves G g S c [(itemType t u).valType]) := by
  have hsettled := hs t ha
  rw [itemType]
  split at hsettled
  · rw [if_pos ‹_›]
    exact ih.use hc he (ne_error_of_every he hc.strict hu) ⟨u,hu,hvoid,Ty.compatible_refl u⟩
      (hsettled u hu)
  · rw [if_neg ‹_›]
    exact ih.use hc he ht ⟨u,hu,hvoid,hcompat⟩ hsettled

theorem push_lowers {ci : M (List Instr)} (hc : Linked G c S) (ha : Lowers ca (Leaves G g S c [.i32]))
    (hi : Lowers ci (Leaves G g S c [(itemType t u).valType])) :
    Lowers (push c ⟨some (.array t), ca⟩ ⟨some u, ci⟩) (Leaves G g S c [.i64]) := by
  rw [push,elementType_eq,pure_bind]
  refine .bind (temp_lowers hc.slots G g .i32) fun a =>
    .bind (temp_lowers hc.slots G g (itemType t u).valType) fun v =>
    .bind (temp_lowers hc.slots G g .i32) fun n => .bind ha fun x => .bind hi fun y =>
    .pure fun T hy hx hn hv ha => ?_
  rw [List.append_assoc]
  exact hx.keep ha (hy.keep hv fun L _ => pushCode_typed rfl ha hv hn)

theorem pop_lowers {t : Option Ty} (hc : Linked G c S) (ha : Lowers ca (Leaves G g S c [.i32])) :
    Lowers (pop c ⟨t, ca⟩) (Leaves G g S c [.i32]) := by
  refine .bind (temp_lowers hc.slots G g .i32) fun a => .bind (temp_lowers hc.slots G g .i32) fun n =>
    .bind (temp_lowers hc.slots G g .i32) fun out => .bind ha fun x => .pure fun T hx ho hn ha => ?_
  exact hx.keep ha fun L _ => popCode_typed rfl ha hn ho

theorem contains_lowers {ci : M (List Instr)} (hc : Linked G c S) (ha : Lowers ca (Leaves G g S c [.i32]))
    (hi : Lowers ci (Leaves G g S c [(itemType t u).valType])) :
    Lowers (contains c ⟨some (.array t), ca⟩ ⟨some u, ci⟩) (Leaves G g S c [.i32]) := by
  rw [contains,elementType_eq,pure_bind]
  refine .bind (temp_lowers hc.slots G g .i32) fun a =>
    .bind (temp_lowers hc.slots G g (itemType t u).valType) fun v =>
    .bind (temp_lowers hc.slots G g .i32) fun i => .bind (temp_lowers hc.slots G g .i32) fun found =>
    .bind ha fun x => .bind hi fun y => .bind (equals_lowers (itemType t u)) fun same =>
    .pure fun T hsame hy hx hf hi hv ha => ?_
  rw [List.append_assoc]
  exact hx.keep ha (hy.keep hv fun L _ => containsCode_typed rfl ha hv hi hf (hsame _))

theorem builtin_lowers {b : Builtin} {r : Ty} (hc : Linked G c S) (hargs : Args args ts) (hr : b.result ts = .ok r)
    (hs : SettledArgs args) (he : ∀ e ∈ args, e.Every (rule S) l ∧ ExprLowers G g S c e) :
    Lowers (builtin c b (operands c args)) (Leaves G g S c [r.valType]) := by
  have hts := args_ne_error hargs (fun e hm => (he e hm).1) hc.strict
  have hinv := Builtin.takes_of_result hr hts
  have harray {a : Expr} {t : Ty} (ha : a ∈ args) (hat : a.type = some (.array t)) :=
    (he a ha).2.value hc (he a ha).1 hat (by simp) (by simp)
  have htext {a : Expr} (ha : a ∈ args) (hat : a.type = some .string) :=
    (he a ha).2.value hc (he a ha).1 hat (by simp) (by simp)
  cases b with
  | arrayLen =>
    obtain ⟨rfl,t,rfl⟩ := hinv
    obtain ⟨a,rfl,hat⟩ := hargs.one
    exact .bind (harray List.mem_cons_self hat) fun x => .pure fun T hx =>
      hx.then fun L => .cons (.load rfl .i32 _) (.num .i64ExtendI32U)
  | stringLen =>
    obtain ⟨rfl,rfl⟩ := hinv
    obtain ⟨a,rfl,hat⟩ := hargs.one
    exact .bind (htext List.mem_cons_self hat) fun x => .pure fun T hx =>
      hx.then fun L => .cons (.load rfl .i32 _) (.num .i64ExtendI32U)
  | stringConcat =>
    obtain ⟨rfl,rfl⟩ := hinv
    obtain ⟨a,b,rfl,hat,hbt⟩ := hargs.two
    exact .bind (htext (by simp) hat) fun x => .bind (htext (by simp) hbt) fun y =>
      .pure fun T hy hx => (hx.append hy).then fun L => .routine .concat
  | arrayPop =>
    obtain ⟨t,rfl,rfl⟩ := hinv
    obtain ⟨a,rfl,hat⟩ := hargs.one
    exact pop_lowers hc (harray List.mem_cons_self hat)
  | arrayPush =>
    obtain ⟨rfl,t,u,rfl,hcompat⟩ := hinv
    obtain ⟨a,b,rfl,hat,hbt⟩ := hargs.two
    have hitem := item_lowers hc (he b (by simp)).1 (he b (by simp)).2 hat hbt
      (by rintro rfl; simpa using hargs.2) hcompat (element_ne_error (he a (by simp)).1 hc.strict hat) hs
    show Lowers (push c ⟨a.type, _⟩ ⟨b.type, _⟩) _
    rw [hat,hbt]
    exact push_lowers hc (harray (by simp) hat) hitem
  | arrayContains =>
    obtain ⟨rfl,t,u,rfl,hcompat,-⟩ := hinv
    obtain ⟨a,b,rfl,hat,hbt⟩ := hargs.two
    have hitem := item_lowers hc (he b (by simp)).1 (he b (by simp)).2 hat hbt
      (by rintro rfl; simpa using hargs.2) hcompat (element_ne_error (he a (by simp)).1 hc.strict hat) hs
    show Lowers (contains c ⟨a.type, _⟩ ⟨b.type, _⟩) _
    rw [hat,hbt]
    exact contains_lowers hc (harray (by simp) hat) hitem

theorem elements_lower {a : Nat} (hc : Linked G c S) (hargs : Args es ts)
    (he : ∀ e ∈ es, e.Every (rule S) l ∧ ExprLowers G g S c e) (hs : ∀ e ∈ es, e.Settled) :
    Lowers (elements c a i es) fun T code =>
      (scope G g S T).locals[a]? = some .i32 → Leaves G g S c [] T code := by
  induction es generalizing ts i with
  | nil => exact .pure fun _ _ _ _ => .nil
  | cons e es ih =>
    rw [List.forall_mem_cons] at he hs
    obtain ⟨t,ts,rfl,ht,hts⟩ := List.map_eq_cons_iff.mp hargs.1.symm
    have htype : e.type = some t := ht.symm
    have hvoid := hargs.2
    rw [List.mem_cons,not_or] at hvoid
    have hcode := he.1.2.use hc he.1.1 (ne_error_of_every he.1.1 hc.strict htype)
      ⟨t,htype,Ne.symm hvoid.1,Ty.compatible_refl t⟩ (hs.1 t htype)
    refine .bind hcode fun x => ?_
    rw [htype]
    refine .known (.bind (ih ⟨hts.symm,hvoid.2⟩ he.2 hs.2) fun xs => .pure fun T hxs hx ha => ?_)
    have hget : Leaves G g S c ([ValType.i32] ++ [t.valType]) T (Instr.get a :: x) :=
      Leaves.append (fun _ _ => .get ha) hx
    exact fun L hL => (hget L hL).append (.cons (.store rfl t.valType _) (hxs ha L hL))

theorem array_lowers (hc : Linked G c S) (h : Sound S (.array n es))
    (he : ∀ e ∈ es, e.Every (rule S) l ∧ ExprLowers G g S c e) (hs : ∀ e ∈ es, e.Settled) :
    ExprLowers G g S c (.array n es) := by
  obtain ⟨⟨t,ht⟩,ts,hargs⟩ := h
  refine .bind (temp_lowers hc.slots G g .i32) fun a =>
    .bind (elements_lower hc hargs he hs) fun code => .pure fun T hcode ha => ?_
  refine .of_leaves rfl rfl ht fun L hL => ?_
  exact ((arrayCode_typed rfl ha _ _).append (hcode ha L hL)).append (.get ha)

theorem elementAddress_lowers {i : Expr} (hc : Linked G c S) (ha : a.Every (rule S) l) (hi : i.Every (rule S) l)
    (iha : ExprLowers G g S c a) (ihi : ExprLowers G g S c i) (ht : a.type = some (.array t)) (hu : i.type = some u)
    (hnum : u.isNumeric = true) : Lowers (elementAddress c (expr c a) (expr c i)) (Leaves G g S c [.i32]) := by
  have hx := iha.value hc ha ht (by simp) (by simp)
  have hy := ihi.value hc hi hu (by rintro rfl; cases hnum) (by rintro rfl; cases hnum)
  rw [Ty.valType_of_isNumeric hnum] at hy
  refine .bind (temp_lowers hc.slots G g .i32) fun j => .bind (temp_lowers hc.slots G g .i64) fun k =>
    .bind hx fun x => .bind hy fun y => .pure fun T hy hx hk hj => ?_
  rw [List.append_assoc]
  exact hx.keep hj (hy.keep hk fun L _ => elementCode_typed rfl hj hk)

theorem index_lowers {i : Expr} (hc : Linked G c S) (ha : a.Every (rule S) l)
    (hi : i.Every (rule S) l) (iha : ExprLowers G g S c a) (ihi : ExprLowers G g S c i)
    (h : Sound S (.index n a i)) : ExprLowers G g S c (.index n a i) := by
  obtain ⟨t,u,hat,hu,hnum,hn⟩ := h
  refine .bind (elementAddress_lowers hc ha hi iha ihi hat hu hnum) fun x => ?_
  rw [hn]
  exact .known (.pure fun T hx => .of_leaves rfl rfl hn (hx.then fun L => .load rfl t.valType _))

theorem fieldOffset_lowers (t : Option Ty) (f : String) :
    Lowers (fieldOffset c t f) fun _ _ => True := by
  refine .bind (.orGap _ _) fun t => ?_
  split
  · refine .bind (.orGap _ _) fun d => ?_
    split
    · exact .pure fun _ _ _ => trivial
    · exact .throw _
  · exact .throw _

theorem field_lowers {f : String} (hc : Linked G c S) (he : e.Every (rule S) l)
    (ih : ExprLowers G g S c e) (h : Sound S (.field n e f)) : ExprLowers G g S c (.field n e f) := by
  obtain ⟨r,d,fd,het,-,-,hn⟩ := h
  refine .bind (ih.value hc he het (by simp) (by simp)) fun x => .bind (fieldOffset_lowers _ _) fun o => ?_
  rw [hn]
  exact .known (.pure fun T _ hx => .of_leaves rfl rfl hn (hx.then fun L => .load rfl fd.type.valType _))

theorem wrap_lowers {w : Wrapper} (hc : Linked G c S) (he : e.Every (rule S) l)
    (ih : ExprLowers G g S c e) (h : Sound S (.wrap n w e)) (hs : e.Settled) :
    ExprLowers G g S c (.wrap n w e) := by
  obtain ⟨t,ht,hvoid,hn⟩ := h
  have hcode := ih.use hc he (ne_error_of_every he hc.strict ht) ⟨t,ht,hvoid,Ty.compatible_refl t⟩ (hs t ht)
  refine .bind (temp_lowers hc.slots G g .i32) fun a => .bind hcode fun x => ?_
  rw [ht]
  refine .known (.pure fun T hx ha => .of_leaves rfl rfl hn fun L hL => ?_)
  have hval : (wrapType w t).valType = .i32 := by cases w <;> rfl
  have hget : Leaves G g S c ([ValType.i32] ++ [t.valType]) T (Instr.get a :: x) :=
    Leaves.append (fun _ _ => .get ha) hx
  rw [hval,List.append_assoc]
  exact (variantCode_typed rfl ha _).append
    ((hget L hL).append (.cons (.store rfl t.valType _) (.get ha)))

theorem fieldIndex_find {d : RecordDecl} {f : FieldDecl} (hi : d.fieldIndex? x = some i) (hf : d.fields[i]? = some f) :
    d.fields.find? (·.name = x) = some f := by
  obtain ⟨hlt,hname,hfirst⟩ := List.findIdx?_eq_some_iff_getElem.mp hi
  obtain ⟨-,rfl⟩ := List.getElem?_eq_some_iff.mp hf
  exact List.find?_eq_some_iff_getElem.mpr ⟨hname,i,hlt,rfl,fun j hj => by simpa using hfirst j hj⟩

theorem fields_lower {d : RecordDecl} {a : Nat} {fs : List FieldInit} (hc : Linked G c S)
    (hd : ∀ f ∈ d.fields, f.type ≠ .error)
    (h : ∀ f ∈ fs, ∃ fd, d.fields.find? (·.name = f.name) = some fd ∧ Gives f.value fd.type)
    (hs : ∀ f ∈ fs, ∀ fd, d.fields.find? (·.name = f.name) = some fd → Settles fd.type f.value)
    (he : ∀ f ∈ fs, f.value.Every (rule S) l ∧ ExprLowers G g S c f.value) :
    Lowers (fields c d a fs) fun T code =>
      (scope G g S T).locals[a]? = some .i32 → Leaves G g S c [] T code := by
  induction fs with
  | nil => exact .pure fun _ _ _ _ => .nil
  | cons f fs ih =>
    rw [List.forall_mem_cons] at he hs h
    obtain ⟨p,x,e⟩ := f
    obtain ⟨fd,hfd,hgives⟩ := h.1
    have hcode := he.1.2.use hc he.1.1 (hd fd (List.mem_of_find?_eq_some hfd)) hgives (hs.1 fd hfd)
    refine .bind hcode fun x => ?_
    split
    · exact .throw _
    · rename_i i hi
      refine .bind (.orGap _ _) fun f => .bind (ih h.2 hs.2 he.2) fun xs =>
        .pure fun T hxs hf hx ha => ?_
      cases hfd.symm.trans (fieldIndex_find hi hf)
      have hget : Leaves G g S c ([ValType.i32] ++ [fd.type.valType]) T (Instr.get a :: x) :=
        Leaves.append (fun _ _ => .get ha) hx
      exact fun L hL => (hget L hL).append (.cons (.store rfl fd.type.valType _) (hxs ha L hL))

theorem record_lowers {fs : List FieldInit} (hc : Linked G c S) (h : Sound S (.record n x fs))
    (hs : (settled S).expr (.record n x fs)) (he : ∀ f ∈ fs, f.value.Every (rule S) l ∧ ExprLowers G g S c f.value) :
    ExprLowers G g S c (.record n x fs) := by
  obtain ⟨d,hd,hn,hfs⟩ := h
  have hfields : ∀ f ∈ d.fields, f.type ≠ .error := fun f hf =>
    Ty.ne_error_of_isSolid (Ty.isSolid_of_isProper
      (hc.proper.fields d (List.mem_of_find?_eq_some hd) f hf))
  show Lowers (orGap .record (c.record? x) >>= _) _
  rw [hc.records,hd]
  refine .known (.bind (temp_lowers hc.slots G g .i32) fun a =>
    .bind (fields_lower hc hfields hfs (hs d hd) he) fun code => .pure fun T hcode ha => ?_)
  refine .of_leaves rfl rfl hn fun L hL => ?_
  exact (Typed.append (.cons (.i32 _) (.routine .alloc)) (.cons (.set ha) (hcode ha L hL))).append (.get ha)

end Covenant.Lower
