import Covenant.Proofs.Lower.Mentions
import Covenant.Proofs.Lower.Program

/-! Lowering gives code that refers to what its tree refers to. Texts go into the pool as the code gets to
them, and an address once given stays that of its text. -/

namespace Covenant.Lower

open Wasm Memory

/-- What a step puts into the pool, and what comes out of it, for any pool that begins with that of the
step. -/
def Leads {α : Type} (m : M α) (ms : List Mention) (Q : Pool → α → Prop) : Prop :=
  ∀ s a s', m s = .ok (a, s') →
    s'.pool = s.pool.insertAll (textsOf ms) ∧ ∀ P : Pool, s'.pool.texts <+: P.texts → Q P a

namespace Leads

variable {α β : Type} {m : M α} {ms ns : List Mention} {Q : Pool → α → Prop} {R : Pool → β → Prop}

theorem pure {a : α} (h : ∀ P, Q P a) : Leads (Pure.pure a) [] Q := by
  intro s b s' hs
  cases hs
  exact ⟨rfl,fun P _ => h P⟩

theorem bind {f : α → M β} (hm : Leads m ms Q) (hf : ∀ a, Leads (f a) ns fun P b => Q P a → R P b) :
    Leads (m >>= f) (ms ++ ns) R := by
  intro s b s'' hs
  have hbind : (m s >>= fun r => f r.1 r.2) = .ok (b, s'') := hs
  cases hr : m s with
  | error e =>
    rw [hr] at hbind
    cases hbind
  | ok r =>
    obtain ⟨a,s'⟩ := r
    rw [hr] at hbind
    obtain ⟨hs',hQ⟩ := hm s a s' hr
    obtain ⟨hs'',hR⟩ := hf a s' b s'' hbind
    refine ⟨?_,fun P hP => hR P hP (hQ P ?_)⟩
    · rw [textsOf_append,Pool.insertAll_append,← hs',hs'']
    · have hgrown := Pool.prefix_insertAll s'.pool (textsOf ns)
      rw [← hs''] at hgrown
      exact hgrown.trans hP

theorem weaken {Q' : Pool → α → Prop} (hm : Leads m ms Q) (ht : textsOf ns = textsOf ms)
    (h : ∀ P a, Q P a → Q' P a) : Leads m ns Q' := by
  intro s a s' hs
  obtain ⟨hpool,hQ⟩ := hm s a s' hs
  exact ⟨ht ▸ hpool,fun P hP => h P a (hQ P hP)⟩

theorem map {f : α → β} (hm : Leads m ms Q) (h : ∀ P a, Q P a → R P (f a)) :
    Leads (do return f (← m)) ms R := by
  have hall : Leads (do return f (← m)) (ms ++ []) R := hm.bind fun a => pure fun P hQ => h P a hQ
  rwa [List.append_nil] at hall

theorem throw (e : Fault) : Leads (throw e : M α) ms Q := by
  intro s a s' hs
  cases hs

theorem orGap (g : Gap) (o : Option α) : Leads (orGap g o) [] fun _ a => o = some a := by
  cases o with
  | none => exact throw _
  | some a => exact pure fun _ => rfl

theorem temp (c : Context) (t : ValType) : Leads (temp c t) [] fun _ _ => True := by
  intro s a s' hs
  cases hs
  exact ⟨rfl,fun _ _ => trivial⟩

theorem intern (text : String) :
    Leads (intern text) [.text text] fun P a => text ∈ P.texts ∧ a = P.address text := by
  intro s a s' hs
  obtain ⟨rfl,rfl⟩ := intern_ok hs
  refine ⟨rfl,fun P hP => ?_⟩
  have hmem := Pool.mem_insert s.pool text
  exact ⟨hP.subset hmem,(Pool.address_of_prefix hP hmem).symm⟩

end Leads

def Emits (G : Linkage) (m : M (List Instr)) (ms : List Mention) : Prop :=
  Leads m ms fun P code => Shows G P ms code

variable {G : Linkage} {c : Context}

theorem elementCode_shows (P : Pool) (array index : Nat) :
    Shows G P [.word slotSize] (elementCode array index) :=
  .of_plain rfl

theorem pushCode_shows (P : Pool) (t : ValType) (array v n : Nat) :
    Shows G P [.word slotSize, .word 1] (pushCode t array v n) := by
  cases t <;> exact .of_plain rfl

theorem popCode_shows (P : Pool) (array n out : Nat) :
    Shows G P (newObject variantSize ++ [Mention.word 1, .word slotSize]) (popCode array n out) :=
  .of_plain rfl

theorem arrayCode_shows (P : Pool) (array count capacity : Nat) :
    Shows G P (newArray count capacity) (arrayCode array count capacity) :=
  .of_plain rfl

theorem variantCode_shows (P : Pool) (address : Nat) (tag : Int) :
    Shows G P (newObject variantSize) (variantCode address tag) :=
  .of_plain rfl

theorem allocate_shows (P : Pool) (bytes : Nat) : Shows G P (newObject bytes) (allocate bytes) :=
  .of_plain rfl

theorem references_unused (pushed : Bool) : (Instr.piecesOf (unused pushed) : Code).references = [] := by
  cases pushed <;> rfl

theorem references_load (t : ValType) (n : Nat) :
    (Instr.piecesOf [Instr.load t n] : Code).references = [] := by
  cases t <;> rfl

theorem references_store (t : ValType) (n : Nat) :
    (Instr.piecesOf [Instr.store t n] : Code).references = [] := by
  cases t <;> rfl

theorem equals_leads (t : Ty) :
    Leads (equals t) [] fun P i => Shows G P (comparison (some t)) [i] := by
  have hother : ¬(t = .string ∨ t = .did) → comparison (some t) = [] := by
    intro h
    simpa [comparison] using h
  unfold equals
  split
  · rename_i h
    have hne : ¬(t = .string ∨ t = .did) := by
      rintro (rfl | rfl) <;> cases h
    rw [hother hne]
    exact .pure fun _ => .nil
  · split
    · rename_i h
      subst h
      exact .pure fun _ => .nil
    · split
      · rename_i h
        have heq : t = .string ∨ t = .did := by simpa using h
        have hsome : comparison (some t) = [.call (.routine .equal)] := by
          rw [comparison,if_pos (heq.imp (congrArg some) (congrArg some))]
        rw [hsome]
        exact .pure fun _ => .of_plain rfl
      · exact .throw _

theorem textsOf_comparison (t : Option Ty) : textsOf (comparison t) = [] := by
  rw [comparison]
  split <;> rfl

theorem containsCode_shows {P : Pool} {t : Option Ty} {same : Instr} (v : ValType) (array x i found : Nat)
    (h : Shows G P (comparison t) [same]) :
    Shows G P ([Mention.word 0, .word 0, .word slotSize] ++ (comparison t ++ [Mention.word 1, .word 1]))
      (containsCode v same array x i found) := by
  let before : List Instr := [.get i, .get array, .load .i32 lengthOffset, .num .i32GeU, .op (.brIf 1),
    .get array, .get i, .i32 slotSize, .num .i32Mul, .num .i32Add, .load v arrayHeader, .get x]
  let after : List Instr := [.cond none [.i32 1, .set found, .op (.br 2)] none,
    .get i, .i32 1, .num .i32Add, .set i, .op (.br 0)]
  have hcode : containsCode v same array x i found = [Instr.i32 0, .set i, .i32 0, .set found] ++
      [Instr.block none [.loop none (before ++ ([same] ++ after))]] ++ [Instr.get found] := rfl
  have hbefore : Shows G P [.word slotSize] before := by cases v <;> exact .of_plain rfl
  have hafter : Shows G P [.word 1, .word 1] after := .of_plain rfl
  have hstart : Shows G P [.word 0, .word 0] [.i32 0, .set i, .i32 0, .set found] :=
    .of_plain rfl
  have hround := hbefore.append (h.append hafter)
  rw [hcode]
  exact (hstart.append hround.loop.block).followed rfl

theorem whileCode_shows {P : Pool} {ms ns : List Mention} {test body : List Instr}
    (ht : Shows G P ms test) (hb : Shows G P ns body) : Shows G P (ms ++ ns) (whileCode test body) := by
  let leave : List Instr := [.num .i32Eqz, .op (.brIf 1)]
  have hleave : (Instr.piecesOf leave : Code).references = [] := rfl
  have hagain : (Instr.piecesOf [.op (.br 0)] : Code).references = [] := rfl
  have haround : Shows G P ns (leave ++ [Instr.block none body] ++ [Instr.op (.br 0)]) :=
    (hb.block.preceded hleave).followed hagain
  exact (ht.append haround).loop.block

theorem forCode_shows {P : Pool} {ms : List Mention} {body : List Instr} (t : ValType)
    (array i element : Nat) (hb : Shows G P ms body) :
    Shows G P ([Mention.word 0, .word slotSize] ++ (ms ++ [Mention.word 1])) (forCode t array i element body) := by
  let before : List Instr := [.get i, .get array, .load .i32 lengthOffset, .num .i32GeU, .op (.brIf 1),
    .get array, .get i, .i32 slotSize, .num .i32Mul, .num .i32Add, .load t arrayHeader, .set element]
  have hcode : forCode t array i element body = [Instr.set array, .i32 0, .set i] ++ [Instr.block none [.loop none
      (before ++ ([Instr.block none body] ++ [Instr.get i, .i32 1, .num .i32Add, .set i, .op (.br 0)]))]] := rfl
  have hstart : Shows G P [.word 0] [.set array, .i32 0, .set i] := .of_plain rfl
  have hbefore : Shows G P [.word slotSize] before := by cases t <;> exact .of_plain rfl
  have hafter : Shows G P [.word 1] [.get i, .i32 1, .num .i32Add, .set i, .op (.br 0)] :=
    .of_plain rfl
  have hbody : Shows G P ms [.block none body] := hb.block
  rw [hcode]
  exact hstart.append (hbefore.append (hbody.append hafter)).loop.block

theorem value_emits (v : Value) : Emits G (value v) v.mentions := by
  cases v with
  | int v => exact .pure fun _ => .nil
  | bool b => exact .weaken (.pure fun _ => .of_plain rfl) rfl fun _ _ h => h
  | text s =>
    refine (Leads.intern s).map fun P a ha => ?_
    obtain ⟨hmem,rfl⟩ := ha
    exact List.Forall₂.cons (.text hmem) .nil

theorem name_emits (pos : Pos) (x : String) (sym : Option Symbol) :
    Emits G (name pos x sym) ((sym.map Symbol.mentions).getD []) := by
  unfold name
  split
  · exact .throw _
  · exact value_emits _
  · exact .throw _
  · rename_i y t m k slot v hother hnone
    have hvariable : (Symbol.mk y t m k slot v).mentions = [] := by
      rw [Symbol.mentions]
      cases k with
      | constant => cases v with
        | none => rfl
        | some v => exact (hother v rfl rfl).elim
      | _ => rfl
    rw [Option.map_some,Option.getD_some,hvariable]
    exact (Leads.orGap _ _).map fun _ _ _ => .nil

theorem operator_emits (op : BinaryOp) (left : Option Ty) :
    Emits G (operator op left) (op.mentions left) := by
  have hequal (rest : List Instr) (hrest : (Instr.piecesOf rest : Code).references = []) :
      Emits G (do return (← equals (← orGap .type left)) :: rest) (comparison left) := by
    refine Leads.weaken ((Leads.orGap .type left).bind fun t => (equals_leads (G := G) t).map fun P i hi hleft => ?_)
      (textsOf_comparison left) fun _ _ h => h
    have hall : Shows G P (comparison left) ([i] ++ rest) := (hleft ▸ hi).followed hrest
    exact hall
  cases op with
  | eq => exact hequal [] rfl
  | ne => exact hequal [.num .i32Eqz] rfl
  | concat => exact .weaken (.pure fun _ => .of_plain rfl) rfl fun _ _ h => h
  | _ => exact .pure fun _ => .nil

theorem patternTest_emits (subject : Nat) (p : PatternForm) :
    p.isCatchAll = false → Emits G (patternTest c subject p) p.mentions := by
  intro hp
  cases p with
  | text s =>
    refine Leads.weaken ((Leads.intern s).map fun P a ha => ?_) rfl fun _ _ h => h
    obtain ⟨hmem,rfl⟩ := ha
    exact List.Forall₂.cons (.text hmem) (.cons (.routine _) .nil)
  | enum o v => exact (Leads.orGap _ _).map fun _ _ _ => .nil
  | bool b => cases b <;> exact .pure fun _ => .nil
  | wild => cases hp
  | bind b => cases hp
  | _ => exact .pure fun _ => .nil

theorem bindPattern_emits (subject : Nat) (p : PatternForm) : Emits G (bindPattern c subject p) [] := by
  unfold bindPattern
  split
  · split
    · exact .pure fun _ => .nil
    · refine (Leads.orGap _ _).map fun P t _ => ?_
      cases t.valType <;> exact List.Forall₂.nil
  · exact .pure fun _ => .nil

theorem fieldOffset_leads (type : Option Ty) (field : String) :
    Leads (fieldOffset c type field) [] fun _ _ => True := by
  unfold fieldOffset
  refine (Leads.orGap .type type).bind fun t => ?_
  split
  · refine (Leads.orGap .record _).bind fun d => ?_
    split
    · exact .pure fun _ _ _ => trivial
    · exact .throw _
  · exact .throw _

theorem elementType_leads (array item : Option Ty) :
    Leads (elementType array item) [] fun _ t => soughtType array item = some t := by
  cases array with
  | none => exact .throw _
  | some t =>
    unfold elementType
    refine (Leads.orGap .type _).bind fun u => ?_
    split
    · rename_i t'
      split
      · rename_i hhole
        refine (Leads.orGap .type item).weaken rfl fun _ v hv hu => ?_
        cases hu
        rw [soughtType,if_pos hhole,hv]
      · rename_i hhole
        refine .pure fun _ hu => ?_
        cases hu
        rw [soughtType,if_neg hhole]
    · exact .throw _

def ExprEmits (G : Linkage) (c : Context) (e : Expr) : Prop := Emits G (expr c e) (e.mentions G)

variable {e a b : Expr} {es : List Expr} {n : Note} {p : Pos} {x : String}

theorem unary_emits {op : UnaryOp} (h : ExprEmits G c e) : ExprEmits G c (.unary n op e) := by
  cases op with
  | neg => exact h.map fun _ x hx => (hx.followed rfl).cons_quiet rfl
  | not => exact h.map fun _ x hx => hx.followed rfl

theorem and_emits (ha : ExprEmits G c a) (hb : ExprEmits G (c.inside 1) b) :
    ExprEmits G c (.binary n .and a b) := by
  have hstop (P : Pool) : Shows G P [.word 0] [Instr.i32 0] := .of_plain rfl
  show Emits G _ (a.mentions G ++ (b.mentions G ++ [.word 0]))
  refine Leads.weaken (ha.bind fun x => hb.map fun P y hy hx => ?_) (by simp [textsOf]) fun _ _ h => h
  exact Shows.append hx (hy.choice (hstop P))

theorem or_emits (ha : ExprEmits G c a) (hb : ExprEmits G (c.inside 1) b) :
    ExprEmits G c (.binary n .or a b) := by
  have hstop (P : Pool) : Shows G P [.word 1] [Instr.i32 1] := .of_plain rfl
  show Emits G _ (a.mentions G ++ .word 1 :: b.mentions G)
  refine Leads.weaken (ha.bind fun x => hb.map fun P y hy hx => ?_) (by simp [textsOf]) fun _ _ h => h
  exact Shows.append hx ((hstop P).choice hy)

theorem strict_emits {op : BinaryOp} (hand : op ≠ .and) (hor : op ≠ .or)
    (ha : ExprEmits G c a) (hb : ExprEmits G c b) : ExprEmits G c (.binary n op a b) := by
  have hcode : expr c (.binary n op a b) = (do
      let x ← expr c a
      let y ← expr c b
      let o ← operator op a.type
      return x ++ y ++ o) := by
    cases op <;> first | rfl | exact absurd rfl hand | exact absurd rfl hor
  have hmentions : (Expr.binary n op a b).mentions G =
      a.mentions G ++ (b.mentions G ++ op.mentions a.type) := by
    cases op <;> first | rfl | exact absurd rfl hand | exact absurd rfl hor
  rw [ExprEmits,hcode,hmentions]
  refine ha.bind fun x => hb.bind fun y => (operator_emits (G := G) op a.type).map fun P o ho hy hx => ?_
  rw [List.append_assoc]
  exact hx.append (Shows.append hy ho)

theorem exprs_emits (h : ∀ e ∈ es, ExprEmits G c e) :
    Emits G (exprs c es) (Expr.mentionsEach G es).flatten :=
  parts_walk es h (.pure fun _ => .nil) fun _ _ he hes =>
    Leads.bind he fun _ => hes.map fun _ _ hy hx => Shows.append hx hy

theorem push_emits (ha : ExprEmits G c a) (hb : ExprEmits G c b) :
    Emits G (push c ⟨a.type, expr c a⟩ ⟨b.type, expr c b⟩)
      (a.mentions G ++ (b.mentions G ++ [Mention.word slotSize, .word 1])) := by
  refine Leads.weaken ((elementType_leads a.type b.type).bind fun t => (Leads.temp c _).bind fun i =>
    (Leads.temp c _).bind fun v => (Leads.temp c _).bind fun k =>
    ha.bind fun x => hb.map fun P y hy hx _ _ _ _ => ?_) (by simp [textsOf]) fun _ _ h => h
  rw [List.append_assoc]
  exact hx.append ((hy.append ((pushCode_shows P _ i v k).cons_quiet rfl)).cons_quiet rfl)

theorem pop_emits (ha : ExprEmits G c a) : Emits G (pop c ⟨a.type, expr c a⟩)
      (a.mentions G ++ (newObject variantSize ++ [Mention.word 1, .word slotSize])) := by
  refine Leads.weaken ((Leads.temp c _).bind fun i => (Leads.temp c _).bind fun n =>
    (Leads.temp c _).bind fun out => ha.map fun P x hx _ _ _ => ?_) (by simp [textsOf, newObject])
    fun _ _ h => h
  exact Shows.append hx ((popCode_shows P i n out).cons_quiet rfl)

theorem contains_emits (ha : ExprEmits G c a) (hb : ExprEmits G c b) :
    Emits G (contains c ⟨a.type, expr c a⟩ ⟨b.type, expr c b⟩)
      (a.mentions G ++ (b.mentions G ++ ([Mention.word 0, .word 0, .word slotSize] ++
        (comparison (soughtType a.type b.type) ++ [Mention.word 1, .word 1])))) := by
  refine Leads.weaken ((elementType_leads a.type b.type).bind fun t => (Leads.temp c _).bind fun i =>
    (Leads.temp c _).bind fun v => (Leads.temp c _).bind fun k => (Leads.temp c _).bind fun found =>
    ha.bind fun x => hb.bind fun y => (equals_leads (G := G) t).map fun P same hsame hy hx _ _ _ _ ht => ?_)
    (by simp [textsOf, ← textsOf_comparison (soughtType a.type b.type)]) fun _ _ h => h
  have hcode := containsCode_shows t.valType i v k found (ht ▸ hsame)
  rw [List.append_assoc]
  exact hx.append ((hy.append (hcode.cons_quiet rfl)).cons_quiet rfl)

theorem builtin_emits {op : Builtin} (h : ∀ e ∈ es, ExprEmits G c e) : Emits G (builtin c op (operands c es))
      (((Expr.mentionsEach G es).take op.arity).flatten ++ op.mentions (es.map (·.type))) := by
  have hlength (e : Expr) (he : ExprEmits G c e) : Emits G (do
      return (← expr c e) ++ [Instr.load .i32 lengthOffset, Instr.num .i64ExtendI32U]) (e.mentions G) :=
    he.map fun _ x hx => hx.followed rfl
  have hone (a : Expr) (es : List Expr) :
      ((Expr.mentionsEach G (a :: es)).take 1).flatten = a.mentions G := by
    simp [Expr.mentionsEach]
  have htwo (a b : Expr) (es : List Expr) :
      ((Expr.mentionsEach G (a :: b :: es)).take 2).flatten = a.mentions G ++ b.mentions G := by
    simp [Expr.mentionsEach]
  cases es with
  | nil => cases op <;> exact .throw _
  | cons a es =>
    obtain ⟨ha,hes⟩ := List.forall_mem_cons.mp h
    cases op with
    | arrayLen | stringLen =>
      rw [Builtin.arity,hone,Builtin.mentions,List.append_nil]
      exact hlength a ha
    | arrayPop =>
      rw [Builtin.arity,hone]
      exact pop_emits ha
    | arrayPush => cases es with
      | nil => exact .throw _
      | cons b es =>
        rw [Builtin.arity,htwo,List.append_assoc]
        exact push_emits ha (hes b List.mem_cons_self)
    | arrayContains => cases es with
      | nil => exact .throw _
      | cons b es =>
        rw [Builtin.arity,htwo,List.append_assoc]
        exact contains_emits ha (hes b List.mem_cons_self)
    | stringConcat => cases es with
      | nil => exact .throw _
      | cons b es =>
        have hb := hes b List.mem_cons_self
        have hcode (P : Pool) : Shows G P [.call (.routine .concat)] [Instr.routine .concat] := .of_plain rfl
        rw [Builtin.arity,htwo]
        refine Leads.weaken (ha.bind fun x => hb.map fun P y hy hx => ?_)
          (by simp [Builtin.mentions, textsOf]) fun _ _ h => h
        exact (Shows.append hx hy).append (hcode P)

theorem call_emits {f : Callee} (hc : c.linkage = G)
    (h : ∀ e ∈ es, ExprEmits G c e) : ExprEmits G c (.call n f es) := by
  have hargs := exprs_emits h
  cases f with
  | unresolved s =>
    have hthrow : Leads (exprs c es >>= fun _ => throw (Fault.unresolvedCall s n.pos))
        ((Expr.mentionsEach G es).flatten ++ []) fun P code => Shows G P (Expr.mentionsEach G es).flatten code :=
      hargs.bind fun _ => .throw _
    rw [List.append_nil] at hthrow
    exact hthrow
  | builtin b => exact builtin_emits h
  | user f =>
    show Emits G _ ((Expr.mentionsEach G es).flatten ++ [.call (.user f)])
    refine Leads.weaken (hargs.bind fun x => (Leads.orGap .function _).map fun P t ht hx => ?_)
      (by simp [textsOf]) fun _ _ h => h
    have huser : G.user f = some t.index := by
      rw [← hc]
      exact congrArg (Option.map (·.index)) ht
    exact Shows.append hx (List.Forall₂.cons (.user huser) .nil)
  | host f =>
    show Emits G _ ((Expr.mentionsEach G es).flatten ++ [.call (.host f)])
    refine Leads.weaken (hargs.bind fun x => (Leads.orGap .function _).map fun P i hi hx => ?_)
      (by simp [textsOf]) fun _ _ h => h
    have hhost : G.host f = some i := by
      rw [← hc]
      exact hi
    exact Shows.append hx (List.Forall₂.cons (.host hhost) .nil)

theorem method_emits {m : String} {b : Option Builtin}
    (h : ∀ a ∈ e :: es, ExprEmits G c a) : ExprEmits G c (.method n e m es b) := by
  cases b with
  | none => exact .throw _
  | some op => exact builtin_emits h

theorem elements_emit {address : Nat} (h : ∀ e ∈ es, ExprEmits G c e) :
    ∀ i, Emits G (elements c address i es) (Expr.mentionsEach G es).flatten := by
  refine parts_walk es h (fun _ => .pure fun _ => .nil) fun _ _ he hes i => ?_
  refine Leads.bind he fun x => (Leads.orGap .type _).bind fun t => (hes (i + 1)).map fun P y hy _ hx => ?_
  exact (Shows.append hx (hy.cons_quiet (references_store _ _))).cons_quiet rfl

theorem array_emits (hc : c.linkage = G) (h : ∀ e ∈ es, ExprEmits G c e) : ExprEmits G c (.array n es) := by
  have hcapacity : G.capacity = c.arrayCapacity := by rw [← hc]; rfl
  show Emits G _ (newArray es.length (max es.length G.capacity) ++ (Expr.mentionsEach G es).flatten)
  refine Leads.weaken ((Leads.temp c _).bind fun a => (elements_emit h 0).map fun P x hx _ => ?_)
    (by simp [newArray, newObject, textsOf]) fun _ _ h => h
  have hnew := arrayCode_shows (G := G) P a es.length (max es.length c.arrayCapacity)
  have hall := (hnew.append hx).followed (show (Instr.piecesOf [Instr.get a] : Code).references = [] from rfl)
  rw [← hcapacity] at hall
  exact hcapacity ▸ hall

theorem elementAddress_emits {i : Expr} (ha : ExprEmits G c a) (hi : ExprEmits G c i) :
    Emits G (elementAddress c (expr c a) (expr c i))
      (a.mentions G ++ (i.mentions G ++ [Mention.word slotSize])) := by
  refine Leads.weaken ((Leads.temp c _).bind fun x => (Leads.temp c _).bind fun k =>
    ha.bind fun xs => hi.map fun P ys hys hxs _ _ => ?_) (by simp [textsOf]) fun _ _ h => h
  rw [List.append_assoc]
  exact hxs.append ((hys.append ((elementCode_shows P x k).cons_quiet rfl)).cons_quiet rfl)

theorem index_emits {i : Expr} (ha : ExprEmits G c a) (hi : ExprEmits G c i) :
    ExprEmits G c (.index n a i) := by
  refine Leads.weaken ((elementAddress_emits ha hi).bind fun x =>
    (Leads.orGap .type _).map fun P t _ hx => hx.followed (references_load _ _)) ?_ fun _ _ h => h
  rw [List.append_nil]
  rfl

theorem field_emits {f : String} (he : ExprEmits G c e) : ExprEmits G c (.field n e f) := by
  refine Leads.weaken (he.bind fun x => (fieldOffset_leads _ _).bind fun k =>
    (Leads.orGap .type _).map fun P t _ _ hx => hx.followed (references_load _ _)) ?_ fun _ _ h => h
  rw [List.append_nil,List.append_nil]
  rfl

theorem fields_emit {d : RecordDecl} {address : Nat} {fs : List FieldInit}
    (h : ∀ f ∈ fs, ExprEmits G c f.value) :
    Emits G (fields c d address fs) (FieldInit.mentionsIn G fs) := by
  refine parts_walk fs h (.pure fun _ => .nil) fun (.mk p n e) _ he hfs => Leads.bind he fun x => ?_
  split
  · exact .throw _
  · refine (Leads.orGap .field _).bind fun fd => hfs.map fun P y hy _ hx => ?_
    exact (Shows.append hx (hy.cons_quiet (references_store _ _))).cons_quiet rfl

theorem record_emits {fs : List FieldInit} (hc : c.linkage = G)
    (h : ∀ f ∈ fs, ExprEmits G c f.value) : ExprEmits G c (.record n x fs) := by
  show Emits G _ (newObject (G.record x) ++ FieldInit.mentionsIn G fs)
  refine Leads.weaken ((Leads.orGap .record _).bind fun d => (Leads.temp c _).bind fun a =>
    (fields_emit h).map fun P code hcode _ hd => ?_) (by simp [newObject, textsOf]) fun _ _ h => h
  have hsize : G.record x = recordSize d.fields.length := by
    rw [← hc]
    show recordSize ((c.record? x).elim 0 fun d => d.fields.length) = _
    rw [hd]
    rfl
  have hnew := allocate_shows (G := G) P (G.record x)
  rw [hsize] at hnew
  exact hsize ▸ (hnew.append (hcode.cons_quiet rfl)).followed rfl

theorem wrap_emits {k : Wrapper} (he : ExprEmits G c e) : ExprEmits G c (.wrap n k e) := by
  show Emits G _ (newObject variantSize ++ e.mentions G)
  refine Leads.weaken ((Leads.temp c _).bind fun a => he.bind fun x =>
    (Leads.orGap .type _).map fun P t _ hx _ => ?_) (by simp [newObject, textsOf]) fun _ _ h => h
  have hstore : (Instr.piecesOf [Instr.store t.valType payloadOffset, Instr.get a] : Code).references = [] := by
    cases t.valType <;> rfl
  exact ((variantCode_shows P a _).append (hx.cons_quiet rfl)).followed hstore

theorem arms_emit {subject : Nat} {out : BlockType} {as : List Arm}
    (h : ∀ a ∈ as, ∀ c : Context, c.linkage = G → ExprEmits G c a.body) (hc : c.linkage = G) :
    Emits G (arms c subject out as) (Arm.mentionsIn G as) := by
  induction as generalizing c with
  | nil => exact .pure fun _ => .nil
  | cons a as ih =>
    obtain ⟨pos,p,e⟩ := a
    obtain ⟨he,has⟩ := List.forall_mem_cons.mp h
    rw [arms,Arm.mentionsIn]
    split
    · refine (bindPattern_emits (G := G) _ _).bind fun x => Leads.map (he c hc) fun P y hy hx => ?_
      exact (Shows.append hx hy).followed (references_unused _)
    · rename_i hp
      have htest := patternTest_emits (G := G) (c := c) subject p.form (Bool.not_eq_true _ ▸ hp)
      refine htest.bind fun x => (bindPattern_emits (G := G) _ _).bind fun b =>
        Leads.bind (he (c.inside 1) hc) fun y =>
        (ih (c := c.inside 1) has hc).map fun P z hz hy hb hx => ?_
      exact hx.append (((Shows.append hb hy).followed (references_unused _)).choice hz)

theorem select_emits {as : List Arm} (he : ExprEmits G c e)
    (h : ∀ a ∈ as, ∀ c : Context, c.linkage = G → ExprEmits G c a.body) (hc : c.linkage = G) :
    ExprEmits G c (.select n e as) := by
  refine (Leads.orGap .type _).bind fun t => (Leads.temp c _).bind fun subject =>
    Leads.bind he fun x => (arms_emit h hc).map fun P y hy hx _ _ => ?_
  have hstop (stops : Bool) : (Instr.piecesOf (if stops then [Instr.trap] else []) : Code).references = [] := by
    cases stops <;> rfl
  exact (hx.append (hy.cons_quiet rfl)).followed (hstop _)

def StmtEmits (G : Linkage) (c : Context) (s : Stmt) : Prop := Emits G (stmt c s) (s.mentions G)

theorem bind_emits {d : Option Ty} {slot : Option Nat}
    (he : ExprEmits G c e) : StmtEmits G c (.bind p x d e slot) := by
  have hall := he.bind fun x => (Leads.orGap .slot slot).map fun P i _ hx =>
    Shows.followed hx (show (Instr.piecesOf [Instr.set i] : Code).references = [] from rfl)
  rw [List.append_nil] at hall
  exact hall

theorem assignName_emits {sym : Option Symbol}
    (he : ExprEmits G c e) : StmtEmits G c (.assign p (.name n x sym) e) := by
  rw [StmtEmits,stmt]
  split
  · exact .throw _
  · exact Leads.map he fun _ x hx => hx.followed rfl

theorem assignField_emits {t : Expr} {f : String} (ht : ExprEmits G c t)
    (he : ExprEmits G c e) : StmtEmits G c (.assign p (.field n t f) e) := by
  have hall := ht.bind fun x => he.bind fun y => (fieldOffset_leads (c := c) t.type f).bind fun k =>
    (Leads.orGap .type n.type).map fun P u _ _ hy hx =>
      (Shows.append hx hy).followed (references_store u.valType k)
  simp only [List.append_nil] at hall
  exact hall

theorem assignIndex_emits {t i : Expr} (ht : ExprEmits G c t)
    (hi : ExprEmits G c i) (he : ExprEmits G c e) : StmtEmits G c (.assign p (.index n t i) e) := by
  have hall := (elementAddress_emits ht hi).bind fun x => he.bind fun y =>
    (Leads.orGap .type n.type).map fun P u _ hy hx =>
      (Shows.append hx hy).followed (references_store u.valType arrayHeader)
  rw [List.append_nil] at hall
  exact hall

theorem assignOther_emits {t : Expr} (h : Build.isPlace t = false) : StmtEmits G c (.assign p t e) := by
  cases t with
  | name | field | index => cases h
  | _ => exact .throw _

theorem loop_emits {b : Block} (he : ExprEmits G (c.inside 2) e)
    (hb : Emits G (block c.insideLoop b) (b.mentions G)) : StmtEmits G c (.loop p e b) :=
  Leads.bind he fun _ => hb.map fun _ _ hy hx => whileCode_shows hx hy

theorem each_emits {b : Block} {slot : Option Nat}
    (he : ExprEmits G c e) (hb : Emits G (block c.insideLoop b) (b.mentions G)) :
    StmtEmits G c (.each p x e b slot) := by
  show Emits G _ (e.mentions G ++ ([.word 0, .word slotSize] ++ (b.mentions G ++ [.word 1])))
  refine Leads.weaken ((Leads.orGap .slot slot).bind fun k => (Leads.orGap .slot _).bind fun t =>
    (Leads.temp c _).bind fun a => (Leads.temp c _).bind fun i =>
    he.bind fun x => hb.map fun P y hy hx _ _ _ _ => ?_) (by simp [textsOf]) fun _ _ h => h
  exact Shows.append hx (forCode_shows t.valType a i k hy)

def ChainEmits (G : Linkage) (c : Context) (ch : Chain) : Prop :=
  Leads (chain c ch) (ch.mentions G) fun P code => Shows G P (ch.mentions G) (code.getD [])

theorem branch_emits {b : Block} {rest : Chain} (he : ExprEmits G c e)
    (hb : Emits G (block (c.inside 1) b) (b.mentions G)) (hrest : ChainEmits G (c.inside 1) rest) :
    ChainEmits G c (.branch p e b rest) := by
  refine Leads.bind he fun x => hb.bind fun y => Leads.map hrest fun P no hno hy hx => ?_
  refine Shows.append hx ?_
  cases no with
  | none =>
    have hnone : rest.mentions G = [] := List.forall₂_nil_right_iff.mp hno
    rw [hnone,List.append_nil]
    exact hy.option
  | some no => exact hy.choice hno

theorem emits_walk : Walk .any (fun _ e => ∀ c : Context, c.linkage = G → ExprEmits G c e)
    (fun _ s => ∀ c : Context, c.linkage = G → StmtEmits G c s)
    (fun _ ss => ∀ c : Context, c.linkage = G → Emits G (stmts c ss) (Stmt.mentionsIn G ss))
    (fun _ b => ∀ c : Context, c.linkage = G → Emits G (block c b) (b.mentions G))
    (fun _ ch => ∀ c : Context, c.linkage = G → ChainEmits G c ch) where
  int _ _ _ := .pure fun _ => .nil
  bool _ _ _ := .weaken (.pure fun _ => .of_plain rfl) rfl fun _ _ h => h
  text _ _ _ := value_emits (.text _)
  name _ _ _ := name_emits _ _ _
  unary _ he c hc := unary_emits (he c hc)
  binary {_ _ op _ _} _ ha hb c hc := by
    by_cases hand : op = .and
    · exact hand ▸ and_emits (ha c hc) (hb (c.inside 1) hc)
    · by_cases hor : op = .or
      · exact hor ▸ or_emits (ha c hc) (hb (c.inside 1) hc)
      · exact strict_emits hand hor (ha c hc) (hb c hc)
  call _ hes c hc := call_emits hc fun e he => hes e he c hc
  method _ he hes c hc := method_emits (List.forall_mem_cons.mpr ⟨he c hc,fun e he => hes e he c hc⟩)
  array _ hes c hc := array_emits hc fun e he => hes e he c hc
  index _ ha hi c hc := index_emits (ha c hc) (hi c hc)
  field _ he c hc := field_emits (he c hc)
  record _ hfs c hc := record_emits hc fun f hf => hfs f hf c hc
  wrap _ he c hc := wrap_emits (he c hc)
  noneLit _ c _ := .weaken ((Leads.temp c _).map fun P a _ => (variantCode_shows P a 0).followed rfl)
    rfl fun _ _ h => h
  enum {_ _ _ _ tag} _ _ _ := by
    cases tag with
    | none => exact .throw _
    | some i => exact .pure fun _ => .nil
  select _ he has c hc := select_emits (he c hc) has hc
  block _ hss := hss
  tail _ hss he c hc := (hss c hc).bind fun _ => Leads.map (he c hc) fun _ _ hy hx => hx.append hy
  bind _ he c hc := bind_emits (he c hc)
  assignName _ he c hc := assignName_emits (he c hc)
  assignField _ ht he c hc := assignField_emits (ht c hc) (he c hc)
  assignIndex _ ht hi he c hc := assignIndex_emits (ht c hc) (hi c hc) (he c hc)
  assignOther _ hplace _ _ _ _ := assignOther_emits hplace
  ret _ _ _ := .pure fun _ => .nil
  retValue _ he c hc := Leads.map (he c hc) fun _ _ hx => hx.followed rfl
  expr _ he c hc := Leads.map (he c hc) fun _ _ hx => hx.followed (references_unused _)
  cond _ hch c hc := Leads.map (hch c hc) fun _ _ hx => hx
  loop _ he hb c hc := loop_emits (he (c.inside 2) hc) (hb c.insideLoop hc)
  each _ he hb c hc := each_emits (he c hc) (hb c.insideLoop hc)
  leave _ c _ := by
    rw [StmtEmits,stmt]
    split
    · exact .pure fun _ => .nil
    · exact .throw _
  next _ c _ := by
    rw [StmtEmits,stmt]
    split
    · exact .pure fun _ => .nil
    · exact .throw _
  nil _ _ := .pure fun _ => .nil
  cons _ hx hxs c hc := Leads.bind (hx c hc) fun _ => (hxs c hc).map fun _ _ hy hx => hx.append hy
  body hss := hss
  stop _ _ := .pure fun _ => .nil
  otherwise hb c hc := Leads.map (hb c hc) fun _ _ hx => hx
  branch _ he hb hrest c hc := branch_emits (he c hc) (hb (c.inside 1) hc) (hrest (c.inside 1) hc)

def literals (G : Linkage) (d : FunctionDecl) : List String := textsOf (d.body.mentions G)

theorem function_emits {d : FunctionDecl} {pool pool' : Pool} {b : Body}
    (h : function c d pool = .ok (b, pool')) :
    pool' = pool.insertAll (literals c.linkage d) ∧ ∀ P : Pool, pool'.texts <+: P.texts →
      Shows c.linkage P (d.body.mentions c.linkage) b.code := by
  obtain ⟨code,s,t,hrun,-,rfl,rfl⟩ := function_spec h
  obtain ⟨hpool,hcode⟩ := (emits_walk.onBlock d.body (d.body.every_any false)) _ rfl _ _ _ hrun
  refine ⟨hpool,fun P hP => ?_⟩
  have hshows := hcode P hP
  dsimp only
  split
  · exact hshows.followed rfl
  · exact hshows

/-- Functions put their texts into the pool one after the other, and all of them refer to the pool at the
end. -/
theorem bodies_emit {ds : List FunctionDecl} {pool pool' : Pool} {bs : List Body}
    (h : bodies c ds pool = .ok (bs, pool')) :
    pool' = pool.insertAll (ds.flatMap (literals c.linkage)) ∧ ∀ P : Pool, pool'.texts <+: P.texts →
      List.Forall₂ (fun d b => Shows c.linkage P (d.body.mentions c.linkage) b.code) ds bs := by
  induction ds generalizing pool pool' bs with
  | nil =>
    cases h
    exact ⟨rfl,fun _ _ => .nil⟩
  | cons d ds ih =>
    obtain ⟨b,q,cs,hf,hbs,rfl⟩ := bodies_cons h
    obtain ⟨rfl,hshows⟩ := function_emits hf
    obtain ⟨rfl,hrest⟩ := ih hbs
    rw [List.flatMap_cons,Pool.insertAll_append]
    refine ⟨rfl,fun P hP => .cons (hshows P ?_) (hrest P hP)⟩
    exact (Pool.prefix_insertAll _ _).trans hP

end Covenant.Lower
