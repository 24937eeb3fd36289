import Covenant.Proofs.Lower.Emission
import Covenant.Proofs.Lower.Validity
import Covenant.Proofs.Matching.Data

/-! What the code of a match does. Each test leaves whether its pattern matches, and the arm that is entered
is the first one that does, with the name of its pattern set. Optimising keeps the patterns of every match and the
type of what they are tried on, so a match that leaves no value out still leaves none out in the program that is
lowered. -/

namespace Covenant

namespace Typing

def covering (env : Check.Env) : Rule where
  expr e := (ensured env Ty.isNamed).expr e
  stmt _ _ := True
  guard _ := True

theorem covering_join (env : Check.Env) (T : Ty → Bool) :
    (ensured env T).Join (ensured env T) (covering env) where
  expr _ h _ := h
  stmt _ _ _ _ := trivial
  guard _ _ _ := trivial

theorem covering_ofShapes (env : Check.Env) : (covering env).OfShapes id where
  expr e := by
    cases e with
    | select n e as =>
      have hforms : (as.map (Arm.stub id)).map (·.pattern.form) = as.map (·.pattern.form) := by
        rw [List.map_map]
        rfl
      simp only [covering, ensured, Expr.shape, hforms]
      rfl
    | _ => rfl
  stmt _ _ := Iff.rfl
  guard _ := Iff.rfl

end Typing

namespace Program

open Typing

variable {p : Program} {z : Optimize.Solver} {o : Options}

theorem prepared_covering (hwritten : p.Written) (haccepted : (p.check o.shadowing).accepted = true) :
    (∀ f ∈ (p.prepared z o).functions, f.body.Every (covering ((p.prepared z o).env o.shadowing)) false) ∧
      ∀ e ∈ (p.prepared z o).enums, e.variants.Nodup := by
  obtain ⟨hsettled,-,hfunctions⟩ :=
    Program.check_ensured (formed_isProper.mpr hwritten) (fun _ h => h) haccepted
  have hcovering (f : FunctionDecl) (hf : f ∈ (p.check o.shadowing).program.functions) :
      f.body.Every (covering ((p.check o.shadowing).program.env o.shadowing)) false :=
    (hfunctions f hf).join (covering_join _ _) (hfunctions f hf)
  rw [prepared]
  split
  · have hsame := env_optimizeWith (o.prover z) (p.check o.shadowing).program o.shadowing
    have htyped := (Program.check_typed haccepted).1
    refine ⟨fun f hf => ?_,?_⟩
    · rw [optimize,functions_optimizeWith] at hf
      obtain ⟨d,hd,rfl⟩ := List.mem_map.mp hf
      rw [optimize,hsame]
      exact Optimize.block_keeps hwritten (covering_ofShapes _) (fun x _ _ => by cases x <;> trivial) _
        (htyped.functions d hd).body (hcovering d hd)
    · rw [optimize,enums_optimizeWith]
      exact hsettled.variants
  · exact ⟨hcovering,hsettled.variants⟩

end Program

open Wasm Memory Machine

namespace Lower

theorem ok_of_bind {α β : Type} {m : M α} {f : α → M β} {s s'' : State} {b : β}
    (h : (m >>= f) s = .ok (b, s'')) : ∃ a s', m s = .ok (a, s') ∧ f a s' = .ok (b, s'') := by
  have hbind : (m s >>= fun r => f r.1 r.2) = .ok (b, s'') := h
  cases hr : m s with
  | error e =>
    rw [hr] at hbind
    cases hbind
  | ok r =>
    rw [hr] at hbind
    exact ⟨r.1,r.2,rfl,hbind⟩

theorem ok_of_orGap {α : Type} {g : Gap} {o : Option α} {a : α} {s s' : State}
    (h : orGap g o s = .ok (a, s')) : o = some a ∧ s' = s := by
  cases o with
  | none => cases h
  | some b =>
    cases h
    exact ⟨rfl,rfl⟩

theorem Leads.grows {α : Type} {m : M α} {ms : List Mention} {Q : Pool → α → Prop} (h : Leads m ms Q)
    {s s' : State} {a : α} (hs : m s = .ok (a, s')) : s.pool.texts <+: s'.pool.texts := by
  rw [(h s a s' hs).1]
  exact Pool.prefix_insertAll _ _

variable {c : Context} {subject : Nat} {out : BlockType} {a : Arm} {as : List Arm} {s s' : State}
  {code : List Instr}

theorem arms_catchAll (ha : a.pattern.form.isCatchAll = true)
    (h : arms c subject out (a :: as) s = .ok (code, s')) :
    ∃ bound body s₁, bindPattern c subject a.pattern.form s = .ok (bound, s₁) ∧
      expr c a.body s₁ = .ok (body, s') ∧
      code = bound ++ body ++ unused (out = none && pushes c a.body) := by
  obtain ⟨pos,p,e⟩ := a
  have hp : p.form.isCatchAll = true := ha
  rw [arms,if_pos hp] at h
  obtain ⟨bound,s₁,hbound,h⟩ := ok_of_bind h
  obtain ⟨body,s₂,hbody,h⟩ := ok_of_bind h
  cases h
  exact ⟨bound,body,s₁,hbound,hbody,rfl⟩

theorem arms_test (ha : a.pattern.form.isCatchAll = false)
    (h : arms c subject out (a :: as) s = .ok (code, s')) :
    ∃ test bound body rest s₁ s₂ s₃, patternTest c subject a.pattern.form s = .ok (test, s₁) ∧
      bindPattern c subject a.pattern.form s₁ = .ok (bound, s₂) ∧
      expr (c.inside 1) a.body s₂ = .ok (body, s₃) ∧
      arms (c.inside 1) subject out as s₃ = .ok (rest, s') ∧
      code = test ++ [Instr.cond out (bound ++ body ++ unused (out = none && pushes c a.body))
        (some rest)] := by
  obtain ⟨pos,p,e⟩ := a
  have hp : ¬p.form.isCatchAll = true := Bool.eq_false_iff.mp ha
  rw [arms,if_neg hp] at h
  obtain ⟨test,s₁,htest,h⟩ := ok_of_bind h
  obtain ⟨bound,s₂,hbound,h⟩ := ok_of_bind h
  obtain ⟨body,s₃,hbody,h⟩ := ok_of_bind h
  obtain ⟨rest,s₄,hrest,h⟩ := ok_of_bind h
  cases h
  exact ⟨test,bound,body,rest,s₁,s₂,s₃,htest,hbound,hbody,hrest,rfl⟩

theorem arms_append {b : Arm} (hb : b.pattern.form.isCatchAll = true) (as bs : List Arm) :
    arms c subject out (as ++ b :: bs) = arms c subject out (as ++ [b]) := by
  induction as generalizing c with
  | nil =>
    obtain ⟨pos,p,e⟩ := b
    have hp : p.form.isCatchAll = true := hb
    simp only [List.nil_append, arms, if_pos hp]
  | cons a as ih =>
    obtain ⟨pos,p,e⟩ := a
    simp only [List.cons_append, arms, ih]

end Lower

namespace Matching

open Lower Typing

/-- The literals of a pool lie in memory, which addresses can reach. -/
structure Holding (memory : List UInt8) (pool : Pool) : Prop where
  bound : memory.length ≤ 2 ^ 32
  texts : ∀ t ∈ pool.texts, HoldsText memory (pool.address t) t

def named (x : Datum) (v : Number) (p : PatternForm) (locals : List Number) : List Number :=
  match p.binder? with
  | some ⟨_, some slot⟩ => locals.set slot (x.named v p)
  | _ => locals

variable {memory : List UInt8} {arity : Nat} {S : Site} {c : Context} {subject : Nat} {p : PatternForm}
  {t : Ty} {x : Datum} {v : Number} {st L : List Number} {fs : List Machine.Frame} {is code : List Instr}
  {s s' : State}

theorem Holding.literal {pool : Pool} (h : Holding memory pool) {text : String} (ht : text ∈ pool.texts) :
    HoldsText memory (BitVec.ofInt 32 (pool.address text)).toNat text := by
  have hholds := h.texts text ht
  have hlt : pool.address text < 2 ^ 32 := by
    have hinside := hholds.inside
    have hbound := h.bound
    omega
  rw [BitVec.ofInt_natCast,BitVec.toNat_ofNat,Nat.mod_eq_of_lt hlt]
  exact hholds

theorem patternTest_reaches {pool : Pool} (h : patternTest c subject p s = .ok (code, s'))
    (hp : p.isCatchAll = false) (henums : ∀ n, c.enum? n = S.env.enum? n) (hfits : PatternFits S.env t p)
    (hpool : s'.pool.texts <+: pool.texts) (hmem : Holding memory pool) (hx : x.Of S.env t)
    (hheld : x.Held memory v) (hsubject : L[subject]? = some v) :
    Reaches memory arity ⟨st,L,fs,code ++ is⟩ ⟨.ofBool (x.accepted S.env.enums p) :: st,L,fs,is⟩ := by
  cases p with
  | wild | bind => cases hp
  | int n =>
    cases h
    obtain ⟨w,rfl⟩ := hx.eq_word hfits.2
    cases hheld
    exact (Reaches.get hsubject).trans ((Reaches.i64 n).trans (Reaches.i64Eq w _))
  | bool b =>
    have ht : t = .boolean := of_decide_eq_true hfits
    subst ht
    cases x with
    | truth a =>
      cases hheld
      cases b with
      | true =>
        cases h
        have hsame : (a == true) = a := by cases a <;> rfl
        rw [Datum.accepted,hsame]
        exact Reaches.get hsubject
      | false =>
        cases h
        have hsame : (a == false) = ((if a then 1 else 0 : BitVec 32) == 0) := by cases a <;> rfl
        rw [Datum.accepted,hsame]
        exact (Reaches.get hsubject).trans (Reaches.i32Eqz _)
    | _ => exact hx.elim
  | text literal =>
    have ht : t = .string := of_decide_eq_true hfits
    subst ht
    obtain ⟨address,s₁,hintern,h⟩ := ok_of_bind h
    cases h
    obtain ⟨hmember,rfl⟩ := (Leads.intern literal s _ s' hintern).2 pool hpool
    cases x with
    | text other =>
      obtain ⟨a,rfl,hother⟩ := hheld
      exact (Reaches.get hsubject).trans ((Reaches.i32 _).trans
        (Reaches.equal hother (hmem.literal hmember)))
    | _ => exact hx.elim
  | enum owner variant =>
    obtain ⟨d,tag,hd,htag,rfl⟩ := hfits
    obtain ⟨d',s₁,hgap,h⟩ := ok_of_bind h
    cases h
    obtain ⟨hd',-⟩ := ok_of_orGap hgap
    obtain rfl : d = d' := Option.some.inj (hd.symm.trans ((henums owner).symm.trans hd'))
    cases x with
    | word w =>
      cases hheld
      have hfound : Meaning.enumTag? S.env.enums owner variant = some tag :=
        Option.bind_eq_some_iff.mpr ⟨d,hd,htag⟩
      have hsame : (Datum.word w).accepted S.env.enums (.enum owner variant) =
          (w == BitVec.ofInt 64 ((d.tag? variant).elim (-1) Int.ofNat)) := by
        simp [Datum.accepted, hfound, htag]
      rw [hsame]
      exact (Reaches.get hsubject).trans ((Reaches.i64 _).trans (Reaches.i64Eq w _))
    | _ => exact hx.elim
  | some | ok =>
    cases h
    cases t <;> cases hfits
    cases x with
    | tagged isFull payload =>
      obtain ⟨a,rfl,htag,-⟩ := hheld
      have hsame : isFull = ((if isFull then 1 else 0 : BitVec 64) == BitVec.ofInt 64 1) := by
        cases isFull <;> rfl
      rw [Datum.accepted,hsame]
      exact (Reaches.get hsubject).trans ((Reaches.load htag).trans
        ((Reaches.i64 1).trans (Reaches.i64Eq _ _)))
    | _ => exact hx.elim
  | none | err =>
    cases h
    cases t <;> cases hfits
    cases x with
    | tagged isFull payload =>
      obtain ⟨a,rfl,htag,-⟩ := hheld
      have hsame : (!isFull) = ((if isFull then 1 else 0 : BitVec 64) == 0) := by cases isFull <;> rfl
      rw [Datum.accepted,hsame]
      exact (Reaches.get hsubject).trans ((Reaches.load htag).trans (Reaches.i64Eqz _))
    | _ => exact hx.elim

theorem payload_of_accepted (v : Number) (hp : p.isCatchAll = false) (hb : ∃ b, p.binder? = some b)
    (hfits : PatternFits S.env t p) (hx : x.Of S.env t) (h : x.accepted S.env.enums p = true) :
    ∃ isFull w, x = .tagged isFull (some w) ∧ w.type = (Check.patternFits p t).2.valType ∧
      x.named v p = w := by
  obtain ⟨b,hb⟩ := hb
  cases p with
  | wild | bind => cases hp
  | some | ok =>
    cases t <;> cases hfits
    cases x with
    | tagged isFull payload =>
      obtain rfl : isFull = true := h
      cases payload with
      | none => exact hx.elim
      | some w => exact ⟨true,w,rfl,hx,rfl⟩
    | _ => exact hx.elim
  | err =>
    cases t <;> cases hfits
    cases x with
    | tagged isFull payload =>
      obtain rfl : isFull = false := by simpa [Datum.accepted] using h
      cases payload with
      | none => exact hx.elim
      | some w => exact ⟨false,w,rfl,hx,rfl⟩
    | _ => exact hx.elim
  | _ => cases hb

theorem bindPattern_reaches (h : bindPattern c subject p s = .ok (code, s')) (hslots : c.slots = S.slots)
    (hp : PatternSound S t p) (hx : x.Of S.env t) (haccepted : x.accepted S.env.enums p = true)
    (hheld : x.Held memory v) (hsubject : L[subject]? = some v) (hlocals : c.slots.length ≤ L.length) :
    Reaches memory arity ⟨st,L,fs,code ++ is⟩ ⟨st,named x v p L,fs,is⟩ := by
  cases hb : p.binder? with
  | none =>
    simp only [bindPattern, hb] at h
    cases h
    simp only [named, hb]
    exact .refl
  | some b =>
    obtain ⟨slot,hi,hslot⟩ := hp.2 b hb
    obtain ⟨y,_⟩ := b
    cases hi
    have hlt : slot < L.length := by
      have hslot' := (List.getElem?_eq_some_iff.mp hslot).1
      rw [← hslots] at hslot'
      omega
    simp only [named, hb]
    simp only [bindPattern, hb, hslots, hslot] at h
    by_cases hall : p.isCatchAll = true
    · rw [if_pos hall] at h
      cases h
      cases p with
      | bind b => exact (Reaches.get hsubject).trans (Reaches.set hlt)
      | wild => cases hb
      | _ => cases hall
    · rw [if_neg hall] at h
      cases h
      obtain ⟨isFull,w,rfl,hw,hnamed⟩ :=
        payload_of_accepted v (Bool.not_eq_true _ ▸ hall) ⟨_,hb⟩ hp.1 hx haccepted
      obtain ⟨a,rfl,-,hpayload⟩ := hheld
      have hload := hpayload w rfl
      rw [hw] at hload
      rw [hnamed]
      exact (Reaches.get hsubject).trans ((Reaches.load hload).trans (Reaches.set hlt))

/-- The machine gets to the code of an arm, with the operands of the match set aside and the locals as given,
and what comes out of that code goes on behind the match. -/
def Enters (memory : List UInt8) (arity : Nat) (c : Context) (out : BlockType) (start : Config)
    (st : List Number) (fs : List Machine.Frame) (is : List Instr) (a : Arm) (locals : List Number) : Prop :=
  ∃ depth s₁ s₂ body below outer rest, expr (c.inside depth) a.body s₁ = .ok (body, s₂) ∧
    Reaches memory arity start
      ⟨below,locals,outer,body ++ (unused (out = none && pushes c a.body) ++ rest)⟩ ∧
    ∀ vs L, Reaches memory arity ⟨vs ++ below,L,outer,rest⟩ ⟨vs ++ st,L,fs,is⟩

variable {a : Arm} {out : BlockType}

theorem Enters.after {start start' : Config}
    (h : Enters memory arity c out start st fs is a L) (hs : Reaches memory arity start' start) :
    Enters memory arity c out start' st fs is a L := by
  obtain ⟨k,s₁,s₂,body,below,outer,rest,hbody,hreach,hback⟩ := h
  exact ⟨k,s₁,s₂,body,below,outer,rest,hbody,hs.trans hreach,hback⟩

theorem Enters.choice {b : Bool} {yes no : List Instr} {locals : List Number}
    (h : Enters memory arity (c.inside 1) out
      ⟨[],locals,⟨none,out.toList.length,st,is⟩ :: fs,if b then yes else no⟩ []
      (⟨none,out.toList.length,st,is⟩ :: fs) [] a L) :
    Enters memory arity c out ⟨.ofBool b :: st,locals,fs,Instr.cond out yes (some no) :: is⟩ st fs is a L := by
  obtain ⟨k,s₁,s₂,body,below,outer,rest,hbody,hreach,hback⟩ := h
  refine ⟨1 + k,s₁,s₂,body,below,outer,rest,?_,?_,fun vs L' => ?_⟩
  · rw [← hbody,Context.inside,Context.inside,Context.inside,Nat.add_assoc]
  · rw [pushes_inside] at hreach
    exact Reaches.cond.trans hreach
  · have hleave := (hback vs L').trans Reaches.leave
    rwa [List.append_nil] at hleave

theorem arm_enters {bound body : List Instr} {s₁ s₂ : State}
    (hbound : bindPattern c subject a.pattern.form s = .ok (bound, s₁))
    (hbody : expr c a.body s₁ = .ok (body, s₂)) (hslots : c.slots = S.slots)
    (hp : PatternSound S t a.pattern.form) (hx : x.Of S.env t)
    (haccepted : x.accepted S.env.enums a.pattern.form = true) (hheld : x.Held memory v)
    (hsubject : L[subject]? = some v) (hlocals : c.slots.length ≤ L.length) : Enters memory arity c out
      ⟨st,L,fs,bound ++ body ++ unused (out = none && pushes c a.body) ++ is⟩ st fs is a
      (named x v a.pattern.form L) := by
  refine ⟨0,s₁,s₂,body,st,fs,is,hbody,?_,fun _ _ => .refl⟩
  simp only [List.append_assoc]
  exact bindPattern_reaches hbound hslots hp hx haccepted hheld hsubject hlocals

theorem arms_enter {pool : Pool} {as : List Arm}
    (h : arms c subject out as s = .ok (code, s')) (hpool : s'.pool.texts <+: pool.texts)
    (hmem : Holding memory pool) (henums : ∀ n, c.enum? n = S.env.enum? n) (hslots : c.slots = S.slots)
    (hp : ∀ a ∈ as, PatternSound S t a.pattern.form) (hx : x.Of S.env t) (hheld : x.Held memory v)
    (hsubject : L[subject]? = some v) (hlocals : c.slots.length ≤ L.length)
    (hfirst : firstMatch? S.env.enums x as = some a) :
    Enters memory arity c out ⟨st,L,fs,code ++ is⟩ st fs is a (named x v a.pattern.form L) := by
  induction as generalizing c s code st fs is with
  | nil => cases hfirst
  | cons b as ih =>
    obtain ⟨hb,has⟩ := List.forall_mem_cons.mp hp
    rw [firstMatch?,List.find?_cons] at hfirst
    by_cases hall : b.pattern.form.isCatchAll = true
    · obtain ⟨bound,body,s₁,hbound,hbody,rfl⟩ := arms_catchAll hall h
      have haccepted := accepted_of_isCatchAll S.env.enums x hall
      rw [haccepted] at hfirst
      obtain rfl : b = a := Option.some.inj hfirst
      exact arm_enters hbound hbody hslots hb hx haccepted hheld hsubject hlocals
    · rw [Bool.not_eq_true] at hall
      obtain ⟨test,bound,body,rest,s₁,s₂,s₃,htest,hbound,hbody,hrest,rfl⟩ := arms_test hall h
      -- the literal of the test is in the pool when the arms are done
      have hgrown : s₁.pool.texts <+: pool.texts := by
        have hbound' := (bindPattern_emits (G := c.linkage) (c := c) subject b.pattern.form).grows hbound
        have hemits (a : Arm) := (emits_walk (G := c.linkage)).onExpr a.body (a.body.every_any false)
        have hbody' := Leads.grows (hemits b (c.inside 1) rfl) hbody
        have hrest' := Leads.grows (arms_emit (c := c.inside 1) (fun a _ => hemits a) rfl) hrest
        exact hbound'.trans (hbody'.trans (hrest'.trans hpool))
      have hdecide (next : List Instr) : Reaches memory arity ⟨st,L,fs,test ++ next⟩
          ⟨.ofBool (x.accepted S.env.enums b.pattern.form) :: st,L,fs,next⟩ :=
        patternTest_reaches htest hall henums hb.1 hgrown hmem hx hheld hsubject
      rw [List.append_assoc]
      cases haccepted : x.accepted S.env.enums b.pattern.form with
      | true =>
        rw [haccepted] at hfirst hdecide
        obtain rfl : b = a := Option.some.inj hfirst
        refine Enters.after (Enters.choice ?_) (hdecide _)
        rw [if_pos rfl,← pushes_inside 1,← List.append_nil (bound ++ body ++ _)]
        exact arm_enters hbound hbody hslots hb hx haccepted hheld hsubject hlocals
      | false =>
        rw [haccepted] at hfirst hdecide
        refine Enters.after (Enters.choice ?_) (hdecide _)
        rw [if_neg Bool.false_ne_true,← List.append_nil rest]
        exact ih hrest henums hslots has hlocals hfirst

def outType (c : Context) (n : Note) (e : Expr) (as : List Arm) : BlockType :=
  if pushes c (.select n e as) then n.type.map Ty.valType else none

/-- What follows the arms of a match: if none of them comes to an end, the end is never reached. -/
def ending (out : BlockType) (as : List Arm) : List Instr :=
  if out = none && allDiverge as then [Instr.trap] else []

theorem select_code {n : Note} {e : Expr} {as : List Arm}
    (h : expr c (.select n e as) s = .ok (code, s')) :
    ∃ scrutinee chosen s₁ s₂, expr c e s₁ = .ok (scrutinee, s₂) ∧
      arms c (c.slots.length + s.temps.size) (outType c n e as) as s₂ = .ok (chosen, s') ∧
      code = scrutinee ++
        (Instr.set (c.slots.length + s.temps.size) :: chosen ++ ending (outType c n e as) as) := by
  rw [expr] at h
  obtain ⟨u,s₁,hgap,hsubject⟩ := ok_of_bind h
  obtain ⟨i,s₂,htemp,hcode⟩ := ok_of_bind hsubject
  obtain ⟨scrutinee,s₃,he,hchosen⟩ := ok_of_bind hcode
  obtain ⟨chosen,s₄,harms,hout⟩ := ok_of_bind hchosen
  obtain ⟨-,rfl⟩ := ok_of_orGap hgap
  cases htemp
  cases hout
  refine ⟨scrutinee,chosen,_,s₃,he,harms,?_⟩
  simp [ending, outType]

/-- What the code of a match does with a value: once the subject is on the stack it enters an arm, with the
subject in a local of its own and the name of the pattern set. -/
def Selects (c : Context) (n : Note) (e : Expr) (as : List Arm) (x : Datum) (a : Arm) : Prop :=
  ∀ s code s', expr c (.select n e as) s = .ok (code, s') →
    ∃ scrutinee tail, code = scrutinee ++ tail ∧ (∃ s₁ s₂, expr c e s₁ = .ok (scrutinee, s₂)) ∧
      ∀ memory pool arity v st L fs is, Holding memory pool → s'.pool.texts <+: pool.texts →
        x.Held memory v → c.slots.length + s.temps.size < L.length →
        Enters memory arity c (outType c n e as) ⟨v :: st,L,fs,tail ++ is⟩ st fs
          (ending (outType c n e as) as ++ is) a
          (named x v a.pattern.form (L.set (c.slots.length + s.temps.size) v))

theorem selects_first {n : Note} {e : Expr} {as : List Arm}
    (henums : ∀ n, c.enum? n = S.env.enum? n) (hslots : c.slots = S.slots)
    (hp : ∀ a ∈ as, PatternSound S t a.pattern.form) (hx : x.Of S.env t)
    (hfirst : firstMatch? S.env.enums x as = some a) : Selects c n e as x a := by
  intro s code s' h
  obtain ⟨scrutinee,chosen,s₁,s₂,he,harms,rfl⟩ := select_code h
  refine ⟨scrutinee,_,rfl,⟨s₁,s₂,he⟩,fun memory pool arity v st L fs is hmem hpool hheld hlt => ?_⟩
  have hsubject : (L.set (c.slots.length + s.temps.size) v)[c.slots.length + s.temps.size]? = some v := by
    rw [List.getElem?_set_self hlt]
  have hlocals : c.slots.length ≤ (L.set (c.slots.length + s.temps.size) v).length := by
    rw [List.length_set]
    omega
  rw [List.cons_append,List.cons_append,List.append_assoc]
  exact (arms_enter harms hpool hmem henums hslots hp hx hheld hsubject hlocals hfirst).after
    (Reaches.set hlt)

/-- Every match takes the first arm whose pattern matches, and there always is one. Arms after a pattern that
matches everything have no code and are never the first to match. -/
def deciding (env : Check.Env) (place : Nat → Option LoopLevels → Context) : Rule where
  expr e := match e with
    | .select n e as => ∀ t x, e.type = some t → x.Of env t →
        ∃ a, firstMatch? env.enums x as = some a ∧ (∀ depth loop, Selects (place depth loop) n e as x a) ∧
        ∀ before b after, as = before ++ b :: after → b.pattern.form.isCatchAll = true →
          firstMatch? env.enums x (before ++ [b]) = some a ∧
          ∀ c subject out, arms c subject out as = arms c subject out (before ++ [b])
    | _ => True
  stmt _ _ := True
  guard _ := True

theorem ne_error_of_isMatchable (h : Check.isMatchable t = true) : t ≠ .error := by
  rintro rfl
  cases h

theorem deciding_join {place : Nat → Option LoopLevels → Context} (hs : S.strict)
    (hdistinct : ∀ d ∈ S.env.enums, d.variants.Nodup)
    (henums : ∀ depth loop n, (place depth loop).enum? n = S.env.enum? n)
    (hslots : ∀ depth loop, (place depth loop).slots = S.slots) :
    (rule S).Join (covering S.env) (deciding S.env place) where
  expr e h h' := by
    cases e with
    | select n e as =>
      intro t x ht hx
      obtain ⟨u,r,hu,hmatch,-,harms⟩ := (h.2 hs).2
      obtain rfl : u = t := Option.some.inj (hu.symm.trans ht)
      have hp (a : Arm) (ha : a ∈ as) : PatternSound S u a.pattern.form := (harms a ha).1
      obtain ⟨a,hfirst⟩ := exists_firstMatch hdistinct hx (fun a ha => (hp a ha).1)
        (h' u ht (ne_error_of_isMatchable hmatch))
      refine ⟨a,hfirst,fun depth loop => ?_,fun before b after has hall => ⟨?_,fun c subject out => ?_⟩⟩
      · exact selects_first (henums depth loop) (hslots depth loop) hp hx hfirst
      · rw [has,firstMatch?_append hall] at hfirst
        exact hfirst
      · rw [has,arms_append hall]
    | _ => trivial
  stmt _ _ _ _ := trivial
  guard _ _ _ := trivial

end Matching

open Matching in
/-- Every match in the functions of an accepted program, as they are lowered, enters the first arm whose
pattern matches, whatever value of its type the subject has. There always is such an arm, so the trap behind
the last test is never reached. -/
theorem Program.matches_take_first (z : Optimize.Solver) (o : Options) (p : Program) (hwritten : p.Written)
    (haccepted : (p.check o.shadowing).accepted = true) :
    ∀ f ∈ (p.prepared z o).functions, f.body.Every (deciding ((p.prepared z o).env o.shadowing)
      fun depth loop => { Lower.context o (p.prepared z o) with slots := f.slots, depth, loop }) false := by
  intro f hf
  have htyped := typed_of_accepted (z := z) haccepted
  obtain ⟨hcovering,hdistinct⟩ := prepared_covering (z := z) hwritten haccepted
  refine (htyped.functions f hf).body.join (deciding_join hwritten hdistinct (fun _ _ n => ?_) fun _ _ => rfl)
    (hcovering f hf)
  exact find?_reverse_of_nodup htyped.enumNames n

/-- `enum Color { Red, Blue } fn run(s: String) -> Integer { let c: Color = match s { "red" => Color::Red, other
=> Color::Blue, _ => Color::Red }; return match c { Color::Blue => 1, Color::Red => match Some(s) { Some(t) => 2,
None => 3 } }; }` -/
def sorting : Program :=
  let pos : Pos := .unknown
  let note : Note := ⟨pos, none⟩
  let s : Expr := .name note "s" none
  ⟨pos, [.enum ⟨pos, "Color", ["Red", "Blue"]⟩,
    .function ⟨pos, "run", [⟨pos, "s", .string⟩], some .integer, .mk pos
      [.bind pos "c" (some (.record "Color")) (.select note s
          [.mk pos ⟨pos, .text "red"⟩ (.enum note "Color" "Red" none),
            .mk pos ⟨pos, .bind ⟨"other", none⟩⟩ (.enum note "Color" "Blue" none),
            .mk pos ⟨pos, .wild⟩ (.enum note "Color" "Red" none)]) none,
        .ret pos (some (.select note (.name note "c" none)
          [.mk pos ⟨pos, .enum "Color" "Blue"⟩ (.int note 1),
            .mk pos ⟨pos, .enum "Color" "Red"⟩ (.select note (.wrap note .some s)
              [.mk pos ⟨pos, .some (some ⟨"t", none⟩)⟩ (.int note 2),
                .mk pos ⟨pos, .none⟩ (.int note 3)])]))], []⟩], none⟩

theorem sorting_written : sorting.Written where
  functions := by
    rintro f (_ | ⟨_,⟨⟩⟩)
    exact ⟨⟨by decide,by decide⟩,by simp [Block.Every, Stmt.EveryIn, Stmt.Every, Expr.Every, Arm.EveryIn,
      written, Ty.isProper]⟩
  records := nofun
  constants := nofun

open Matching in
theorem matches_take_first_sorting : (sorting.check .warn).accepted = true ∧
    ∃ f ∈ (sorting.prepared unaided .default).functions, f.slots = [.string, .string, .enum "Color", .string] ∧
      f.body.Every (deciding ((sorting.prepared unaided .default).env .warn) fun depth loop =>
        { Lower.context .default (sorting.prepared unaided .default) with slots := f.slots, depth, loop }) false := by
  have haccepted : (sorting.check .warn).accepted = true := by decide +kernel
  have hslots : (sorting.prepared unaided .default).functions.map (·.slots) =
      [[.string, .string, .enum "Color", .string]] := by decide +kernel
  obtain ⟨f,hf,hslots⟩ := List.map_eq_singleton_iff.mp hslots
  have hmem : f ∈ (sorting.prepared unaided .default).functions := by rw [hf]; exact .head _
  exact ⟨haccepted,f,hmem,hslots,
    Program.matches_take_first unaided .default sorting sorting_written haccepted f hmem⟩

end Covenant
