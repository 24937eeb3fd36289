import Covenant.Proofs.Typing.Declarations

/-! Where no problem is found, nothing is left open: every node has a type without an error in it, every
name, call, method, enum value and variable is resolved, and every declared type is known. -/

namespace Covenant

def Callee.isResolved : Callee → Bool
  | unresolved _ => false
  | _ => true

namespace Typing

def Filled (type : Option Ty) : Prop := ∃ t, type = some t ∧ t.hasError = false

def InSlot (slots : List Ty) (slot : Option Nat) : Prop := ∃ i, slot = some i ∧ i < slots.length

/-- A node to which checking has added all that it can. -/
def annotated (env : Check.Env) (slots : List Ty) : Rule where
  expr e := Filled e.type ∧ match e with
    | .name _ _ sym => sym.isSome = true
    | .call _ f _ => f.isResolved = true
    | .method _ _ _ _ b => b.isSome = true
    | .enum _ o v tag => ∃ d i, env.enum? o = some d ∧ tag = some i ∧ d.variants[i]? = some v
    | .select _ _ as => ∀ a ∈ as, ∀ b, a.pattern.form.binder? = some b → InSlot slots b.slot
    | _ => True
  stmt _ s := match s with
    | .bind _ _ d _ slot => InSlot slots slot ∧ ∀ t, d = some t → t.Known env
    | .assign _ (.name n _ sym) _ => Filled n.type ∧ sym.isSome = true
    | .each _ _ _ _ slot => InSlot slots slot
    | _ => True
  guard _ := True

theorem inSlot_of_getElem? {slots : List Ty} {slot : Option Nat} {i : Nat} {t : Ty} (h : slot = some i)
    (ht : slots[i]? = some t) : InSlot slots slot :=
  ⟨i,h,(List.getElem?_eq_some_iff.mp ht).1⟩

theorem filled_of_noted {e : Expr} (h : Noted e) : Filled e.type := by
  obtain ⟨t,ht,hsolid⟩ := h
  refine ⟨t,ht,?_⟩
  rcases hsolid with rfl | hsolid
  · rfl
  · exact Ty.hasError_of_isSolid hsolid

theorem variant_of_tag? {d : EnumDecl} {v : String} {i : Nat} (h : d.tag? v = some i) :
    d.variants[i]? = some v := by
  obtain ⟨hi,hv,-⟩ := List.findIdx?_eq_some_iff_getElem.mp h
  rw [List.getElem?_eq_getElem hi]
  exact congrArg some (of_decide_eq_true hv)

variable {S : Site} {env : Check.Env}

theorem annotated_expr (henums : S.env.enums = env.enums) (hs : S.strict) (e : Expr)
    (h : (rule S).expr e) : (annotated env S.slots).expr e := by
  obtain ⟨hplain,h⟩ := h
  obtain ⟨hnoted,hsound⟩ := h hs
  refine ⟨filled_of_noted hnoted,?_⟩
  cases e with
  | name n x sym =>
    obtain ⟨s,rfl,-⟩ := hplain
    rfl
  | call n f args =>
    obtain ⟨ts,-,hcall⟩ := hsound
    cases f with
    | unresolved => exact hcall.elim
    | user | builtin | host => rfl
  | method n e m args b =>
    obtain ⟨op,ts,r,rfl,-⟩ := hsound
    rfl
  | enum n o v tag =>
    obtain ⟨d,i,hd,hi,rfl⟩ := hplain
    refine ⟨d,i,?_,rfl,variant_of_tag? hi⟩
    rwa [Check.Env.enum?,← henums]
  | select n e as =>
    obtain ⟨t,r,-,-,-,harms⟩ := hsound
    intro a ha b hb
    obtain ⟨i,hi,hslot⟩ := (harms a ha).1.2 b hb
    exact inSlot_of_getElem? hi hslot
  | _ => trivial

theorem annotated_stmt {T : Ty → Bool} (hT : ∀ u, env.Resolved T u → u.Known env) (hs : S.strict)
    (l : Bool) (s : Stmt) (h : (rule S).stmt l s) (h' : (ensured env T).stmt l s) :
    (annotated env S.slots).stmt l s := by
  have hsound : StmtSound S l s := h hs
  cases s with
  | bind p x d e slot =>
    obtain ⟨i,t,hi,ht,-⟩ := hsound
    refine ⟨inSlot_of_getElem? hi ht,fun u hu => ?_⟩
    subst hu
    exact hT u h'
  | assign p a e =>
    cases a with
    | name n x sym =>
      obtain ⟨s,rfl,-,hsolid,hn,-⟩ := hsound
      exact ⟨⟨s.type,hn,Ty.hasError_of_isSolid hsolid⟩,rfl⟩
    | _ => trivial
  | each p x e b slot =>
    obtain ⟨i,t,hi,ht,-⟩ := hsound
    exact inSlot_of_getElem? hi ht
  | _ => trivial

theorem annotated_join (env : Check.Env) {T : Ty → Bool} (hT : ∀ u, env.Resolved T u → u.Known env)
    (henums : S.env.enums = env.enums) (hs : S.strict) :
    (rule S).Join (ensured env T) (annotated env S.slots) where
  expr e h _ := annotated_expr henums hs e h
  stmt l s h h' := annotated_stmt hT hs l s h h'
  guard _ _ _ := trivial

end Typing

open Typing in
/-- Where checking finds no problem, it leaves nothing open. In all bodies and initializers every expression
has a type without an error in it, every name a symbol, every call something that it calls, every method an
operation, every enum value the tag of its variant, and every `let`, `for` and pattern a slot for its variable.
The types of parameters, results, fields, constants and annotated variables are built from known names. -/
theorem Program.fully_annotated (policy : Policy) (p : Program) (hformed : p.Formed Ty.isNamed)
    (haccepted : (p.check policy).accepted = true) :
    (∀ f ∈ (p.check policy).program.functions,
      f.body.Every (annotated ((p.check policy).program.env policy) f.slots) false ∧
      (∀ x ∈ f.params, x.type.Known ((p.check policy).program.env policy)) ∧
      ∀ t, f.result = some t → t.Known ((p.check policy).program.env policy)) ∧
    (∀ r ∈ (p.check policy).program.records, ∀ x ∈ r.fields,
      x.type.Known ((p.check policy).program.env policy)) ∧
    ∀ c ∈ (p.check policy).program.constants, c.type.Known ((p.check policy).program.env policy) ∧
      c.value.Every (annotated ((p.check policy).program.env policy) []) false := by
  have hwritten : p.Written := Program.formed_isProper.mp (hformed.mono fun _ => Ty.isProper_of_isNamed)
  have htyped := (Program.check_typed haccepted).1
  obtain ⟨hsettled,hconstants,hfunctions⟩ :=
    Program.check_ensured hformed (fun _ => Ty.isProper_of_isNamed) haccepted
  refine ⟨fun f hf => ⟨?_,fun x hx => ?_,fun t ht => ?_⟩,fun r hr x hx => ?_,fun c hc => ?_⟩
  · exact (htyped.functions f hf).body.join
      (annotated_join (env policy _) (fun _ => Ty.known_of_resolved) rfl hwritten) (hfunctions f hf)
  · refine Ty.known_of_resolved (hsettled.params _ (List.mem_map_of_mem hf) _ ?_)
    exact List.mem_map_of_mem hx
  · exact Ty.known_of_resolved (hsettled.results _ (List.mem_map_of_mem hf) t ht)
  · exact Ty.known_of_resolved (hsettled.fields r hr x hx)
  · obtain ⟨htype,hrule,hensured⟩ := hconstants c hc
    exact ⟨Ty.known_of_resolved htype,
      hrule.join (annotated_join (env policy _) (fun _ => Ty.known_of_resolved) rfl trivial) hensured⟩

/-- `enum Color { Red, Blue } struct Pen { color: Color } const WIDTH: Integer = 2; fn run(n: Integer) ->
Integer { let pen: Option<Pen> = Some(Pen { color: Color::Blue }); for i in [n, WIDTH] { n = match pen {
Some(p) => i, None => 0 }; } return n; }` -/
def drawing : Program :=
  let pos : Pos := .unknown
  let note : Note := ⟨pos, none⟩
  let n : Expr := .name note "n" none
  ⟨pos, [.enum ⟨pos, "Color", ["Red", "Blue"]⟩, .record ⟨pos, "Pen", [⟨pos, "color", .record "Color"⟩]⟩,
    .constant ⟨pos, "WIDTH", .integer, .int note 2⟩,
    .function ⟨pos, "run", [⟨pos, "n", .integer⟩], some .integer, .mk pos
      [.bind pos "pen" (some (.option (.record "Pen"))) (.wrap note .some
          (.record note "Pen" [.mk pos "color" (.enum note "Color" "Blue" none)])) none,
        .each pos "i" (.array note [n, .name note "WIDTH" none]) (.mk pos [.assign pos n
          (.select note (.name note "pen" none)
            [.mk pos ⟨pos, .some (some ⟨"p", none⟩)⟩ (.name note "i" none),
              .mk pos ⟨pos, .none⟩ (.int note 0)])]) none,
        .ret pos (some n)], []⟩], none⟩

theorem drawing_formed : drawing.Formed Ty.isNamed where
  functions := by
    rintro f (_ | ⟨_,⟨⟩⟩)
    exact ⟨⟨by decide,by decide⟩,by simp [Block.Every, Stmt.EveryIn, Stmt.Every, Expr.Every, Expr.EveryIn,
      FieldInit.EveryIn, Arm.EveryIn, formed, Ty.isNamed, Build.isPlace]⟩
  records := by
    rintro r (_ | ⟨_,⟨⟩⟩)
    decide
  constants := by
    rintro c (_ | ⟨_,⟨⟩⟩)
    exact ⟨rfl,trivial⟩

open Typing in
theorem fully_annotated_drawing : (drawing.check .warn).accepted = true ∧
    ∃ f ∈ (drawing.check .warn).program.functions,
      f.slots = [.integer, .option (.record "Pen"), .integer, .record "Pen"] ∧
      f.body.Every (annotated ((drawing.check .warn).program.env .warn) f.slots) false := by
  have haccepted : (drawing.check .warn).accepted = true := by decide +kernel
  have hslots : (drawing.check .warn).program.functions.map (·.slots) =
      [[.integer, .option (.record "Pen"), .integer, .record "Pen"]] := by decide +kernel
  obtain ⟨f,hf,hslots⟩ := List.map_eq_singleton_iff.mp hslots
  have hmem : f ∈ (drawing.check .warn).program.functions := by rw [hf]; exact .head _
  exact ⟨haccepted,f,hmem,hslots,
    ((Program.fully_annotated .warn drawing drawing_formed haccepted).1 f hmem).1⟩

end Covenant
