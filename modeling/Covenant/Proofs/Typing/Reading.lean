import Covenant.Proofs.Typing.Forms

/-! What is read from a text is written as the typing rules want it: a declared type is built from names,
and only a place stands on the left of an assignment. -/

namespace Covenant

variable {T : Ty → Bool}

def Item.Formed (T : Ty → Bool) : Item → Prop
  | .function f => f.HeadFormed T ∧ f.body.Every (formed T) false
  | .record r => ∀ f ∈ r.fields, T f.type = true
  | .enum _ => True
  | .constant c => T c.type = true ∧ c.value.Every (formed T) false

def Phrase.Formed (T : Ty → Bool) : Phrase → Prop
  | .type t => T t = true
  | .expr e => ∀ l, e.Every (formed T) l
  | .args es => ∀ l, Expr.EveryIn (formed T) l es
  | .init f => ∀ l, f.value.Every (formed T) l
  | .arm a => ∀ l, a.body.Every (formed T) l
  | .stmt s => ∀ l, s.Every (formed T) l
  | .block b => ∀ l, b.Every (formed T) l
  | .branch _ c b => ∀ l, c.Every (formed T) l ∧ b.Every (formed T) l
  | .param p => T p.type = true
  | .params ps => ∀ p ∈ ps, T p.type = true
  | .fieldDecl d => T d.type = true
  | .item i => i.Formed T
  | .contract _ _ is => ∀ i ∈ is, i.Formed T
  | .program p => ∀ i ∈ p.items, i.Formed T
  | _ => True

namespace Phrase

variable {ps : List Phrase}

theorem everyIn_filterMap_expr? (h : ∀ q ∈ ps, q.Formed T) (l : Bool) :
    Expr.EveryIn (formed T) l (ps.filterMap expr?) := by
  refine parts_walk ps h trivial fun q _ hq hps => ?_
  cases q with
  | expr e => exact ⟨hq l,hps⟩
  | _ => exact hps

theorem everyIn_filterMap_stmt? (h : ∀ q ∈ ps, q.Formed T) (l : Bool) :
    Stmt.EveryIn (formed T) l (ps.filterMap stmt?) := by
  refine parts_walk ps h trivial fun q _ hq hps => ?_
  cases q with
  | stmt s => exact ⟨hq l,hps⟩
  | _ => exact hps

theorem everyIn_filterMap_init? (h : ∀ q ∈ ps, q.Formed T) (l : Bool) :
    FieldInit.EveryIn (formed T) l (ps.filterMap init?) := by
  refine parts_walk ps h trivial fun q _ hq hps => ?_
  cases q with
  | init f =>
    obtain ⟨p,x,e⟩ := f
    exact ⟨hq l,hps⟩
  | _ => exact hps

theorem everyIn_filterMap_arm? (h : ∀ q ∈ ps, q.Formed T) (l : Bool) :
    Arm.EveryIn (formed T) l (ps.filterMap arm?) := by
  refine parts_walk ps h trivial fun q _ hq hps => ?_
  cases q with
  | arm a =>
    obtain ⟨p,x,e⟩ := a
    exact ⟨hq l,hps⟩
  | _ => exact hps

theorem every_chain (h : ∀ q ∈ ps, q.Formed T) (l : Bool) : (chain ps).Every (formed T) l := by
  refine parts_walk ps h trivial fun q _ hq hps => ?_
  cases q with
  | branch p c b => exact ⟨trivial,(hq l).1,(hq l).2,hps⟩
  | block b => exact hq l
  | _ => exact hps

theorem formed_flatItems (h : ∀ q ∈ ps, q.Formed T) : ∀ i ∈ flatItems ps, i.Formed T := by
  refine parts_walk ps h nofun fun q _ hq hps => ?_
  cases q with
  | item i => exact List.forall_mem_cons.mpr ⟨hq,hps⟩
  | contract n fs is => exact List.forall_mem_append.mpr ⟨hq,hps⟩
  | _ => exact hps

end Phrase

namespace Build

/-- What holds of every name of a type and is kept by the types with a part holds of every type that is
read. -/
structure Keeps (T : Ty → Bool) : Prop where
  named : ∀ x, T (namedType x) = true
  generic : ∀ x make t, generic? x = some make → T t = true → T (make t) = true

variable {form : Form} {pos : Pos} {parts : List Phrase} {q : Phrase}

theorem declaration_formed (hT : Keeps T) (hparts : ∀ q ∈ parts, q.Formed T)
    (h : declaration form pos parts = .ok q) : q.Formed T := by
  unfold declaration at h
  split at h <;> try simp only [List.forall_mem_cons] at hparts
  · unfold program at h
    split at h <;> cases h
    exact Phrase.formed_flatItems hparts
  · dsimp only at h
    split at h <;> cases h
    intro i hi
    obtain ⟨x,hx,heq⟩ := List.mem_filterMap.mp hi
    cases x <;> cases heq
    exact hparts.2 _ hx
  · split at h
    · unfold literal at h
      split at h <;> cases h
      trivial
    · cases h
  · cases h
    obtain ⟨-,hps,ht,hb,-⟩ := hparts
    exact ⟨⟨hps,fun t h => Option.some.inj h ▸ ht⟩,hb false⟩
  · cases h
    obtain ⟨-,hps,hb,-⟩ := hparts
    exact ⟨⟨hps,fun t h => nomatch h⟩,hb false⟩
  · cases h
    obtain ⟨-,ht,hb,-⟩ := hparts
    exact ⟨⟨(fun p hp => nomatch hp),fun t h => Option.some.inj h ▸ ht⟩,hb false⟩
  · cases h
    obtain ⟨-,hb,-⟩ := hparts
    exact ⟨⟨(fun p hp => nomatch hp),fun t h => nomatch h⟩,hb false⟩
  · cases h
    exact hparts.1
  · cases h
    intro p hp
    obtain ⟨x,hx,heq⟩ := List.mem_filterMap.mp hp
    cases x <;> cases heq
    exact hparts _ hx
  · cases h
    exact hparts.2.1
  · cases h
    intro d hd
    obtain ⟨x,hx,heq⟩ := List.mem_filterMap.mp hd
    cases x <;> cases heq
    exact hparts.2 _ hx
  · cases h
    exact hparts.2.1
  · cases h
    trivial
  · cases h
    exact ⟨hparts.2.1,hparts.2.2.1 false⟩
  · cases h
    exact hT.named _
  · split at h <;> cases h
    rename_i hmake
    exact hT.generic _ _ _ hmake hparts.2.1
  · cases h

theorem statement_formed (hparts : ∀ q ∈ parts, q.Formed T)
    (h : statement form pos parts = .ok q) : q.Formed T := by
  unfold statement at h
  split at h <;> try simp only [List.forall_mem_cons] at hparts
  · cases h
    exact fun l => Phrase.everyIn_filterMap_stmt? hparts l
  · cases h
    exact fun l => ⟨hparts.2.1,hparts.2.2.1 l⟩
  · cases h
    exact fun l => ⟨trivial,hparts.2.1 l⟩
  · split at h <;> cases h
    rename_i target _ hplace
    intro l
    by_cases hname : target.isName = true
    · obtain ⟨n,x,sym,rfl⟩ := target.eq_name_of_isName hname
      exact ⟨hplace,hparts.2.1 l⟩
    · exact (Stmt.every_assign (Bool.not_eq_true _ ▸ hname)).mpr ⟨hplace,hparts.1 l,hparts.2.1 l⟩
  · cases h
    exact fun l => ⟨trivial,hparts.1 l⟩
  · cases h
    exact fun l => trivial
  · cases h
    exact fun l => ⟨trivial,trivial,hparts.1 l,hparts.2.1 l,Phrase.every_chain hparts.2.2 l⟩
  · cases h
    exact fun l => ⟨hparts.1 l,hparts.2.1 l⟩
  · cases h
    exact hparts.1
  · cases h
    exact fun l => ⟨trivial,hparts.1 l,hparts.2.1 true⟩
  · cases h
    exact fun l => ⟨trivial,hparts.2.1 l,hparts.2.2.1 true⟩
  · cases h
    exact fun l => trivial
  · cases h
    exact fun l => trivial
  · cases h
    exact fun l => ⟨trivial,hparts.1 l⟩
  · cases h

theorem pattern_formed (h : pattern form pos parts = .ok q) : q.Formed T := by
  unfold pattern at h
  split at h
  case h_5 =>
    unfold literal at h
    split at h <;> cases h
    trivial
  all_goals
    cases h
    try trivial

theorem negate_formed {e : Expr} {l : Bool} (h : e.Every (formed T) l) :
    (negate pos e).Every (formed T) l := by
  cases e with
  | int => trivial
  | _ => exact ⟨trivial,h⟩

theorem expression_formed (hparts : ∀ q ∈ parts, q.Formed T)
    (h : expression form pos parts = .ok q) : q.Formed T := by
  unfold expression at h
  split at h <;> try simp only [List.forall_mem_cons] at hparts
  · cases h
    exact fun l => negate_formed (hparts.1 l)
  · cases h
    exact fun l => ⟨trivial,hparts.1 l⟩
  · cases h
    exact fun l => ⟨trivial,hparts.1 l,hparts.2.2.1 l⟩
  · cases h
    exact fun l => ⟨trivial,hparts.1 l,trivial⟩
  · cases h
    exact fun l => ⟨trivial,hparts.1 l⟩
  · cases h
    exact fun l => ⟨trivial,hparts.1 l,hparts.2.1 l⟩
  · cases h
    exact fun l => Phrase.everyIn_filterMap_expr? hparts l
  · split at h <;> cases h
    exact fun l => trivial
  · unfold literal at h
    split at h <;> cases h
    exact fun l => trivial
  · cases h
    exact fun l => trivial
  · cases h
    exact fun l => trivial
  · cases h
    exact fun l => trivial
  · cases h
    exact fun l => ⟨trivial,hparts.2.1 l⟩
  · cases h
    exact fun l => ⟨trivial,trivial⟩
  · cases h
    exact fun l => trivial
  · cases h
    exact fun l => ⟨trivial,hparts.1 l⟩
  · cases h
    exact fun l => ⟨trivial,trivial⟩
  · cases h
    exact fun l => ⟨trivial,Phrase.everyIn_filterMap_init? hparts.2 l⟩
  · cases h
    exact fun l => hparts.2.1 l
  · cases h
    exact fun l => ⟨trivial,hparts.1 l⟩
  · cases h
    exact fun l => ⟨trivial,hparts.1 l⟩
  · cases h
    exact fun l => ⟨trivial,hparts.1 l⟩
  · cases h
    exact fun l => trivial
  · cases h
    exact fun l => ⟨trivial,hparts.1 l,Phrase.everyIn_filterMap_arm? hparts.2 l⟩
  · cases h
    exact fun l => hparts.2.1 l
  · cases h
    intro l
    have hss := Phrase.everyIn_filterMap_stmt? hparts l
    cases htail : parts.getLast?.bind Phrase.expr? with
    | none => exact ⟨trivial,hss⟩
    | some e =>
      obtain ⟨x,hx,hexpr⟩ := Option.bind_eq_some_iff.mp htail
      cases x <;> cases hexpr
      exact ⟨trivial,hss,hparts _ (List.mem_of_getLast? hx) l⟩
  · split at h <;> cases h
    exact fun l => ⟨trivial,hparts.1 l,hparts.2.1 l⟩
  · cases h

theorem phrase_formed (hT : Keeps T) (hparts : ∀ q ∈ parts, q.Formed T) (h : phrase form pos parts = .ok q) :
    q.Formed T := by
  have hgroup : phrase form pos parts = declaration form pos parts ∨
      phrase form pos parts = statement form pos parts ∨
      phrase form pos parts = pattern form pos parts ∨
      phrase form pos parts = expression form pos parts := by
    unfold phrase
    split <;> simp
  rcases hgroup with hg | hg | hg | hg <;> rw [hg] at h
  · exact declaration_formed hT hparts h
  · exact statement_formed hparts h
  · exact pattern_formed h
  · exact expression_formed hparts h

mutual

theorem ofTree_formed (hT : Keeps T) : ∀ (t : Tree) (q : Phrase), ofTree t = .ok q → q.Formed T
  | .leaf _, _, h => by cases h; trivial
  | .node form pos _ children, q, h => by
    rw [ofTree] at h
    cases hparts : ofTrees children with
    | error => rw [hparts] at h; cases h
    | ok parts =>
      rw [hparts] at h
      exact phrase_formed hT (ofTrees_formed hT children parts hparts) h
  | .many _ _, _, h => by cases h

theorem ofTrees_formed (hT : Keeps T) : ∀ (ts : List Tree) (qs : List Phrase), ofTrees ts = .ok qs →
    ∀ q ∈ qs, q.Formed T
  | [], _, h => by cases h; exact fun _ hq => nomatch hq
  | t :: ts, qs, h => by
    rw [ofTrees] at h
    cases hp : ofTree t with
    | error => rw [hp] at h; cases h
    | ok p =>
      cases hps : ofTrees ts with
      | error => rw [hp,hps] at h; cases h
      | ok ps =>
        rw [hp,hps] at h
        cases h
        exact List.forall_mem_cons.mpr ⟨ofTree_formed hT t p hp,ofTrees_formed hT ts ps hps⟩

end

end Build

end Covenant
