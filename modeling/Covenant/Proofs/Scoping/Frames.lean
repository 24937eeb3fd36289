import Covenant.Proofs.Typing.Scopes

/-! Runs of the operations on a scope. Every variable in the frames keeps a slot of its own, a name means its
newest symbol in the innermost frame that has one, and what is done between opening a frame and closing it
again changes no answer around it. -/

namespace Covenant

inductive ScopeOp where
  | beginFunction
  | push (nested : Bool)
  | pop
  | declare (name : String) (type : Ty) (kind : SymbolKind) (isMutable : Bool)
  | allocate (type : Ty)
  | register (symbol : Symbol)
  deriving DecidableEq, Repr

namespace ScopeOp

def apply (s : Scope) : ScopeOp → Scope
  | beginFunction => s.beginFunction
  | push nested => s.push nested
  | pop => s.pop
  | declare x t k m => (s.declare x t k m).2
  | allocate t => (s.allocate t).2
  | register y => s.registerGlobal y

/-- Every frame that is opened is closed again, and so are `depth` more that are open before; neither the
function nor the constants change. -/
def isBalanced : Nat → List ScopeOp → Bool
  | depth, [] => depth = 0
  | depth, push _ :: ops => isBalanced (depth + 1) ops
  | 0, pop :: _ => false
  | depth + 1, pop :: ops => isBalanced depth ops
  | depth, declare .. :: ops | depth, allocate _ :: ops => isBalanced depth ops
  | _, beginFunction :: _ | _, register _ :: _ => false

end ScopeOp

namespace Scope

def run (s : Scope) (ops : List ScopeOp) : Scope := ops.foldl ScopeOp.apply s

def symbols (s : Scope) : List Symbol := s.frames.flatMap (·.symbols)

variable {s : Scope} {x : String} {y : Symbol}

/-- Each variable has a slot of its type, and no other one has it. -/
structure Sound (s : Scope) : Prop where
  typed : ∀ y ∈ s.symbols, ∃ i, y.slot = some i ∧ s.slots[i]? = some y.type
  distinct : (s.symbols.map (·.slot)).Nodup

namespace Sound

theorem empty : Scope.empty.Sound := ⟨by simp [symbols, Scope.empty],by simp [symbols, Scope.empty]⟩

theorem beginFunction (s : Scope) : s.beginFunction.Sound :=
  ⟨by simp [symbols, Scope.beginFunction],by simp [symbols, Scope.beginFunction]⟩

theorem mono {t : Scope} (h : s.Sound) (hsymbols : t.symbols.Sublist s.symbols) (hslots : s.slots <+: t.slots) :
    t.Sound where
  typed y hy := by
    obtain ⟨i,hi,htype⟩ := h.typed y (hsymbols.subset hy)
    exact ⟨i,hi,getElem?_of_initial hslots htype⟩
  distinct := h.distinct.sublist (hsymbols.map _)

theorem pop (h : s.Sound) : s.pop.Sound := by
  refine h.mono ?_ (List.prefix_refl _)
  simp only [symbols, Scope.pop]
  cases s.frames with
  | nil => exact .refl _
  | cons f fs => exact List.sublist_append_right _ _

theorem allocate (h : s.Sound) (t : Ty) : (s.allocate t).2.Sound :=
  h.mono (.refl _) (List.prefix_append _ _)

theorem declare (h : s.Sound) (x : String) (t : Ty) (k : SymbolKind) (m : Bool) : (s.declare x t k m).2.Sound := by
  cases hframes : s.frames with
  | nil =>
    refine h.mono ?_ (List.prefix_append _ _)
    simp [symbols, Scope.declare, Scope.allocate, hframes]
  | cons f fs =>
    have hsymbols : (s.declare x t k m).2.symbols = (s.declare x t k m).1 :: s.symbols := by
      simp [symbols, Scope.declare, Scope.allocate, hframes]
    have hslots : (s.declare x t k m).2.slots = s.slots ++ [t] := rfl
    refine ⟨?_,?_⟩
    · rw [hsymbols,hslots]
      refine List.forall_mem_cons.mpr ⟨⟨s.slots.length,rfl,List.getElem?_concat_length⟩,fun y hy => ?_⟩
      obtain ⟨i,hi,htype⟩ := h.typed y hy
      exact ⟨i,hi,getElem?_of_initial (List.prefix_append _ _) htype⟩
    · rw [hsymbols,List.map_cons]
      refine List.nodup_cons.mpr ⟨fun hmem => ?_,h.distinct⟩
      obtain ⟨y,hy,hslot⟩ := List.mem_map.mp hmem
      obtain ⟨i,hi,htype⟩ := h.typed y hy
      have hlast : i = s.slots.length := Option.some.inj (hi.symm.trans hslot)
      rw [hlast,List.getElem?_eq_none (Nat.le_refl _)] at htype
      cases htype

theorem apply (h : s.Sound) (op : ScopeOp) : (op.apply s).Sound := by
  cases op with
  | beginFunction => exact .beginFunction s
  | push nested => exact h.mono (.refl _) (List.prefix_refl _)
  | pop => exact h.pop
  | declare x t k m => exact h.declare x t k m
  | allocate t => exact h.allocate t
  | register y => exact ⟨h.typed,h.distinct⟩

theorem run (h : s.Sound) (ops : List ScopeOp) : (s.run ops).Sound := by
  induction ops generalizing s with
  | nil => exact h
  | cons op ops ih => exact ih (h.apply op)

end Sound

theorem slots_run {ops : List ScopeOp} (h : .beginFunction ∉ ops) (s : Scope) : s.slots <+: (s.run ops).slots := by
  induction ops generalizing s with
  | nil => exact List.prefix_refl _
  | cons op ops ih =>
    obtain ⟨hop,hops⟩ := not_or.mp (mt List.mem_cons.mpr h)
    refine List.IsPrefix.trans ?_ (ih hops (op.apply s))
    cases op with
    | beginFunction => exact absurd rfl hop
    | push | pop | register => exact List.prefix_refl _
    | declare x t | allocate t => exact List.prefix_append _ _

/-- The newest symbol of a name; the list has the newest first. -/
def Newest (x : String) (ys : List Symbol) (y : Symbol) : Prop :=
  ∃ newer older, ys = newer ++ y :: older ∧ y.name = x ∧ ∀ z ∈ newer, z.name ≠ x

/-- The symbol of the innermost frame that has the name, or else the constant. -/
inductive Sees (s : Scope) (x : String) (y : Symbol) : Prop
  | variable (inner : List Frame) (f : Frame) (outer : List Frame) (hframes : s.frames = inner ++ f :: outer)
    (hinner : ∀ g ∈ inner, ∀ z ∈ g.symbols, z.name ≠ x) (h : Newest x f.symbols y)
  | constant (hframes : ∀ f ∈ s.frames, ∀ z ∈ f.symbols, z.name ≠ x) (h : Newest x s.globals y)

theorem find?_name_eq_some {ys : List Symbol} : ys.find? (·.name = x) = some y ↔ Newest x ys y := by
  rw [List.find?_eq_some_iff_append]
  simp only [decide_eq_true_eq, Bool.not_eq_true', decide_eq_false_iff_not, Newest]
  grind

theorem find?_eq_none {f : Frame} : f.find? x = none ↔ ∀ z ∈ f.symbols, z.name ≠ x := by
  simp [Frame.find?]

theorem findIn?_eq_some {fs : List Frame} : findIn? fs x = some y ↔ ∃ inner f outer, fs = inner ++ f :: outer ∧
    (∀ g ∈ inner, ∀ z ∈ g.symbols, z.name ≠ x) ∧ Newest x f.symbols y := by
  rw [findIn?,List.findSome?_eq_some_iff]
  simp only [← find?_name_eq_some, Frame.find?]
  grind

theorem get?_eq_some : s.get? x = some y ↔ s.Sees x y := by
  have hnone : findIn? s.frames x = none ↔ ∀ f ∈ s.frames, ∀ z ∈ f.symbols, z.name ≠ x := by
    simp only [findIn?, List.findSome?_eq_none_iff, find?_eq_none]
  simp only [get?, Option.orElse_eq_orElse, Option.orElse_eq_or, Option.or_eq_some_iff, findIn?_eq_some, hnone,
    findGlobal?, find?_name_eq_some]
  constructor
  · rintro (⟨inner,f,outer,hframes,hinner,h⟩ | ⟨hframes,h⟩)
    · exact .variable inner f outer hframes hinner h
    · exact .constant hframes h
  · rintro (⟨inner,f,outer,hframes,hinner,h⟩ | ⟨hframes,h⟩)
    · exact .inl ⟨inner,f,outer,hframes,hinner,h⟩
    · exact .inr ⟨hframes,h⟩

theorem get?_declare (h : s.frames ≠ []) (x z : String) (t : Ty) (k : SymbolKind) (m : Bool) :
    (s.declare x t k m).2.get? z = if z = x then some (s.declare x t k m).1 else s.get? z := by
  obtain ⟨f,fs,hframes⟩ := List.exists_cons_of_ne_nil h
  have hown : (s.declare x t k m).1.name = x := rfl
  have hfind : findIn? (s.declare x t k m).2.frames z =
      if z = x then some (s.declare x t k m).1 else findIn? s.frames z := by
    simp only [Scope.declare, Scope.allocate, hframes, findIn?, List.findSome?_cons, Frame.find?, List.find?_cons]
    by_cases hz : z = x
    · simp [hz]
    · have hx : ¬ x = z := fun h => hz h.symm
      simp [hz, hx]
  have hglobals : (s.declare x t k m).2.findGlobal? z = s.findGlobal? z := rfl
  simp only [get?, hfind, hglobals]
  split <;> rfl

theorem run_balanced {inner outer : List Frame} {f : Frame} {ops : List ScopeOp}
    (hs : s.frames = inner ++ f :: outer) (h : ScopeOp.isBalanced inner.length ops = true) :
    ∃ g, (s.run ops).frames = g :: outer ∧ (s.run ops).globals = s.globals := by
  -- the frames opened so far are above the one that stays open
  induction ops generalizing s inner f with
  | nil =>
    simp only [ScopeOp.isBalanced, decide_eq_true_eq, List.length_eq_zero_iff] at h
    subst h
    exact ⟨f,hs,rfl⟩
  | cons op ops ih =>
    cases op with
    | beginFunction | register => simp [ScopeOp.isBalanced] at h
    | push nested =>
      rw [ScopeOp.isBalanced] at h
      have hpushed : (s.push nested).frames = (⟨[],nested⟩ :: inner) ++ f :: outer := by simp [Scope.push, hs]
      exact ih hpushed h
    | pop =>
      cases inner with
      | nil => simp [ScopeOp.isBalanced] at h
      | cons g inner =>
        rw [List.length_cons,ScopeOp.isBalanced] at h
        have hpopped : s.pop.frames = inner ++ f :: outer := by simp [Scope.pop, hs]
        exact ih hpopped h
    | allocate t =>
      rw [ScopeOp.isBalanced] at h
      exact ih (s := (s.allocate t).2) hs h
    | declare x t k m =>
      rw [ScopeOp.isBalanced] at h
      -- the new variable is in the innermost of them, which may be the one that stays open
      have hframes : ∃ inner' f', (s.declare x t k m).2.frames = inner' ++ f' :: outer ∧
          inner'.length = inner.length := by
        simp only [Scope.declare, Scope.allocate, hs]
        cases inner with
        | nil => exact ⟨[],_,rfl,rfl⟩
        | cons g inner => exact ⟨_ :: inner,f,rfl,rfl⟩
      obtain ⟨inner',f',hs',hlength⟩ := hframes
      exact ih hs' (hlength ▸ h)

theorem pop_run_balanced {ops : List ScopeOp} (h : ScopeOp.isBalanced 0 ops = true) (s : Scope) (nested : Bool) :
    ((s.push nested).run ops).pop.frames = s.frames ∧ ((s.push nested).run ops).pop.globals = s.globals := by
  have hpushed : (s.push nested).frames = [] ++ ⟨[],nested⟩ :: s.frames := rfl
  obtain ⟨g,hframes,hglobals⟩ := run_balanced hpushed h
  exact ⟨by rw [Scope.pop,hframes]; rfl,hglobals⟩

/-- In every run all variables in the frames have slots of their own and of their types, and the slots of a
function only grow. A name means its newest symbol in the innermost frame that has one, or else the constant.
After a frame is closed every name means what it meant before the frame was opened. -/
theorem frames_faithful :
    (∀ ops : List ScopeOp, let s := Scope.empty.run ops
      (∀ y ∈ s.symbols, ∃ i, i < s.slots.length ∧ y.slot = some i ∧ s.slots[i]? = some y.type) ∧
        (s.symbols.map (·.slot)).Nodup) ∧
    (∀ (s : Scope) (ops : List ScopeOp), .beginFunction ∉ ops → s.slots <+: (s.run ops).slots) ∧
    (∀ (s : Scope) (x : String),
      (∀ y, s.get? x = some y ↔ s.Sees x y) ∧
      ∀ z t k m, s.frames ≠ [] → (s.declare z t k m).2.get? x =
        if x = z then some (s.declare z t k m).1 else s.get? x) ∧
    ∀ (s : Scope) (nested : Bool) (ops : List ScopeOp), ScopeOp.isBalanced 0 ops = true → ∀ x,
      ((s.push nested).run ops).pop.get? x = s.get? x ∧
        ((s.push nested).run ops).pop.getOuter? x = s.getOuter? x := by
  refine ⟨fun ops => ?_,fun s ops h => slots_run h s,fun s x => ⟨fun y => get?_eq_some,fun z t k m h => ?_⟩,
    fun s nested ops h x => ?_⟩
  · have hsound := Sound.empty.run ops
    refine ⟨fun y hy => ?_,hsound.distinct⟩
    obtain ⟨i,hi,htype⟩ := hsound.typed y hy
    exact ⟨i,(List.getElem?_eq_some_iff.mp htype).1,hi,htype⟩
  · exact get?_declare h z x t k m
  · obtain ⟨hframes,hglobals⟩ := pop_run_balanced h s nested
    simp only [get?, getOuter?, findGlobal?, hframes, hglobals, and_self]

/-- A variable of a branch hides one of the same name, takes a slot that is not given back, and is gone after
the branch. -/
theorem frames_faithful_branch :
    let before := Scope.empty.run [.beginFunction, .push false, .declare "n" .integer .param true]
    let body : List ScopeOp := [.declare "n" .string .letBound true, .push true, .allocate .boolean, .pop]
    let after := ((before.push true).run body).pop
    ScopeOp.isBalanced 0 body = true ∧ .beginFunction ∉ body ∧
      ((before.push true).run body).get? "n" = some ⟨"n", .string, true, .letBound, some 1, none⟩ ∧
      after.get? "n" = before.get? "n" ∧ (before.push true).slots <+: ((before.push true).run body).slots ∧
      after.slots = [.integer, .string, .boolean] := by
  intro before body after
  have hbalanced : ScopeOp.isBalanced 0 body = true := by decide
  have hbody : .beginFunction ∉ body := by decide
  exact ⟨hbalanced,hbody,by decide,(frames_faithful.2.2.2 before true body hbalanced "n").1,
    frames_faithful.2.1 (before.push true) body hbody,by decide⟩

end Scope

end Covenant
