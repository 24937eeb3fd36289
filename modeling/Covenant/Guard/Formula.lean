import Covenant.Syntax.Basic

/-! Guards as formulas over 64-bit words and truth values, one unknown for each storage slot. Only what
can neither trap nor have an effect has a formula. -/

namespace Covenant.Guard

abbrev Word := BitVec 64

inductive Term where
  | const (w : Word)
  | var (slot : Nat)
  | neg (t : Term)
  | add (s t : Term)
  | sub (s t : Term)
  | mul (s t : Term)
  deriving DecidableEq, Repr

inductive Formula where
  | const (b : Bool)
  | var (slot : Nat)
  | not (f : Formula)
  | and (f g : Formula)
  | or (f g : Formula)
  | iff (f g : Formula)
  | eq (s t : Term)
  | lt (s t : Term)
  | le (s t : Term)
  deriving DecidableEq, Repr

structure Valuation where
  word : Nat → Word
  truth : Nat → Bool

def Term.eval (v : Valuation) : Term → Word
  | const w => w
  | var i => v.word i
  | neg t => -t.eval v
  | add s t => s.eval v + t.eval v
  | sub s t => s.eval v - t.eval v
  | mul s t => s.eval v * t.eval v

/-- Comparisons are those of signed words. -/
def Formula.eval (v : Valuation) : Formula → Bool
  | const b => b
  | var i => v.truth i
  | not f => !f.eval v
  | and f g => f.eval v && g.eval v
  | or f g => f.eval v || g.eval v
  | iff f g => f.eval v == g.eval v
  | eq s t => s.eval v == t.eval v
  | lt s t => (s.eval v).slt (t.eval v)
  | le s t => (s.eval v).sle (t.eval v)

def Formula.Unsat (f : Formula) : Prop :=
  ∀ v : Valuation, f.eval v = false

def Formula.conj : List Formula → Formula
  | [] => .const true
  | f :: fs => .and f (conj fs)

theorem Formula.eval_conj (v : Valuation) (fs : List Formula) :
    (conj fs).eval v = fs.all (·.eval v) := by
  induction fs with
  | nil => rfl
  | cons f fs ih => simp [conj, eval, ih]

inductive Meaning where
  | word (t : Term)
  | truth (f : Formula)
  deriving DecidableEq, Repr

namespace Meaning

def ofSlot? (type : Ty) (slot : Nat) : Option Meaning :=
  match type with
  | .integer | .mana | .enum _ => some (word (.var slot))
  | .boolean => some (truth (.var slot))
  | _ => none

def unary? : UnaryOp → Meaning → Option Meaning
  | .neg, word t => some (word (.neg t))
  | .not, truth f => some (truth (.not f))
  | _, _ => none

def binary? : BinaryOp → Meaning → Meaning → Option Meaning
  | .add, word s, word t => some (word (.add s t))
  | .sub, word s, word t => some (word (.sub s t))
  | .mul, word s, word t => some (word (.mul s t))
  | .lt, word s, word t => some (truth (.lt s t))
  | .gt, word s, word t => some (truth (.lt t s))
  | .le, word s, word t => some (truth (.le s t))
  | .ge, word s, word t => some (truth (.le t s))
  | .eq, word s, word t => some (truth (.eq s t))
  | .ne, word s, word t => some (truth (.not (.eq s t)))
  | .and, truth f, truth g => some (truth (.and f g))
  | .or, truth f, truth g => some (truth (.or f g))
  | .eq, truth f, truth g => some (truth (.iff f g))
  | .ne, truth f, truth g => some (truth (.not (.iff f g)))
  | _, _, _ => none

def ofExpr? : Expr → Option Meaning
  | .int _ v => some (word (.const (BitVec.ofInt 64 v)))
  | .bool _ b => some (truth (.const b))
  | .enum _ _ _ (some tag) => some (word (.const (BitVec.ofNat 64 tag)))
  | .name ⟨_, some t⟩ _ (some ⟨_, _, _, _, some slot, _⟩) => ofSlot? t slot
  | .unary _ op e =>
    match ofExpr? e with
    | some m => unary? op m
    | none => none
  | .binary _ op a b =>
    match ofExpr? a, ofExpr? b with
    | some m, some n => binary? op m n
    | _, _ => none
  | _ => none

end Meaning

def formula? (e : Expr) : Option Formula :=
  match Meaning.ofExpr? e with
  | some (.truth f) => some f
  | _ => none

end Covenant.Guard
