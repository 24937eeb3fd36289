import Covenant.Proofs.Machine.Store

/-! The allocator moves the heap pointer: what it returns starts where the heap ended, in whole slots. Its
arithmetic wraps around, and the ceiling on pages is what keeps that from showing. -/

namespace Covenant.Machine

open Wasm Lower Memory

/-- A memory under the ceiling of the options, with the heap pointer inside. -/
structure Sound (R : Room) (σ : Store) : Prop where
  some_page : 1 ≤ σ.pages
  pages_le : σ.pages ≤ R.maxPages
  ceiling : R.maxPages ≤ 32768
  heap_le : σ.heap.toNat ≤ σ.size

/-- The sizes that can be asked for: from the next one on, rounding up wraps around. -/
def maxSize : Nat := 2 ^ 32 - 8

/-- Where the heap ends with so many bytes more. -/
def Store.after (σ : Store) (s : BitVec 32) : Nat := align (σ.heap.toNat + s.toNat) slotSize

/-- The pages without which memory does not reach an address. -/
def Store.missing (σ : Store) (a : Nat) : Nat := (a - σ.size + (pageSize - 1)) / pageSize

/-- What a call that returns has done. -/
structure Allocated (R : Room) (σ : Store) (s : BitVec 32) (τ : Store) : Prop where
  heap : τ.heap.toNat = σ.after s
  kept : ∀ i < σ.size, τ.memory i = σ.memory i
  grown : σ.pages ≤ τ.pages
  aligned : τ.heap.toNat % slotSize = 0
  sound : Sound R τ

/-- The new heap pointer as the machine computes it. -/
def bump (p s : BitVec 32) : BitVec 32 :=
  (p + s + BitVec.ofInt 32 (slotSize - 1 : Nat)) &&& BitVec.ofInt 32 (-(slotSize : Int))

-- as the machine counts it, modulo the width
def pageShift : Nat := (BitVec.ofInt 32 16).toNat % 32

theorem pageShift_eq : pageShift = 16 := rfl

def sizeWord (pages : Nat) : BitVec 32 := BitVec.ofNat 32 pages <<< pageShift

def missingWord (a : BitVec 32) (pages : Nat) : BitVec 32 := 
  (a - sizeWord pages + BitVec.ofInt 32 0xFFFF) >>> pageShift

theorem toNat_bump (p s : BitVec 32) : (bump p s).toNat = (p.toNat + s.toNat + 7) % 2 ^ 32 / 8 * 8 := by
  have hmask (x : BitVec 32) : x &&& BitVec.allOnes 32 <<< 3 = (x >>> 3) <<< 3 := by
    ext i hi
    simp only [BitVec.getElem_and, BitVec.getElem_shiftLeft, BitVec.getElem_allOnes]
    grind
  have hones : BitVec.ofInt 32 (-(slotSize : Int)) = BitVec.allOnes 32 <<< 3 := by decide
  rw [bump,hones,hmask]
  simp [slotSize, Nat.shiftLeft_eq, Nat.shiftRight_eq_div_pow]
  omega

theorem toNat_sizeWord {n : Nat} (h : n ≤ 32768) : (sizeWord n).toNat = n * pageSize := by
  simp only [sizeWord, pageShift_eq, BitVec.toNat_shiftLeft, BitVec.toNat_ofNat, Nat.shiftLeft_eq, pageSize]
  omega

section

variable {R : Room} {σ τ υ : Store} {s : BitVec 32} {cs : List (Config × Nat)} {o : Outcome}

theorem Sound.size_le (h : Sound R σ) : σ.size ≤ R.maxPages * pageSize := Nat.mul_le_mul_right _ h.pages_le

/-- The test for a wrap fails exactly at the sizes that leave the address space. -/
theorem Sound.wraps (h : Sound R σ) (hs : s.toNat ≤ maxSize) :
    (bump σ.heap s).ult σ.heap = true ∧ R.maxPages * pageSize < σ.after s ∨
      (bump σ.heap s).ult σ.heap = false ∧ (bump σ.heap s).toNat = σ.after s := by
  have hceiling := h.ceiling
  have hsize := h.heap_le.trans h.size_le
  simp only [BitVec.ult, toNat_bump, Store.after, align, slotSize, pageSize, maxSize, decide_eq_true_eq,
    decide_eq_false_iff_not] at *
  omega

theorem toNat_missingWord (h : Sound R σ) {a : BitVec 32} (ha : σ.size < a.toNat) :
    (missingWord a σ.pages).toNat = σ.missing a.toNat := by
  have hsize := toNat_sizeWord (h.pages_le.trans h.ceiling)
  have hsome := h.some_page
  have hffff : (BitVec.ofInt 32 0xFFFF).toNat = 65535 := rfl
  rw [missingWord,BitVec.toNat_ushiftRight,BitVec.toNat_add,BitVec.toNat_sub,hsize,hffff,
    Nat.shiftRight_eq_div_pow,pageShift_eq]
  simp only [Store.missing, Store.size, pageSize] at *
  omega

/-- The allocator before the test for a wrap. -/
theorem alloc_start
    (h : Goes R ⟨⟨[.ofBool ((bump σ.heap s).ult σ.heap)],[.i32 s,.i32 σ.heap,.i32 (bump σ.heap s)],[],
      Routine.allocCode.drop 13⟩,1,cs,σ⟩ o) : Goes R (enter .alloc [.i32 s] cs σ) o :=
  .act rfl rfl (.set rfl (.get rfl (.get rfl (.num rfl rfl (.i32 (.num rfl rfl (.i32 (.num rfl rfl
    (.set rfl (.get rfl (.get rfl (.num rfl rfl h))))))))))))

/-- The allocator before the test whether memory is large enough. -/
theorem alloc_test (hwrap : (bump σ.heap s).ult σ.heap = false)
    (h : Goes R ⟨⟨[.ofBool ((sizeWord σ.pages).ult (bump σ.heap s))],
      [.i32 s,.i32 σ.heap,.i32 (bump σ.heap s)],[],Routine.allocCode.drop 19⟩,1,cs,σ⟩ o) :
    Goes R (enter .alloc [.i32 s] cs σ) o :=
  alloc_start (.pass hwrap (.get rfl (.act rfl rfl (.i32 (.num rfl rfl (.num rfl rfl h))))))

theorem alloc_end : Goes R ⟨⟨[],[.i32 s,.i32 σ.heap,.i32 (bump σ.heap s)],[],Routine.allocCode.drop 20⟩,1,cs,τ⟩
    (finish [.i32 σ.heap] cs { τ with heap := bump σ.heap s }) :=
  .get rfl (.act rfl rfl (.get rfl (.ends rfl)))

/-- Memory that is too small is grown by what is missing, and no less helps. -/
theorem alloc_grow (h : Sound R σ) (hwrap : (bump σ.heap s).ult σ.heap = false)
    (hlarge : σ.size < (bump σ.heap s).toNat) :
    Goes R (enter .alloc [.i32 s] cs σ)
      ((σ.grow? R (σ.missing (bump σ.heap s).toNat)).elim .trapped
        fun τ => finish [.i32 σ.heap] cs { τ with heap := bump σ.heap s }) := by
  have hpages := h.pages_le.trans h.ceiling
  have htest : (sizeWord σ.pages).ult (bump σ.heap s) = true := by
    rw [BitVec.ult,decide_eq_true_eq,toNat_sizeWord hpages]
    exact hlarge
  have hone : (BitVec.ofNat 32 σ.pages == BitVec.ofInt 32 (-1)) = false := by
    rw [beq_eq_false_iff_ne]
    intro he
    have hn := congrArg BitVec.toNat he
    rw [BitVec.toNat_ofNat] at hn
    change _ = 2 ^ 32 - 1 at hn
    omega
  refine alloc_test hwrap (.cond ?_)
  rw [htest,← toNat_missingWord h hlarge]
  refine .get rfl (.act rfl rfl (.i32 (.num rfl rfl (.num rfl rfl (.i32 (.num rfl rfl (.i32 (.num rfl rfl ?_))))))))
  change Goes R ⟨⟨[.i32 (missingWord (bump σ.heap s) σ.pages)],_,_,_⟩,1,cs,σ⟩ _
  refine .act rfl rfl (.i32 (.num rfl rfl ?_))
  rw [Store.grow]
  cases σ.grow? R (missingWord (bump σ.heap s) σ.pages).toNat with
  | some τ => exact .pass hone (.leave alloc_end)
  | none => exact .fail rfl

theorem Sound.allocated (h : Sound R σ) (hheap : (bump σ.heap s).toNat = σ.after s)
    (hle : σ.after s ≤ τ.size) (hpages : σ.pages ≤ τ.pages) (hmax : τ.pages ≤ R.maxPages)
    (hkept : ∀ i < σ.size, τ.memory i = σ.memory i) :
    Allocated R σ s { τ with heap := bump σ.heap s } where
  heap := hheap
  kept := hkept
  grown := hpages
  aligned := hheap ▸ align_mod _
  sound :=
    { some_page := h.some_page.trans hpages
      pages_le := hmax
      ceiling := h.ceiling
      heap_le := hheap ▸ hle }

/-- The allocator traps only where memory cannot become large enough, and otherwise returns. -/
theorem Sound.alloc (h : Sound R σ) (hs : s.toNat ≤ maxSize) :
    (∃ τ, Returns R .alloc [.i32 s] σ [.i32 σ.heap] τ ∧ Allocated R σ s τ) ∨
      Traps R .alloc [.i32 s] σ ∧
        (R.maxPages * pageSize < σ.after s ∨ R.grants σ.pages (σ.missing (σ.after s)) = false) := by
  obtain ⟨hwrap,hout⟩ | ⟨hwrap,hheap⟩ := h.wraps hs
  · exact .inr ⟨fun _ => alloc_start (.fail hwrap),.inl hout⟩
  by_cases hlarge : σ.after s ≤ σ.size
  · have htest : (sizeWord σ.pages).ult (bump σ.heap s) = false := by
      rw [BitVec.ult,decide_eq_false_iff_not,toNat_sizeWord (h.pages_le.trans h.ceiling),hheap]
      exact Nat.not_lt.mpr hlarge
    refine .inl ⟨_,fun _ => alloc_test hwrap (.cond ?_),
      h.allocated hheap hlarge (Nat.le_refl _) h.pages_le fun _ _ => rfl⟩
    rw [htest]
    exact .leave alloc_end
  have hgrow (cs : List (Config × Nat)) : Goes R (enter .alloc [.i32 s] cs σ) _ :=
    alloc_grow h hwrap (hheap ▸ Nat.not_le.mp hlarge)
  rw [hheap] at hgrow
  by_cases hroom : σ.pages + σ.missing (σ.after s) ≤ R.maxPages ∧ R.grants σ.pages (σ.missing (σ.after s)) = true
  · simp only [Store.grow?, if_pos hroom] at hgrow
    refine .inl ⟨_,hgrow,h.allocated hheap ?_ (Nat.le_add_right ..) hroom.1 fun i hi => if_pos hi⟩
    simp only [Store.missing, Store.size, pageSize] at *
    omega
  · simp only [Store.grow?, if_neg hroom] at hgrow
    refine .inr ⟨hgrow,?_⟩
    by_cases hgrants : R.grants σ.pages (σ.missing (σ.after s)) = true
    · refine .inl ?_
      have hmax : ¬ σ.pages + σ.missing (σ.after s) ≤ R.maxPages := fun hle => hroom ⟨hle,hgrants⟩
      simp only [Store.missing, Store.size, pageSize] at *
      omega
    · exact .inr (Bool.eq_false_iff.mpr hgrants)

/-- Calls of the allocator one after another, with the regions they return: address and size. What lies in
memory may change in between. -/
inductive Calls (R : Room) : Store → List (BitVec 32 × BitVec 32) → Store → Prop where
  | nil (σ : Store) : Calls R σ [] σ
  | cons {σ τ υ : Store} {s a : BitVec 32} {rs : List (BitVec 32 × BitVec 32)} (memory : Nat → UInt8)
    (size : s.toNat ≤ maxSize) (call : Returns R .alloc [.i32 s] σ [.i32 a] τ)
    (rest : Calls R { τ with memory } rs υ) : Calls R σ ((a,s) :: rs) υ

/-- An aligned region between two addresses. -/
structure Between (low high : Nat) (r : BitVec 32 × BitVec 32) : Prop where
  aligned : r.1.toNat % slotSize = 0
  low_le : low ≤ r.1.toNat
  le_high : r.1.toNat + r.2.toNat ≤ high

/-- Each region lies behind the heap that the call found. -/
theorem Calls.regions {rs : List (BitVec 32 × BitVec 32)} (h : Calls R σ rs υ) (hσ : Sound R σ)
    (ha : σ.heap.toNat % slotSize = 0) :
    Sound R υ ∧ σ.heap.toNat ≤ υ.heap.toNat ∧ (∀ r ∈ rs, Between σ.heap.toNat υ.heap.toNat r) ∧
      rs.Pairwise fun q r => q.1.toNat + q.2.toNat ≤ r.1.toNat := by
  induction h with
  | nil σ => exact ⟨hσ,Nat.le_refl _,nofun,.nil⟩
  | @cons σ τ υ s a rs memory hs hcall hrest ih =>
    obtain ⟨τ',hreturns,hτ⟩ | ⟨htraps,-⟩ := hσ.alloc hs
    · obtain ⟨hvalues,rfl⟩ := hcall.unique hreturns
      obtain rfl : a = σ.heap := by simpa using hvalues
      have hsound : Sound R { τ with memory } := ⟨hτ.sound.1,hτ.sound.2,hτ.sound.3,hτ.sound.4⟩
      obtain ⟨hυ,hle,hbetween,hpairs⟩ := ih hsound hτ.aligned
      have hafter : σ.heap.toNat + s.toNat ≤ τ.heap.toNat := hτ.heap ▸ le_align _
      have hhigh : σ.heap.toNat + s.toNat ≤ υ.heap.toNat := hafter.trans hle
      refine ⟨hυ,(Nat.le_add_right ..).trans hhigh,?_,.cons ?_ hpairs⟩
      · intro r hr
        cases hr with
        | head => exact ⟨ha,Nat.le_refl _,hhigh⟩
        | tail _ hr =>
          obtain ⟨haligned,hlow,hin⟩ := hbetween r hr
          exact ⟨haligned,((Nat.le_add_right ..).trans hafter).trans hlow,hin⟩
      · intro r hr
        exact hafter.trans (hbetween r hr).low_le
    · exact absurd htraps hcall.not_traps

end

/-- The allocator hands out aligned regions that do not overlap, and keeps what memory holds. -/
theorem alloc_bumps {R : Room} {σ : Store} (h : Sound R σ) (ha : σ.heap.toNat % slotSize = 0) :
    (∀ s : BitVec 32, s.toNat ≤ maxSize →
      (∃ τ, Returns R .alloc [.i32 s] σ [.i32 σ.heap] τ ∧ Allocated R σ s τ) ∨
        Traps R .alloc [.i32 s] σ ∧
          (R.maxPages * pageSize < σ.after s ∨ R.grants σ.pages (σ.missing (σ.after s)) = false)) ∧
      ∀ rs υ, Calls R σ rs υ →
        (∀ r ∈ rs, Between σ.heap.toNat υ.size r) ∧
          rs.Pairwise fun q r => q.1.toNat + q.2.toNat ≤ r.1.toNat := by
  refine ⟨fun s hs => h.alloc hs,fun rs υ hcalls => ?_⟩
  obtain ⟨hυ,-,hbetween,hpairs⟩ := hcalls.regions h ha
  refine ⟨fun r hr => ?_,hpairs⟩
  obtain ⟨haligned,hlow,hin⟩ := hbetween r hr
  exact ⟨haligned,hlow,hin.trans hυ.heap_le⟩

/-- A page is asked for while one is left. -/
theorem alloc_bumps_page :
    let σ : Store := ⟨fun _ => 1,1,8⟩
    ∃ τ, Returns ⟨2,fun _ _ => true⟩ .alloc [.i32 65536] σ [.i32 8] τ ∧ τ.heap.toNat = 65544 ∧
      τ.memory 65535 = 1 ∧ Calls ⟨2,fun _ _ => true⟩ σ [(8,65536)] τ ∧ 65544 ≤ τ.size := by
  intro σ
  have hσ : Sound ⟨2,fun _ _ => true⟩ σ := ⟨by decide,by decide,by decide,by decide⟩
  obtain ⟨hcall,hcalls⟩ := alloc_bumps hσ (by decide)
  obtain ⟨τ,hreturns,hτ⟩ | ⟨-,hfull | hrefused⟩ := hcall 65536 (by decide)
  · have hone : Calls ⟨2,fun _ _ => true⟩ σ [(8,65536)] τ := .cons τ.memory (by decide) hreturns (.nil _)
    exact ⟨τ,hreturns,hτ.heap.trans (by decide),hτ.kept 65535 (by decide),hone,
      ((hcalls _ τ hone).1 _ (.head _)).le_high⟩
  · exact absurd hfull (by decide)
  · cases hrefused

end Covenant.Machine
