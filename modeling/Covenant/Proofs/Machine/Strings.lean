import Covenant.Proofs.Machine.Allocation

/-! The routines on strings. They go through bytes one by one: a comparison reads two strings in step, and a
concatenation copies both behind each other into what it has allocated. -/

namespace Covenant.Machine

open Wasm Lower Memory

namespace Store

variable {σ τ : Store} {a b n : Nat} {bs : List UInt8}

theorem bytes_congr (h : ∀ i, a ≤ i → i < a + n → σ.memory i = τ.memory i) : σ.bytes a n = τ.bytes a n :=
  List.map_congr_left fun _ hi => h _ (Nat.le_add_right ..) (Nat.add_lt_add_left (List.mem_range.mp hi) _)

theorem length_bytes : (σ.bytes a n).length = n := by simp [bytes]

theorem getElem?_bytes {i : Nat} (h : i < n) : (σ.bytes a n)[i]? = some (σ.memory (a + i)) := by
  simp [bytes, h]

theorem bytes_add {m : Nat} : σ.bytes a (n + m) = σ.bytes a n ++ σ.bytes (a + n) m := by
  simp [bytes, List.range_add, Nat.add_assoc]

theorem bytes_within (σ : Store) {a n m : Nat} (h : a + n ≤ m) :
    ((σ.bytes 0 m).drop a).take n = σ.bytes a n := by
  refine List.ext_getElem ?_ ?_
  · simp [bytes]
    omega
  · simp [bytes]

theorem write_apart {i : Nat} (h : i < a ∨ a + bs.length ≤ i) : (σ.write a bs).memory i = σ.memory i := by
  obtain h | h := h
  · exact if_neg (Nat.not_le.mpr h)
  · have hnone : bs[i - a]? = none := List.getElem?_eq_none (by omega)
    simp [write, hnone]

theorem bytes_write_apart (h : b + n ≤ a ∨ a + bs.length ≤ b) : (σ.write a bs).bytes b n = σ.bytes b n := by
  refine bytes_congr fun i hlow hhigh => write_apart ?_
  omega

theorem write_nil : σ.write a [] = σ := by simp [write]

theorem bytes_write : (σ.write a bs).bytes a bs.length = bs := by
  refine List.ext_getElem? fun i => ?_
  by_cases hi : i < bs.length
  · simp [getElem?_bytes hi, write, hi]
  · rw [List.getElem?_eq_none (by rw [length_bytes]; omega),List.getElem?_eq_none (by omega)]

/-- Writing on where the last byte was written. -/
theorem write_concat {c : UInt8} : (σ.write a bs).write (a + bs.length) [c] = σ.write a (bs ++ [c]) := by
  simp only [write, mk.injEq, and_true]
  funext i
  grind

end Store

/-- The bytes of a string at an address below the heap. -/
structure TextAt (σ : Store) (a : BitVec 32) (s : List UInt8) : Prop where
  base : dataBase ≤ a.toNat
  length : leNat (σ.bytes a.toNat 4) = s.length
  text : σ.bytes (a.toNat + stringHeader) s.length = s
  below : a.toNat + stringHeader + s.length ≤ σ.heap.toNat

section

variable {R : Room} {σ τ : Store} {a b : BitVec 32} {s t : List UInt8} {k : Nat} {cs : List (Config × Nat)}
  {st L : List Number} {fs : List Frame} {is : List Instr} {o : Outcome}

theorem toNat_add_ofNat {i : Nat} (h : a.toNat + i < 2 ^ 32) : (a + BitVec.ofNat 32 i).toNat = a.toNat + i := by
  rw [BitVec.toNat_add,BitVec.toNat_ofNat]
  omega

theorem ule_ofNat {i n : Nat} (hi : i < 2 ^ 32) (hn : n < 2 ^ 32) :
    (BitVec.ofNat 32 n).ule (BitVec.ofNat 32 i) = decide (n ≤ i) := by
  rw [BitVec.ule,BitVec.toNat_ofNat,BitVec.toNat_ofNat,Nat.mod_eq_of_lt hi,Nat.mod_eq_of_lt hn]

theorem ofNat_bne {m n : Nat} (hm : m < 2 ^ 32) (hn : n < 2 ^ 32) :
    (BitVec.ofNat 32 m != BitVec.ofNat 32 n) = (m != n) := by
  rw [Bool.eq_iff_iff,bne_iff_ne,bne_iff_ne,ne_eq,← BitVec.toNat_inj,BitVec.toNat_ofNat,BitVec.toNat_ofNat,
    Nat.mod_eq_of_lt hm,Nat.mod_eq_of_lt hn]

theorem ofNat_succ (i : Nat) : BitVec.ofNat 32 i + BitVec.ofInt 32 1 = BitVec.ofNat 32 (i + 1) :=
  (BitVec.ofNat_add i 1).symm

theorem Sound.size_le_half (h : Sound R σ) : σ.size ≤ 2 ^ 31 :=
  h.size_le.trans (Nat.mul_le_mul_right pageSize h.ceiling)

/-- The byte at a place of a string. -/
theorem load_byte {i : Nat} (h : a.toNat + stringHeader + i < σ.size) (hsize : σ.size ≤ 2 ^ 31) :
    act R σ (.i32Load8U stringHeader) (.i32 (a + BitVec.ofNat 32 i) :: st) =
      .value (.i32 (BitVec.ofNat 32 (σ.memory (a.toNat + stringHeader + i)).toNat) :: st,σ) := by
  have ha : (a + BitVec.ofNat 32 i).toNat = a.toNat + i := toNat_add_ofNat (by omega)
  refine (if_pos (by rw [ha]; omega)).trans ?_
  rw [ha,Nat.add_right_comm]
  rfl

namespace TextAt

theorem memory (h : TextAt σ a s) {i : Nat} (hi : i < s.length) :
    s[i]? = some (σ.memory (a.toNat + stringHeader + i)) := by
  have hget := Store.getElem?_bytes (σ := σ) (a := a.toNat + stringHeader) hi
  rwa [h.text] at hget

theorem load (h : TextAt σ a s) (hσ : Sound R σ) : act R σ (.i32Load 0) (.i32 a :: st) =
    .value (.i32 (BitVec.ofNat 32 s.length) :: st,σ) := by
  have hbelow := h.below.trans hσ.heap_le
  refine (if_pos (by simp only [stringHeader] at hbelow; omega)).trans ?_
  rw [word,Nat.add_zero,h.length]

theorem length_lt (h : TextAt σ a s) (hσ : Sound R σ) : s.length < 2 ^ 31 := by
  have hbelow := h.below.trans (hσ.heap_le.trans hσ.size_le_half)
  simp only [stringHeader] at hbelow
  omega

end TextAt

/-- The body of the first loop in some code. -/
def firstLoop : List Instr → List Instr
  | .block _ [.loop _ body] :: _ => body
  | _ :: is => firstLoop is
  | [] => []

/-- From the start of a round on, with the same bytes up to a place. -/
theorem equal_loop (hσ : Sound R σ) (ha : TextAt σ a s) (hb : TextAt σ b t) (hlen : s.length = t.length) {i : Nat}
    (hi : i ≤ s.length) (hsame : s.take i = t.take i) :
    Goes R ⟨⟨[],[.i32 a,.i32 b,.i32 (BitVec.ofNat 32 s.length),.i32 (BitVec.ofNat 32 i)],
      [⟨some (firstLoop Routine.equalCode),0,[],[]⟩,⟨none,0,[],[.i32 1]⟩],firstLoop Routine.equalCode⟩,1,cs,σ⟩
      (finish [.ofBool (s == t)] cs σ) := by
  have hhalf := hσ.size_le_half
  have hlt := ha.length_lt hσ
  have hinA := ha.below.trans hσ.heap_le
  have hinB := hb.below.trans hσ.heap_le
  induction hn : s.length - i generalizing i with
  | zero =>
    have htrue : (BitVec.ofNat 32 s.length).ule (BitVec.ofNat 32 i) = true := by
      rw [ule_ofNat (by omega) (by omega),decide_eq_true_eq]
      omega
    obtain rfl : s = t := by
      rwa [List.take_of_length_le (by omega),List.take_of_length_le (by omega)] at hsame
    refine .get rfl (.get rfl (.num rfl rfl ?_))
    rw [htrue,beq_self_eq_true]
    exact .next rfl (.i32 (.ends rfl))
  | succ n ih =>
    have hfalse : (BitVec.ofNat 32 s.length).ule (BitVec.ofNat 32 i) = false := by
      rw [ule_ofNat (by omega) (by omega),decide_eq_false_iff_not]
      omega
    have hs := ha.memory (i := i) (by omega)
    have ht := hb.memory (i := i) (by omega)
    refine .get rfl (.get rfl (.num rfl rfl (.stay hfalse (.get rfl (.get rfl (.num rfl rfl
      (.act rfl (load_byte (by omega) hhalf) (.get rfl (.get rfl (.num rfl rfl
      (.act rfl (load_byte (by omega) hhalf) (.num rfl rfl (.cond ?_)))))))))))))
    by_cases hbyte : σ.memory (a.toNat + stringHeader + i) = σ.memory (b.toNat + stringHeader + i)
    · rw [hbyte,bne_self_eq_false]
      refine .leave (.get rfl (.i32 (.num rfl rfl ?_)))
      rw [ofNat_succ]
      refine .set rfl (.next rfl (ih (by omega) ?_ (by omega)))
      rw [List.take_add_one,List.take_add_one,hsame,hs,ht,hbyte]
    · have hne : (s == t) = false := by
        rw [beq_eq_false_iff_ne]
        rintro rfl
        exact hbyte (Option.some.inj (hs.symm.trans ht))
      have htrue : (BitVec.ofNat 32 (σ.memory (a.toNat + stringHeader + i)).toNat !=
          BitVec.ofNat 32 (σ.memory (b.toNat + stringHeader + i)).toNat) = true := by
        rw [ofNat_bne ((UInt8.toNat_lt _).trans (by decide)) ((UInt8.toNat_lt _).trans (by decide)),bne_iff_ne]
        exact fun h => hbyte (UInt8.toNat_inj.mp h)
      rw [htrue,hne]
      exact .i32 (.ends rfl)

theorem equal_returns (hσ : Sound R σ) (ha : TextAt σ a s) (hb : TextAt σ b t) :
    Returns R .equal [.i32 a,.i32 b] σ [.ofBool (s == t)] σ := by
  intro cs
  refine .get rfl (.get rfl (.num rfl rfl (.cond ?_)))
  by_cases hab : a = b
  · obtain rfl := hab
    have hlen := ha.length.symm.trans hb.length
    obtain rfl : s = t := by
      rw [← ha.text,hlen,hb.text]
    rw [beq_self_eq_true,beq_self_eq_true]
    exact .i32 (.ends rfl)
  rw [beq_eq_false_iff_ne.mpr hab]
  refine .leave (.get rfl (.act rfl (ha.load hσ) (.tee rfl (.get rfl (.act rfl (hb.load hσ) (.num rfl rfl
    (.cond ?_)))))))
  by_cases hlen : s.length = t.length
  · rw [hlen,bne_self_eq_false,← hlen]
    exact .leave (.i32 (.set rfl (.next rfl (.next rfl (equal_loop hσ ha hb hlen (Nat.zero_le _) rfl)))))
  · have hne : (BitVec.ofNat 32 s.length != BitVec.ofNat 32 t.length) = true := by
      rwa [ofNat_bne (Nat.lt_trans (ha.length_lt hσ) (by decide)) (Nat.lt_trans (hb.length_lt hσ) (by decide)),
        bne_iff_ne]
    rw [hne,beq_eq_false_iff_ne.mpr fun h => hlen (congrArg List.length h)]
    exact .i32 (.ends rfl)

/-- What a copy finds in its locals, whatever the counter is. -/
structure Copies (L : List Number) (dst src count i : Nat) (d a : BitVec 32) (n : Nat) : Prop where
  target (v : Number) : (L.set i v)[dst]? = some (.i32 d)
  source (v : Number) : (L.set i v)[src]? = some (.i32 a)
  size (v : Number) : (L.set i v)[count]? = some (.i32 (BitVec.ofNat 32 n))
  counter (v : Number) : (L.set i v)[i]? = some v

/-- Each round writes one byte behind those before it, and reads none of them. -/
theorem copy_loop {dst src count i j : Nat} {d : BitVec 32} (hL : Copies L dst src count i d a s.length)
    (hhalf : σ.size ≤ 2 ^ 31) (ha : a.toNat + stringHeader + s.length ≤ d.toNat)
    (hd : d.toNat + stringHeader + s.length ≤ σ.size) (hs : σ.bytes (a.toNat + stringHeader) s.length = s)
    (hj : j ≤ s.length)
    (h : Goes R ⟨⟨[],L.set i (.i32 (BitVec.ofNat 32 s.length)),fs,is⟩,k,cs,σ.write (d.toNat + stringHeader) s⟩ o) :
    Goes R ⟨⟨[],L.set i (.i32 (BitVec.ofNat 32 j)),
      ⟨some (firstLoop (Routine.copyBytes dst src count i)),0,[],[]⟩ :: ⟨none,0,[],is⟩ :: fs,
      firstLoop (Routine.copyBytes dst src count i)⟩,k,cs,σ.write (d.toNat + stringHeader) (s.take j)⟩ o := by
  induction hn : s.length - j generalizing j with
  | zero =>
    obtain rfl : j = s.length := by omega
    have htrue : (BitVec.ofNat 32 s.length).ule (BitVec.ofNat 32 s.length) = true := by
      rw [ule_ofNat (by omega) (by omega),decide_eq_true_eq]
    refine .get (hL.counter _) (.get (hL.size _) (.num rfl rfl ?_))
    rw [htrue,List.take_length]
    exact .next rfl h
  | succ n ih =>
    have hfalse : (BitVec.ofNat 32 s.length).ule (BitVec.ofNat 32 j) = false := by
      rw [ule_ofNat (by omega) (by omega),decide_eq_false_iff_not]
      omega
    have hget := Store.getElem?_bytes (σ := σ) (a := a.toNat + stringHeader) (n := s.length) (i := j) (by omega)
    rw [hs] at hget
    have hload (st : List Number) := @load_byte R (σ.write (d.toNat + stringHeader) (s.take j)) a st j
      (show a.toNat + stringHeader + j < σ.size by omega) hhalf
    rw [Store.write_apart (by omega)] at hload
    have hto : (d + BitVec.ofNat 32 j).toNat + stringHeader = d.toNat + stringHeader + (s.take j).length := by
      rw [toNat_add_ofNat (by omega),List.length_take_of_le (by omega),Nat.add_right_comm]
    refine .get (hL.counter _) (.get (hL.size _) (.num rfl rfl (.stay hfalse (.get (hL.target _)
      (.get (hL.counter _) (.num rfl rfl (.get (hL.source _) (.get (hL.counter _) (.num rfl rfl (.act rfl (hload _)
      (.act rfl (if_pos ?_) (.get (hL.counter _) (.i32 (.num rfl rfl ?_))))))))))))))
    · rw [hto,List.length_take_of_le (by omega)]
      show _ + 1 ≤ σ.size
      omega
    · rw [ofNat_succ,hto,Store.write_concat]
      refine .set (by rw [hL.counter]; rfl) (.next rfl ?_)
      have hbyte (c : UInt8) : (BitVec.ofNat 32 c.toNat).toNat.toUInt8 = c := by
        rw [BitVec.toNat_ofNat,Nat.mod_eq_of_lt (c.toNat_lt.trans (by decide))]
        exact UInt8.ofNat_toNat
      have hnext := ih (j := j + 1) (by omega) (by omega)
      rw [List.take_add_one,hget] at hnext
      rw [hbyte,List.set_set]
      exact hnext

theorem copy_goes {dst src count i : Nat} {d : BitVec 32} (hL : Copies L dst src count i d a s.length)
    (hi : L[i]?.isSome = true) (hhalf : σ.size ≤ 2 ^ 31) (ha : a.toNat + stringHeader + s.length ≤ d.toNat)
    (hd : d.toNat + stringHeader + s.length ≤ σ.size) (hs : σ.bytes (a.toNat + stringHeader) s.length = s)
    (h : Goes R ⟨⟨[],L.set i (.i32 (BitVec.ofNat 32 s.length)),fs,is⟩,k,cs,σ.write (d.toNat + stringHeader) s⟩ o) :
    Goes R ⟨⟨[],L,fs,Routine.copyBytes dst src count i ++ is⟩,k,cs,σ⟩ o := by
  have hloop := copy_loop hL hhalf ha hd hs (Nat.zero_le _) h
  rw [List.take_zero,Store.write_nil] at hloop
  exact .i32 (.set hi (.next rfl (.next rfl hloop)))

/-- The store with the bytes of two strings behind each other at an address. -/
def Store.join (τ : Store) (p : Nat) (s t : List UInt8) : Store :=
  ((τ.write p (le32 (s.length + t.length))).write (p + stringHeader) s).write (p + s.length + stringHeader) t

theorem Store.join_of_lt {p i : Nat} (h : i < p) : (τ.join p s t).memory i = τ.memory i := by
  rw [join,write_apart (by omega),write_apart (by omega),write_apart (.inl h)]

theorem textAt_join {p : BitVec 32} (hbase : dataBase ≤ p.toNat) (hlen : s.length + t.length < 2 ^ 32)
    (hbelow : p.toNat + stringHeader + (s.length + t.length) ≤ τ.heap.toNat) :
    TextAt (τ.join p.toNat s t) p (s ++ t) where
  base := hbase
  length := by
    have hbytes : (τ.join p.toNat s t).bytes p.toNat 4 = le32 (s.length + t.length) := by
      have hheader : p.toNat + 4 ≤ p.toNat + stringHeader := Nat.le_refl _
      rw [Store.join,Store.bytes_write_apart (.inl (by omega)),Store.bytes_write_apart (.inl hheader)]
      exact Store.bytes_write
    rw [hbytes,leNat_le32 hlen,List.length_append]
  text := by
    rw [List.length_append,Store.bytes_add,Nat.add_right_comm,Store.join,Store.bytes_write]
    rw [Store.bytes_write_apart (.inl (by omega)),Store.bytes_write]
  below := by
    rw [List.length_append]
    exact hbelow

theorem concat_ends (hσ : Sound R σ) (ha : TextAt σ a s) (hb : TextAt σ b t) :
    (∃ υ, Returns R .concat [.i32 a,.i32 b] σ [.i32 σ.heap] υ ∧ TextAt υ σ.heap (s ++ t) ∧
      ∀ i < σ.heap.toNat, υ.memory i = σ.memory i) ∨
    Traps R .concat [.i32 a,.i32 b] σ ∧
      Traps R .alloc [.i32 (BitVec.ofNat 32 (s.length + t.length + stringHeader))] σ := by
  have hhalf := hσ.size_le_half
  have hheap := hσ.heap_le
  have hbase := ha.base
  have hinA := ha.below
  have hinB := hb.below
  have hsize : (BitVec.ofNat 32 (s.length + t.length + stringHeader)).toNat = s.length + t.length + stringHeader := by
    simp only [BitVec.toNat_ofNat, stringHeader, dataBase] at *
    omega
  have hsum : BitVec.ofNat 32 s.length + BitVec.ofNat 32 t.length = BitVec.ofNat 32 (s.length + t.length) :=
    (BitVec.ofNat_add ..).symm
  have hstart (cs : List (Config × Nat)) (o : Outcome)
      (h : Goes R ⟨⟨[.i32 (BitVec.ofNat 32 (s.length + t.length + stringHeader))],
        [.i32 a,.i32 b,.i32 (BitVec.ofNat 32 s.length),.i32 (BitVec.ofNat 32 t.length),.i32 0,.i32 0,.i32 0],[],
        Routine.concatCode.drop 11⟩,1,cs,σ⟩ o) : Goes R (enter .concat [.i32 a,.i32 b] cs σ) o := by
    refine .get rfl (.act rfl (ha.load hσ) (.set rfl (.get rfl (.act rfl (hb.load hσ) (.set rfl (.get rfl (.get rfl
      (.num rfl rfl (.i32 (.num rfl rfl ?_))))))))))
    rw [hsum]
    exact (BitVec.ofNat_add (s.length + t.length) stringHeader) ▸ h
  obtain ⟨τ,hreturns,hτ⟩ | ⟨htraps,-⟩ := hσ.alloc (s := BitVec.ofNat 32 (s.length + t.length + stringHeader)) (by
    rw [hsize]
    simp only [maxSize, stringHeader, dataBase] at *
    omega)
  · have hafter : σ.heap.toNat + (s.length + t.length + stringHeader) ≤ τ.heap.toNat := by
      rw [hτ.heap,Store.after,hsize]
      exact le_align _
    have hinside := hτ.sound.heap_le
    have hsum' : (σ.heap + BitVec.ofNat 32 s.length).toNat = σ.heap.toNat + s.length := toNat_add_ofNat (by omega)
    have hlen : (BitVec.ofNat 32 (s.length + t.length)).toNat = s.length + t.length := by
      rw [BitVec.toNat_ofNat]
      omega
    have hkept (i : Nat) (hi : i < σ.heap.toNat) : τ.memory i = σ.memory i := hτ.kept i (by omega)
    have hbelow (i : Nat) (hi : i < σ.heap.toNat) :
        (τ.write σ.heap.toNat (le32 (s.length + t.length))).memory i = σ.memory i := by
      rw [Store.write_apart (.inl hi),hkept i hi]
    refine .inl ⟨τ.join σ.heap.toNat s t,fun cs => hstart cs _ (.call hreturns (.set rfl (.get rfl (.get rfl
      (.get rfl (.num rfl rfl ?_)))))),textAt_join (by omega) (by omega) (by omega),fun i hi => ?_⟩
    · rw [hsum]
      refine .act rfl (if_pos ?_) (.get rfl (.set rfl ?_))
      · show σ.heap.toNat + stringHeader ≤ τ.size
        omega
      · rw [hlen]
        refine copy_goes (a := a) (s := s) ⟨fun _ => rfl,fun _ => rfl,fun _ => rfl,fun _ => rfl⟩ rfl
          hτ.sound.size_le_half
          (by omega) (show _ ≤ τ.size by omega)
          ((Store.bytes_congr fun i _ hi => hbelow i (by omega)).trans ha.text)
          (.get rfl (.get rfl (.num rfl rfl (.set rfl ?_))))
        · refine copy_goes (a := b) (s := t) ⟨fun _ => rfl,fun _ => rfl,fun _ => rfl,fun _ => rfl⟩ rfl
            hτ.sound.size_le_half
            (by omega) (show _ ≤ τ.size by omega) ((Store.bytes_congr fun i _ hi => ?_).trans hb.text) (.get rfl ?_)
          · exact (Store.write_apart (by omega)).trans (hbelow i (by omega))
          · rw [hsum']
            exact .ends rfl
    · rw [Store.join_of_lt hi,hkept i hi]
  · exact .inr ⟨fun cs => hstart cs _ (.call_traps htraps),htraps⟩

end

/-- Strings are compared byte by byte, and joined in what has been allocated behind them. -/
theorem string_routines {R : Room} {σ : Store} {a b : BitVec 32} {s t : List UInt8} (hσ : Sound R σ)
    (ha : TextAt σ a s) (hb : TextAt σ b t) :
    Returns R .equal [.i32 a,.i32 b] σ [.ofBool (s == t)] σ ∧
      ((∃ υ, Returns R .concat [.i32 a,.i32 b] σ [.i32 σ.heap] υ ∧ TextAt υ σ.heap (s ++ t) ∧
        ∀ i < σ.heap.toNat, υ.memory i = σ.memory i) ∨
      Traps R .concat [.i32 a,.i32 b] σ ∧
        Traps R .alloc [.i32 (BitVec.ofNat 32 (s.length + t.length + stringHeader))] σ) :=
  ⟨equal_returns hσ ha hb,concat_ends hσ ha hb⟩

/-- `"a"` and then `"bc"` from the base on. -/
def letters : Store :=
  ⟨fun i => [1,0,0,0,97,0,0,0,2,0,0,0,98,99].getD (i - dataBase) 0,1,24⟩

theorem string_routines_letters : Returns ⟨1,fun _ _ => true⟩ .equal [.i32 8,.i32 16] letters [.i32 0] letters ∧
    ∃ υ, Returns ⟨1,fun _ _ => true⟩ .concat [.i32 8,.i32 16] letters [.i32 24] υ ∧ TextAt υ 24 [97,98,99] := by
  have hσ : Sound ⟨1,fun _ _ => true⟩ letters := ⟨by decide,by decide,by decide,by decide⟩
  have ha : TextAt letters 8 [97] := ⟨by decide,by decide,by decide,by decide⟩
  have hb : TextAt letters 16 [98,99] := ⟨by decide,by decide,by decide,by decide⟩
  obtain ⟨hequal,⟨υ,hreturns,htext,-⟩ | ⟨-,htraps⟩⟩ := string_routines hσ ha hb
  · exact ⟨hequal,υ,hreturns,htext⟩
  · obtain ⟨τ,hreturns,-⟩ | ⟨-,hfull | hrefused⟩ := hσ.alloc (s := 7) (by decide)
    · exact absurd htraps hreturns.not_traps
    · exact absurd hfull (by decide)
    · cases hrefused

end Covenant.Machine
