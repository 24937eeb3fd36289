import Covenant.Wasm.Leb
import Mathlib.Tactic.Ring

/-! Numbers are read back as they were written. Their bytes are the shortest form, and no other form is as short. Bytes
hold no number at all just if none of them ends one. -/

namespace Covenant.Wasm

theorem toNat_toUInt8 {n : Nat} (h : n < 256) : n.toUInt8.toNat = n := by
  rw [Nat.toUInt8,UInt8.toNat_ofNat']
  exact Nat.mod_eq_of_lt h

theorem readUleb_uleb (n : Nat) (rest : List UInt8) : readUleb (uleb n ++ rest) = .ok (n, rest) := by
  fun_induction uleb n with
  | case1 n hlt =>
    have hn : n.toUInt8.toNat = n := toNat_toUInt8 (by omega)
    have hb : n.toUInt8 < 128 := by rw [UInt8.lt_iff_toNat_lt,hn]; exact hlt
    rw [List.singleton_append,readUleb,if_pos hb,hn]
  | case2 n hge ih =>
    have hn : (n % 128 + 128).toUInt8.toNat = n % 128 + 128 := toNat_toUInt8 (by omega)
    have hb : ¬ (n % 128 + 128).toUInt8 < 128 := by
      rw [UInt8.lt_iff_toNat_lt,hn]
      exact Nat.not_lt.mpr (Nat.le_add_left _ _)
    rw [List.cons_append,readUleb,if_neg hb,ih,hn]
    have hsum : (n % 128 + 128) % 128 + 128 * (n / 128) = n := by omega
    simp only [hsum]

theorem readSleb_sleb (n : Int) (rest : List UInt8) : readSleb (sleb n ++ rest) = .ok (n, rest) := by
  fun_induction sleb n with
  | case1 n hrange =>
    have hn : (n % 128).toNat.toUInt8.toNat = (n % 128).toNat := toNat_toUInt8 (by omega)
    rw [List.singleton_append,readSleb]
    by_cases hneg : n < 0
    · have h64 : ¬ (n % 128).toNat.toUInt8 < 64 := by
        rw [UInt8.lt_iff_toNat_lt,hn]
        show ¬ _ < 64
        omega
      have h128 : (n % 128).toNat.toUInt8 < 128 := by
        rw [UInt8.lt_iff_toNat_lt,hn]
        show _ < 128
        omega
      have hval : ((n % 128).toNat : Int) - 128 = n := by omega
      rw [if_neg h64,if_pos h128,hn,hval]
    · have h64 : (n % 128).toNat.toUInt8 < 64 := by
        rw [UInt8.lt_iff_toNat_lt,hn]
        show _ < 64
        omega
      have hval : ((n % 128).toNat : Int) = n := by omega
      rw [if_pos h64,hn,hval]
  | case2 n hrange ih =>
    have hn : ((n % 128).toNat + 128).toUInt8.toNat = (n % 128).toNat + 128 := toNat_toUInt8 (by omega)
    have h64 : ¬ ((n % 128).toNat + 128).toUInt8 < 64 := by
      rw [UInt8.lt_iff_toNat_lt,hn]
      show ¬ _ < 64
      omega
    have h128 : ¬ ((n % 128).toNat + 128).toUInt8 < 128 := by
      rw [UInt8.lt_iff_toNat_lt,hn]
      show ¬ _ < 128
      omega
    have hval : ((((n % 128).toNat + 128) % 128 : Nat) : Int) + 128 * (n / 128) = n := by omega
    rw [List.cons_append,readSleb,if_neg h64,if_neg h128,ih,hn]
    simp only [hval]

theorem low_bits (b : UInt8) : (b &&& 0x7F).toNat = b.toNat % 128 := by
  rw [UInt8.toNat_and]
  exact Nat.and_two_pow_sub_one_eq_mod b.toNat 7

theorem toNat_ofInt (n : Int) : (UInt8.ofInt n).toNat = (n % 256).toNat := by
  rw [UInt8.ofInt,UInt8.toNat_ofNat']
  omega

theorem last_bits (b : UInt8) : (b &&& 0x80 = 0 ↔ b < 128) ∧ (b &&& 0x40 = 0 ↔ b.toNat % 128 < 64) := by
  have hall : ∀ x : Fin 256, (UInt8.ofFin x &&& 0x80 = 0 ↔ UInt8.ofFin x < 128) ∧
    (UInt8.ofFin x &&& 0x40 = 0 ↔ x.val % 128 < 64) := by decide +kernel
  exact hall b.toFin

/-- Seven bits at a time, until what is left repeats the last of them. -/
theorem sleb_eq (n : Int) :
    sleb n =
      let byte := UInt8.ofInt n &&& 0x7F
      let rest := n >>> (7 : Nat)
      if rest = 0 ∧ byte &&& 0x40 = 0 ∨ rest = -1 ∧ byte &&& 0x40 ≠ 0 then [byte]
      else (byte ||| 0x80) :: sleb rest := by
  have hbyte : UInt8.ofInt n &&& 0x7F = (n % 128).toNat.toUInt8 := by
    refine UInt8.toNat_inj.mp ?_
    rw [low_bits,toNat_ofInt,toNat_toUInt8 (by omega)]
    omega
  have hrest : n >>> (7 : Nat) = n / 128 := Int.shiftRight_eq_div_pow n 7
  have hmore : ∀ x < 128, x.toUInt8 ||| 0x80 = (x + 128).toUInt8 := by decide
  rw [sleb]
  simp only [hbyte, hrest, ne_eq, (last_bits _).2, hmore (n % 128).toNat (by omega)]
  rw [toNat_toUInt8 (by omega)]
  refine ite_congr (propext ?_) (fun _ => rfl) fun _ => rfl
  omega

/-- The number so far is below the place of the next seven bits. -/
def readSlebFrom (number shift : Nat) : List UInt8 → Except LebFault (Int × List UInt8)
  | [] => .error .truncated
  | b :: bs =>
    let number := number ||| (b &&& 0x7F).toNat <<< shift
    let shift := shift + 7
    if b &&& 0x80 = 0 then .ok (if b &&& 0x40 = 0 then number else number - (1 <<< shift : Nat), bs)
    else readSlebFrom number shift bs

theorem readSlebFrom_eq {number shift : Nat} (h : number < 2 ^ shift) (bs : List UInt8) :
    readSlebFrom number shift bs =
      (readSleb bs).map fun (n, rest) => ((number : Int) + 2 ^ shift * n, rest) := by
  induction bs generalizing number shift with
  | nil => rfl
  | cons b bs ih =>
    have hnumber : number ||| (b &&& 0x7F).toNat <<< shift = b.toNat % 128 * 2 ^ shift + number := by
      rw [low_bits,Nat.or_comm,← Nat.shiftLeft_add_eq_or_of_lt h,Nat.shiftLeft_eq]
    have hnext : b.toNat % 128 * 2 ^ shift + number < 2 ^ (shift + 7) := by
      have hlow := Nat.mod_lt b.toNat (show 0 < 128 by decide)
      have hmul := Nat.mul_le_mul_right (2 ^ shift) (Nat.le_of_lt_succ hlow)
      rw [Nat.pow_add]
      omega
    simp only [readSlebFrom, hnumber, last_bits, readSleb]
    by_cases hlast : b < 128
    · have hlast' : b.toNat < 128 := UInt8.lt_iff_toNat_lt.mp hlast
      have h64 : b < 64 ↔ b.toNat < 64 := UInt8.lt_iff_toNat_lt
      simp only [if_pos hlast, Nat.mod_eq_of_lt hlast', h64, Nat.one_shiftLeft, Nat.pow_add]
      split
      · simp [Except.map, Int.add_comm, Int.mul_comm]
      · simp [Except.map]
        ring
    · have h64 : ¬ b < 64 := fun h => hlast (UInt8.lt_trans h (by decide))
      rw [if_neg hlast,if_neg hlast,if_neg h64,ih hnext]
      cases readSleb bs with
      | error e => rfl
      | ok r =>
        simp [Except.map, pow_add]
        ring

theorem readSleb_eq (bs : List UInt8) : readSleb bs = readSlebFrom 0 0 bs := by
  rw [readSlebFrom_eq (by decide)]
  cases readSleb bs <;> simp [Except.map]

theorem uleb_length {n k : Nat} (h : n < 128 ^ (k + 1)) : (uleb n).length ≤ k + 1 := by
  induction k generalizing n with
  | zero =>
    rw [uleb,if_pos (show n < 128 from h)]
    exact Nat.le_refl 1
  | succ k ih =>
    rw [uleb]
    split
    · exact Nat.le_add_left _ _
    · refine Nat.succ_le_succ (ih (Nat.div_lt_of_lt_mul ?_))
      rwa [Nat.mul_comm,← Nat.pow_succ]

theorem sleb_length {n : Int} {k : Nat} (h : -(64 * 128 ^ k) ≤ n ∧ n < 64 * 128 ^ k) :
    (sleb n).length ≤ k + 1 := by
  induction k generalizing n with
  | zero =>
    rw [sleb,if_pos (by simpa using h)]
    exact Nat.le_refl 1
  | succ k ih =>
    rw [sleb]
    split
    · exact Nat.le_add_left _ _
    · refine Nat.succ_le_succ (ih ?_)
      have hpow : (64 * 128 ^ (k + 1) : Int) = 128 * (64 * 128 ^ k) := by ring
      rw [hpow] at h
      omega

variable {bytes rest : List UInt8}

theorem toUInt8_toNat (b : UInt8) : b.toNat.toUInt8 = b := UInt8.ofNat_toNat

/-- What was read of some bytes, next to the shortest form of the same number. -/
def ReadsAs (form : List UInt8) (bytes rest : List UInt8) : Prop :=
  ∃ used, bytes = used ++ rest ∧ form.length ≤ used.length ∧ (form.length = used.length → used = form)

theorem ReadsAs.last (b : UInt8) (rest : List UInt8) : ReadsAs [b] (b :: rest) rest :=
  ⟨[b],rfl,Nat.le_refl 1,fun _ => rfl⟩

theorem ReadsAs.cons {form : List UInt8} (b : UInt8) (h : ReadsAs form bytes rest) :
    ReadsAs (b :: form) (b :: bytes) rest := by
  obtain ⟨used,hbytes,hshort,hsame⟩ := h
  refine ⟨b :: used,by rw [hbytes,List.cons_append],Nat.succ_le_succ hshort,fun h => ?_⟩
  rw [hsame (Nat.succ.inj h)]

theorem ReadsAs.longer {form : List UInt8} (b c : UInt8) (h : ReadsAs form bytes rest) (hform : form ≠ []) :
    ReadsAs [c] (b :: bytes) rest := by
  obtain ⟨used,hbytes,hshort,-⟩ := h
  have hpos : 0 < form.length := List.length_pos_iff.mpr hform
  refine ⟨b :: used,by rw [hbytes,List.cons_append],Nat.le_add_left 1 _,fun h => ?_⟩
  simp only [List.length_cons, List.length_nil] at h
  omega

theorem uleb_ne_nil (n : Nat) : uleb n ≠ [] := by
  rw [uleb]
  split <;> exact List.cons_ne_nil _ _

theorem sleb_ne_nil (n : Int) : sleb n ≠ [] := by
  rw [sleb]
  split <;> exact List.cons_ne_nil _ _

theorem readUleb_shortest {n : Nat} (h : readUleb bytes = .ok (n, rest)) : ReadsAs (uleb n) bytes rest := by
  fun_induction readUleb bytes generalizing n rest with
  | case1 => cases h
  | case2 b bs hlt =>
    cases h
    have hb : b.toNat < 128 := UInt8.lt_iff_toNat_lt.mp hlt
    rw [uleb,if_pos hb,toUInt8_toNat]
    exact .last b _
  | case3 b bs hge m rest' hread ih =>
    cases h
    have hb : ¬ b.toNat < 128 := fun h => hge (UInt8.lt_iff_toNat_lt.mpr h)
    have hlt := b.toNat_lt
    rw [uleb]
    split
    · exact (ih hread).longer b _ (uleb_ne_nil m)
    · have hdiv : (b.toNat % 128 + 128 * m) / 128 = m := by omega
      have hmod : (b.toNat % 128 + 128 * m) % 128 + 128 = b.toNat := by omega
      rw [hdiv,hmod,toUInt8_toNat]
      exact (ih hread).cons b
  | case4 => cases h

theorem readSleb_shortest {n : Int} (h : readSleb bytes = .ok (n, rest)) : ReadsAs (sleb n) bytes rest := by
  fun_induction readSleb bytes generalizing n rest with
  | case1 => cases h
  | case2 b bs hlt =>
    cases h
    have hb : b.toNat < 64 := UInt8.lt_iff_toNat_lt.mp hlt
    have hmod : ((b.toNat : Int) % 128).toNat = b.toNat := by omega
    rw [sleb,if_pos (by omega),hmod,toUInt8_toNat]
    exact .last b _
  | case3 b bs hge hlt =>
    cases h
    have hb : ¬ b.toNat < 64 := fun h => hge (UInt8.lt_iff_toNat_lt.mpr h)
    have hb' : b.toNat < 128 := UInt8.lt_iff_toNat_lt.mp hlt
    have hmod : (((b.toNat : Int) - 128) % 128).toNat = b.toNat := by omega
    rw [sleb,if_pos (by omega),hmod,toUInt8_toNat]
    exact .last b _
  | case4 b bs _ hge m rest' hread ih =>
    cases h
    have hb : ¬ b.toNat < 128 := fun h => hge (UInt8.lt_iff_toNat_lt.mpr h)
    have hlt := b.toNat_lt
    rw [sleb]
    split
    · exact (ih hread).longer b _ (sleb_ne_nil m)
    · have hdiv : (((b.toNat % 128 : Nat) : Int) + 128 * m) / 128 = m := by omega
      have hmod : ((((b.toNat % 128 : Nat) : Int) + 128 * m) % 128).toNat + 128 = b.toNat := by omega
      rw [hdiv,hmod,toUInt8_toNat]
      exact (ih hread).cons b
  | case5 => cases h

theorem readUleb_eq_error {e : LebFault} : readUleb bytes = .error e ↔ e = .truncated ∧ ∀ b ∈ bytes, 128 ≤ b := by
  fun_induction readUleb bytes with
  | case1 => simp [eq_comm]
  | case2 b bs hlt => simpa using fun _ h => absurd hlt (UInt8.not_lt.mpr h)
  | case3 b bs hge m rest' hread ih =>
    rw [hread] at ih
    have hb : 128 ≤ b := UInt8.not_lt.mp hge
    simpa [hb] using ih
  | case4 b bs hge e' hread ih =>
    have hb : 128 ≤ b := UInt8.not_lt.mp hge
    simpa [hread, hb] using ih

theorem readSleb_eq_error {e : LebFault} : readSleb bytes = .error e ↔ e = .truncated ∧ ∀ b ∈ bytes, 128 ≤ b := by
  fun_induction readSleb bytes with
  | case1 => simp [eq_comm]
  | case2 b bs hlt =>
    have hb : ¬ 128 ≤ b := by
      rw [UInt8.le_iff_toNat_le]
      have h := UInt8.lt_iff_toNat_lt.mp hlt
      show ¬ 128 ≤ b.toNat
      have h64 : b.toNat < 64 := h
      omega
    simpa using fun _ h => absurd h hb
  | case3 b bs _ hlt => simpa using fun _ h => absurd hlt (UInt8.not_lt.mpr h)
  | case4 b bs _ hge m rest' hread ih =>
    rw [hread] at ih
    have hb : 128 ≤ b := UInt8.not_lt.mp hge
    simpa [hb] using ih
  | case5 b bs _ hge e' hread ih =>
    have hb : 128 ≤ b := UInt8.not_lt.mp hge
    simpa [hread, hb] using ih

section Coding

variable {α : Type}

/-- Numbers are written so that a reader finds them between any other bytes, in the one shortest form, and
fails only where no number ends. -/
structure Coding (write : α → List UInt8) (read : List UInt8 → Except LebFault (α × List UInt8)) : Prop where
  reads (n : α) (before after : List UInt8) :
    lebAt? read (before ++ write n ++ after) before.length =
      some (.ok (n, before.length + (write n).length))
  shortest (n : α) (bytes : List UInt8) (h : lebAt? read bytes 0 = some (.ok (n, bytes.length))) :
    (write n).length ≤ bytes.length ∧ ((write n).length = bytes.length → bytes = write n)
  truncated (bytes : List UInt8) (pos : Nat) :
    lebAt? read bytes pos = some (.error .truncated) ↔ ∀ b ∈ bytes.drop pos, 128 ≤ b
  answers (bytes : List UInt8) (pos : Nat) (h : ∃ b ∈ bytes.drop pos, b < 128) :
    ∃ n stop, lebAt? read bytes pos = some (.ok (n, stop))

theorem lebAt?_natCast (read : List UInt8 → Except LebFault (α × List UInt8)) (bytes : List UInt8) (pos : Nat) :
    lebAt? read bytes pos = some ((read (bytes.drop pos)).map fun r =>
      (r.1, (pos + ((bytes.drop pos).length - r.2.length : Nat) : Int))) := by
  rw [lebAt?,bytesFrom?,if_pos (Int.natCast_nonneg pos),Int.toNat_natCast]
  rfl

theorem Coding.of {write : α → List UInt8} {read : List UInt8 → Except LebFault (α × List UInt8)}
    (hreads : ∀ n rest, read (write n ++ rest) = .ok (n, rest))
    (hshortest : ∀ {bytes n rest}, read bytes = .ok (n, rest) → ReadsAs (write n) bytes rest)
    (herror : ∀ {bytes e}, read bytes = .error e ↔ e = .truncated ∧ ∀ b ∈ bytes, 128 ≤ b) :
    Coding write read where
  reads n before after := by
    rw [lebAt?_natCast,List.append_assoc,List.drop_left,hreads]
    simp [Except.map]
  shortest n bytes h := by
    rw [show (0 : Int) = (0 : Nat) from rfl,lebAt?_natCast,List.drop_zero] at h
    cases hread : read bytes with
    | error e => simp [hread, Except.map] at h
    | ok r =>
      obtain ⟨m,rest⟩ := r
      obtain ⟨used,rfl,hshort,hsame⟩ := hshortest hread
      obtain ⟨rfl,hstop⟩ : m = n ∧ used.length = (used ++ rest).length := by
        simpa [hread, Except.map] using h
      have hrest : rest = [] := List.eq_nil_of_length_eq_zero (by rw [List.length_append] at hstop; omega)
      subst hrest
      rw [List.append_nil]
      exact ⟨hshort,hsame⟩
  truncated bytes pos := by
    have hread := @herror (bytes.drop pos) .truncated
    rw [lebAt?_natCast]
    cases h : read (bytes.drop pos) with
    | ok r => simpa [h, Except.map] using hread
    | error e => simpa [h, Except.map] using hread
  answers bytes pos h := by
    rw [lebAt?_natCast]
    cases hread : read (bytes.drop pos) with
    | ok r => exact ⟨_,_,rfl⟩
    | error e =>
      obtain ⟨b,hb,hlt⟩ := h
      exact absurd hlt (UInt8.not_lt.mpr ((herror.mp hread).2 b hb))

end Coding

/-- Both codings of numbers are read back wherever they stand and are the only shortest forms; reading fails,
with one message, exactly where no byte without the high bit is left. -/
theorem leb_canonical :
    Coding uleb readUleb ∧ Coding sleb readSleb ∧ LebFault.truncated.message = "truncated LEB128" :=
  ⟨.of readUleb_uleb readUleb_shortest readUleb_eq_error,
    .of readSleb_sleb readSleb_shortest readSleb_eq_error,rfl⟩

end Covenant.Wasm
