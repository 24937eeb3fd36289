import Covenant.Proofs.Wasm.Canonical
import Covenant.Proofs.Wasm.Validation

/-! Function bodies read from their bytes. The numbers of a binary module have a range and a greatest
length; a body is read back as it was written if its numbers keep to that, and not at all otherwise. -/

namespace Covenant.Wasm

def natLimit : Nat := 2 ^ 32

def readNat (bs : List UInt8) : Option (Nat × List UInt8) :=
  match readUleb bs with
  | .ok (n, rest) => if n < natLimit ∧ bs.length ≤ rest.length + 5 then some (n, rest) else none
  | .error _ => none

/-- The integers that a signed field holds: one of 32 bits or one of 64 bits. -/
def ValType.holds : ValType → Int → Bool
  | i32, n => -2 ^ 31 ≤ n && n < 2 ^ 31
  | i64, n => -2 ^ 63 ≤ n && n < 2 ^ 63

def ValType.lebSize : ValType → Nat
  | i32 => 5
  | i64 => 10

def readInt (t : ValType) (bs : List UInt8) : Option (Int × List UInt8) :=
  match readSleb bs with
  | .ok (n, rest) => if t.holds n ∧ bs.length ≤ rest.length + t.lebSize then some (n, rest) else none
  | .error _ => none

def NumOp.all : List NumOp :=
  [i32Eqz, i32Eq, i32Ne, i32LtU, i32GtU, i32GeU, i64Eqz, i64Eq, i64Ne, i64LtS, i64GtS, i64LeS, i64GeS,
    i64GeU, i32Add, i32Sub, i32Mul, i32And, i32Shl, i32ShrU, i64Add, i64Sub, i64Mul, i64DivS, i64RemS,
    i32WrapI64, i64ExtendI32U]

def NumOp.ofByte? (b : UInt8) : Option NumOp := all.find? (·.byte = b)

def BlockType.ofByte? : UInt8 → Option BlockType
  | 0x40 => some none
  | b => (ValType.ofByte? b).map some

def readIndexed (f : Nat → Op) (bs : List UInt8) : Option (Piece × List UInt8) :=
  (readNat bs).map fun (n, rest) => (.op (f n), rest)

def readConst (t : ValType) (f : Int → Op) (bs : List UInt8) : Option (Piece × List UInt8) :=
  (readInt t bs).map fun (n, rest) => (.op (f n), rest)

def readAccess (align : UInt8) (f : Nat → Op) : List UInt8 → Option (Piece × List UInt8)
  | a :: bs => if a = align then readIndexed f bs else none
  | [] => none

def readStart (k : Opener) : List UInt8 → Option (Piece × List UInt8)
  | b :: bs => (BlockType.ofByte? b).map fun t => (.start k t, bs)
  | [] => none

def readMemory (o : Op) : List UInt8 → Option (Piece × List UInt8)
  | 0x00 :: bs => some (.op o, bs)
  | _ => none

def readPiece : List UInt8 → Option (Piece × List UInt8)
  | [] => none
  | 0x00 :: bs => some (.op .unreachable, bs)
  | 0x02 :: bs => readStart .block bs
  | 0x03 :: bs => readStart .loop bs
  | 0x04 :: bs => readStart .cond bs
  | 0x05 :: bs => some (.otherwise, bs)
  | 0x0B :: bs => some (.finish, bs)
  | 0x0C :: bs => readIndexed .br bs
  | 0x0D :: bs => readIndexed .brIf bs
  | 0x0F :: bs => some (.op .ret, bs)
  | 0x10 :: bs => readIndexed .call bs
  | 0x1A :: bs => some (.op .drop, bs)
  | 0x20 :: bs => readIndexed .localGet bs
  | 0x21 :: bs => readIndexed .localSet bs
  | 0x22 :: bs => readIndexed .localTee bs
  | 0x23 :: bs => readIndexed .globalGet bs
  | 0x24 :: bs => readIndexed .globalSet bs
  | 0x28 :: bs => readAccess 2 .i32Load bs
  | 0x29 :: bs => readAccess 3 .i64Load bs
  | 0x2D :: bs => readAccess 0 .i32Load8U bs
  | 0x36 :: bs => readAccess 2 .i32Store bs
  | 0x37 :: bs => readAccess 3 .i64Store bs
  | 0x3A :: bs => readAccess 0 .i32Store8 bs
  | 0x3F :: bs => readMemory .memorySize bs
  | 0x40 :: bs => readMemory .memoryGrow bs
  | 0x41 :: bs => readConst .i32 .i32Const bs
  | 0x42 :: bs => readConst .i64 .i64Const bs
  | b :: bs => (NumOp.ofByte? b).map fun o => (.op (.num o), bs)

def readPieces : Nat → List UInt8 → Option Code
  | _, [] => some []
  | 0, _ :: _ => none
  | fuel + 1, bs => (readPiece bs).bind fun (p, rest) => (readPieces fuel rest).map (p :: ·)

def readRuns : Nat → List UInt8 → Option (List ValType × List UInt8)
  | 0, bs => some ([], bs)
  | k + 1, bs =>
    match readNat bs with
    | some (n, b :: bs) => (ValType.ofByte? b).bind fun t =>
      (readRuns k bs).map fun (ts, rest) => (List.replicate n t ++ ts, rest)
    | _ => none

def readLocals (bs : List UInt8) : Option (List ValType × List UInt8) :=
  (readNat bs).bind fun (k, bs) => (readRuns k bs).filter (·.1.length < natLimit)

def readBody (bs : List UInt8) : Option (List ValType × Code) :=
  (readNat bs).bind fun (size, body) =>
    if body.length ≠ size then none
    else (readLocals body).bind fun (locals, bs) => (readPieces bs.length bs).bind fun code =>
      if code.getLast? = some .finish then some (locals, code.dropLast) else none

def Op.inRange : Op → Bool
  | .br n | .brIf n | .call n | .localGet n | .localSet n | .localTee n | .globalGet n | .globalSet n
  | .i32Load n | .i64Load n | .i32Load8U n | .i32Store n | .i64Store n | .i32Store8 n => n < natLimit
  | .i32Const v => ValType.i32.holds v
  | .i64Const v => ValType.i64.holds v
  | _ => true

namespace Piece

variable (number : String → Option Nat)

def inRange : Piece → Bool
  | op o => o.inRange
  | routine n => (number n).any (· < natLimit)
  | _ => true

def resolve : Piece → Piece
  | routine n => (number n).elim (routine n) fun i => op (.call i)
  | p => p

def isRaw : Piece → Bool
  | raw _ => true
  | _ => false

end Piece

variable {number : String → Option Nat}

theorem readNat_uleb (n : Nat) (rest : List UInt8) :
    readNat (uleb n ++ rest) = if n < natLimit then some (n, rest) else none := by
  rw [readNat,readUleb_uleb]
  by_cases h : n < natLimit
  · have hlen : (uleb n).length ≤ 5 := uleb_length (k := 4) (Nat.lt_trans h (by decide))
    have hboth : n < natLimit ∧ (uleb n ++ rest).length ≤ rest.length + 5 := by
      rw [List.length_append]
      exact ⟨h,by omega⟩
    simp only [if_pos hboth, if_pos h]
  · simp only [h, false_and, if_false]

theorem readInt_sleb (t : ValType) (n : Int) (rest : List UInt8) :
    readInt t (sleb n ++ rest) = if t.holds n then some (n, rest) else none := by
  rw [readInt,readSleb_sleb]
  by_cases h : t.holds n = true
  · have hlen : (sleb n).length ≤ t.lebSize := by
      cases t <;> simp only [ValType.holds, Bool.and_eq_true, decide_eq_true_iff] at h
      · exact sleb_length (k := 4) (by norm_num; omega)
      · exact sleb_length (k := 9) (by norm_num; omega)
    have hboth : t.holds n = true ∧ (sleb n ++ rest).length ≤ rest.length + t.lebSize := by
      rw [List.length_append]
      exact ⟨h,by omega⟩
    simp only [if_pos hboth, if_pos h]
  · simp [h]

theorem readIndexed_uleb (f : Nat → Op) (n : Nat) (rest : List UInt8) :
    readIndexed f (uleb n ++ rest) = if n < natLimit then some (.op (f n), rest) else none := by
  rw [readIndexed,readNat_uleb]
  split <;> rfl

theorem readConst_sleb (t : ValType) (f : Int → Op) (n : Int) (rest : List UInt8) :
    readConst t f (sleb n ++ rest) = if t.holds n then some (.op (f n), rest) else none := by
  rw [readConst,readInt_sleb]
  split <;> rfl

theorem NumOp.ofByte?_byte (o : NumOp) : ofByte? o.byte = some o := by
  cases o <;> rfl

theorem BlockType.ofByte?_byte (t : BlockType) : ofByte? t.byte = some t := by
  rcases t with _ | _ | _ <;> rfl

theorem readPiece_op (o : Op) (rest : List UInt8) :
    readPiece (o.bytes ++ rest) = if o.inRange then some (.op o, rest) else none := by
  cases o with
  | br n | brIf n | call n | localGet n | localSet n | localTee n | globalGet n | globalSet n
  | i32Load n | i64Load n | i32Load8U n | i32Store n | i64Store n | i32Store8 n =>
    refine (readIndexed_uleb _ n rest).trans ?_
    simp [Op.inRange]
  | i32Const v => exact readConst_sleb .i32 .i32Const v rest
  | i64Const v => exact readConst_sleb .i64 .i64Const v rest
  | num o =>
    have hread : readPiece (o.byte :: rest) =
        (NumOp.ofByte? o.byte).map fun o => (.op (.num o), rest) := by
      cases o <;> rfl
    exact hread.trans (by rw [NumOp.ofByte?_byte]; rfl)
  | _ => rfl

variable {bs : List UInt8}

theorem readPiece_bytes {p : Piece} (h : p.bytes? number = some bs)
    (hp : p.isRaw = false) (rest : List UInt8) :
    readPiece (bs ++ rest) = if p.inRange number then some (p.resolve number, rest) else none := by
  cases p with
  | op o =>
    cases h
    exact readPiece_op o rest
  | start k t =>
    cases h
    have hread : readPiece (k.byte :: t.byte :: rest) =
        (BlockType.ofByte? t.byte).map fun t => (.start k t, rest) := by
      cases k <;> rfl
    exact hread.trans (by rw [BlockType.ofByte?_byte]; rfl)
  | otherwise | finish =>
    cases h
    rfl
  | routine n =>
    obtain ⟨i,hi,rfl⟩ := Option.map_eq_some_iff.mp h
    rw [readPiece_op,Piece.inRange,Piece.resolve,hi]
    rfl
  | raw bs => cases hp

theorem Piece.bytes_ne_nil {p : Piece} (h : p.bytes? number = some bs) (hp : p.isRaw = false) : bs ≠ [] := by
  cases p with
  | op o =>
    cases h
    cases o <;> exact List.cons_ne_nil _ _
  | routine n =>
    obtain ⟨i,-,rfl⟩ := Option.map_eq_some_iff.mp h
    exact List.cons_ne_nil _ _
  | raw bs => cases hp
  | _ =>
    cases h
    exact List.cons_ne_nil _ _

theorem readPieces_bytes {code : Code} (h : code.bytes? number = some bs)
    (hcode : ∀ p ∈ code, p.isRaw = false) {fuel : Nat} (hfuel : bs.length ≤ fuel) : readPieces fuel bs =
      if code.all (·.inRange number) then some (code.map (·.resolve number)) else none := by
  induction code generalizing bs fuel with
  | nil =>
    cases h
    cases fuel <;> rfl
  | cons p ps ih =>
    rw [List.forall_mem_cons] at hcode
    cases hp : p.bytes? number with
    | none => simp [Code.bytes?, hp] at h
    | some b =>
      simp only [Code.bytes?, hp] at h
      obtain ⟨rest,hrest,rfl⟩ := Option.map_eq_some_iff.mp h
      have hne := Piece.bytes_ne_nil hp hcode.1
      have hpos := List.length_pos_iff.mpr hne
      rw [List.length_append] at hfuel
      obtain ⟨fuel,rfl⟩ : ∃ n, fuel = n + 1 := ⟨fuel - 1,by omega⟩
      have hread : readPieces (fuel + 1) (b ++ rest) =
          (readPiece (b ++ rest)).bind fun (p, rest) => (readPieces fuel rest).map (p :: ·) := by
        cases b with
        | nil => exact absurd rfl hne
        | cons x b => rfl
      rw [hread,readPiece_bytes hp hcode.1]
      by_cases hin : p.inRange number = true
      · have htail := @ih rest hrest hcode.2 fuel (by omega)
        simp only [if_pos hin, Option.bind_some, htail]
        by_cases hall : ps.all (·.inRange number) = true <;> simp [hin, hall]
      · simp [hin]

theorem Code.bytes?_finish {code : Code} (h : code.bytes? number = some bs) :
    Code.bytes? number (code ++ [Piece.finish]) = some (bs ++ [endByte]) := by
  induction code generalizing bs with
  | nil =>
    cases h
    rfl
  | cons p ps ih =>
    cases hp : p.bytes? number with
    | none => simp [Code.bytes?, hp] at h
    | some b =>
      simp only [Code.bytes?, hp] at h
      obtain ⟨rest,hrest,rfl⟩ := Option.map_eq_some_iff.mp h
      simp only [List.cons_append, Code.bytes?, hp, ih hrest, Option.map_some, List.append_assoc]

theorem runs_flatMap (ts : List ValType) : (runs ts).flatMap (fun r => List.replicate r.1 r.2) = ts := by
  induction ts with
  | nil => rfl
  | cons t ts ih =>
    rw [runs]
    split
    · rename_i n u rest hr
      rw [hr] at ih
      split
      · rename_i htu
        subst htu
        rw [← ih,List.flatMap_cons,List.flatMap_cons,List.replicate_succ]
        rfl
      · rw [← ih]
        rfl
    · rename_i hr
      rw [hr] at ih
      rw [← ih]
      rfl

theorem readRuns_bytes (rs : List (Nat × ValType)) (rest : List UInt8) :
    readRuns rs.length ((rs.map runBytes).flatten ++ rest) =
      if rs.all (·.1 < natLimit) then some (rs.flatMap (fun r => List.replicate r.1 r.2), rest)
      else none := by
  induction rs with
  | nil => rfl
  | cons r rs ih =>
    obtain ⟨n,t⟩ := r
    rw [List.map_cons,List.flatten_cons,runBytes,List.length_cons,readRuns]
    rw [List.append_assoc,List.append_assoc,readNat_uleb]
    by_cases hn : n < natLimit
    · simp only [if_pos hn, List.singleton_append, ValType.ofByte?_byte, Option.bind_some, ih]
      by_cases hall : rs.all (fun r => decide (r.1 < natLimit)) = true <;> simp [hn, hall]
    · simp [hn]

theorem length_le_of_runs {rs : List (Nat × ValType)} {r : Nat × ValType} (h : r ∈ rs) :
    r.1 ≤ (rs.flatMap fun r => List.replicate r.1 r.2).length := by
  obtain ⟨as,bs,rfl⟩ := List.append_of_mem h
  simp only [List.flatMap_append, List.flatMap_cons, List.length_append, List.length_replicate]
  omega

theorem runs_length (ts : List ValType) : (runs ts).length ≤ ts.length := by
  induction ts with
  | nil => exact Nat.le_refl 0
  | cons t ts ih =>
    rw [runs]
    split
    · rename_i n u rest hr
      rw [hr] at ih
      split
      · exact Nat.le_succ_of_le ih
      · exact Nat.succ_le_succ ih
    · exact Nat.succ_le_succ (Nat.zero_le _)

theorem readLocals_bytes (ts : List ValType) (rest : List UInt8) :
    readLocals (vector ((runs ts).map runBytes) ++ rest) =
      if ts.length < natLimit then some (ts, rest) else none := by
  rw [readLocals,vector,List.length_map,List.append_assoc,readNat_uleb]
  by_cases hlen : ts.length < natLimit
  · have hruns := Nat.lt_of_le_of_lt (runs_length ts) hlen
    have hall : (runs ts).all (·.1 < natLimit) = true := by
      refine List.all_eq_true.mpr fun r hr => decide_eq_true ?_
      exact Nat.lt_of_le_of_lt (length_le_of_runs hr) (by rwa [runs_flatMap])
    simp only [if_pos hruns, Option.bind_some, readRuns_bytes, if_pos hall, runs_flatMap]
    simp [hlen]
  · rw [if_neg hlen]
    split
    · simp only [Option.bind_some, readRuns_bytes, runs_flatMap]
      split <;> simp [Nat.not_lt.mp hlen]
    · rfl

def Function.content (f : Function) (code : List UInt8) : List UInt8 :=
  vector ((runs f.locals).map runBytes) ++ code ++ [endByte]

def Function.inRange (number : String → Option Nat) (f : Function) : Bool :=
  f.locals.length < natLimit && f.code.all (·.inRange number) &&
    (f.code.bytes? number).any fun code => (f.content code).length < natLimit

theorem readBody_bytes {f : Function} (h : f.bytes? number = some bs)
    (hcode : ∀ p ∈ f.code, p.isRaw = false) : readBody bs =
      if f.inRange number then some (f.locals, f.code.map (·.resolve number)) else none := by
  obtain ⟨code,hbytes,rfl⟩ := Option.map_eq_some_iff.mp h
  have hpieces : readPieces (code ++ [endByte]).length (code ++ [endByte]) =
      if f.code.all (·.inRange number) then some (f.code.map (·.resolve number) ++ [Piece.finish])
      else none := by
    rw [readPieces_bytes (Code.bytes?_finish hbytes) ?_ (Nat.le_refl _)]
    · simp [Piece.inRange, Piece.resolve]
    · simpa [or_imp, forall_and, Piece.isRaw] using hcode
  show readBody (uleb (f.content code).length ++ f.content code) = _
  rw [readBody,readNat_uleb,Function.inRange,hbytes,Option.any_some]
  by_cases hsize : (f.content code).length < natLimit
  · simp only [if_pos hsize, Option.bind_some, ne_eq, not_true, if_false, decide_eq_true hsize, Bool.and_true]
    rw [Function.content,List.append_assoc,readLocals_bytes]
    by_cases hlen : f.locals.length < natLimit
    · simp only [if_pos hlen, Option.bind_some, hpieces, decide_eq_true hlen, Bool.true_and]
      split <;> simp
    · simp [hlen]
  · simp [hsize]

theorem Validation.step_resolve (E : BodyScope) (p : Piece) :
    step E number p = step E (fun _ => none) (p.resolve number) := by
  cases p with
  | routine n =>
    funext s
    rw [Piece.resolve]
    cases hn : number n with
    | none => simp [step, hn]
    | some i => simp [step, hn]
  | start k t => cases k <;> rfl
  | _ => rfl

theorem Validation.steps_resolve (E : BodyScope) (code : Code) :
    steps E number code = steps E (fun _ => none) (code.map (·.resolve number)) := by
  induction code with
  | nil => rfl
  | cons p ps ih =>
    funext s
    rw [steps,List.map_cons,steps,step_resolve,ih]

theorem Code.isValid_resolve (E : BodyScope) (code : Code) :
    code.isValid E number = Code.isValid E (fun _ => none) (code.map (·.resolve number)) := by
  rw [Code.isValid,Validation.steps_resolve,List.map_append]
  rfl

theorem Module.isValidBody_resolve (m : Module) (f : Function) :
    m.isValidBody number f =
      m.isValidBody (fun _ => none) { f with code := f.code.map (·.resolve number) } := by
  simp only [Module.isValidBody]
  split
  · exact Code.isValid_resolve _ _
  · rfl

end Covenant.Wasm
