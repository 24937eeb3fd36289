import Covenant.Wasm.Listing

/-! What reading answers to any bytes. A section that fits the file is never read past its end, and what does
not fit is refused with a reason. Only the end of a function body is taken from the body itself: if it lies
behind the end of the file, the declarations of its locals may run out of bytes. -/

namespace Covenant.Wasm

def ModuleFault.isReported : ModuleFault → Bool
  | overrun => false
  | _ => true

theorem readUleb_length {bs rest : List UInt8} {n : Nat} (h : readUleb bs = .ok (n, rest)) :
    rest.length < bs.length := by
  induction bs generalizing n rest with
  | nil => cases h
  | cons b bs ih => grind [readUleb]

theorem readSleb_length {bs rest : List UInt8} {n : Int} (h : readSleb bs = .ok (n, rest)) :
    rest.length < bs.length := by
  induction bs generalizing n rest with
  | nil => cases h
  | cons b bs ih => grind [readSleb]

def Cursor.Within (c : Cursor) : Prop := c.left ≤ c.rest.length

section Steps

variable {α β : Type} {r : Read α} {c : Cursor}

/-- The end of a step inside the file, or a fault that is reported. -/
def Fair : Except ModuleFault (α × Cursor) → Prop
  | .ok (_, d) => d.Within
  | .error e => e.isReported = true

def Stays (r : Read α) : Prop := ∀ c : Cursor, c.Within → Fair (r c)

theorem Read.bind_of_ok (f : α → Read β) {a : α} {d : Cursor} (h : r c = .ok (a, d)) : (r >>= f) c = f a d := by
  show (r c >>= fun p => f p.1 p.2) = _
  rw [h]
  rfl

theorem Read.bind_of_error (f : α → Read β) {e : ModuleFault} (h : r c = .error e) :
    (r >>= f) c = .error e := by
  show (r c >>= fun p => f p.1 p.2) = _
  rw [h]
  rfl

theorem Read.map_eq_error (f : α → β) {e : ModuleFault} :
    (r >>= fun a => pure (f a)) c = .error e ↔ r c = .error e := by
  cases h : r c with
  | error e' => rw [Read.bind_of_error _ h]; simp
  | ok p => rw [Read.bind_of_ok _ h]; exact ⟨nofun,nofun⟩

namespace Stays

theorem pure (a : α) : Stays (Pure.pure a) := fun _ hc => hc

theorem fail {e : ModuleFault} (he : e.isReported = true) : Stays (Read.fail e : Read α) := fun _ _ => he

theorem bind {f : α → Read β} (h : Stays r) (h' : ∀ a, Stays (f a)) : Stays (r >>= f) := by
  intro c hc
  have hfair := h c hc
  cases hr : r c with
  | error e => rw [hr] at hfair; rw [Read.bind_of_error f hr]; exact hfair
  | ok p => rw [hr] at hfair; rw [Read.bind_of_ok f hr]; exact h' p.1 p.2 hfair

theorem ite {p : Prop} [Decidable p] {s : Read α} (h : Stays r) (h' : Stays s) : Stays (if p then r else s) := by
  split <;> assumption

theorem byte : Stays Read.byte := by
  intro c hc
  unfold Read.byte
  split
  · rfl
  · rename_i hleft
    rw [Cursor.Within] at hc
    split
    · rename_i b rest hrest
      rw [hrest,List.length_cons] at hc
      show c.left - 1 ≤ (rest.length : Int)
      omega
    · rename_i hrest
      rw [hrest] at hc
      exact absurd hc hleft

theorem leb {read : List UInt8 → Except LebFault (α × List UInt8)}
    (hread : ∀ bs a rest, read bs = .ok (a, rest) → rest.length < bs.length) : Stays (Read.leb read) := by
  intro c hc
  unfold Read.leb
  split
  · rename_i a rest h
    have hlt := hread c.rest a rest h
    rw [Cursor.Within] at hc
    show c.left - ((c.rest.length - rest.length : Nat) : Int) ≤ rest.length
    omega
  · rfl

theorem nat : Stays Read.nat := leb fun _ _ _ => readUleb_length

theorem int : Stays Read.int := leb fun _ _ _ => readSleb_length

theorem raw (count : Nat) : Stays (Read.raw count) := by
  intro c hc
  unfold Read.raw
  split
  · rfl
  · rw [Cursor.Within] at hc
    show c.left - count ≤ ((c.rest.drop count).length : Int)
    rw [List.length_drop]
    omega

theorem times (h : Stays r) (n : Nat) : Stays (Read.times r n) := by
  induction n with
  | zero => exact pure []
  | succ n ih => exact h.bind fun _ => ih.bind fun _ => pure _

theorem vec (h : Stays r) : Stays (Read.vec r) := nat.bind h.times

theorem name : Stays Read.name := by
  refine nat.bind fun n => (raw n).bind fun bs => ?_
  split
  · exact pure _
  · exact fail rfl

theorem valType : Stays Read.valType := by
  refine byte.bind fun b => ?_
  split
  · exact pure _
  · exact fail rfl

theorem const : Stays Read.const :=
  byte.bind fun _ => ite (int.bind fun _ => byte.bind fun _ => ite (pure _) (fail rfl)) (fail rfl)

end Stays

end Steps

namespace Listing

theorem type_stays : Stays readType :=
  Stays.byte.bind fun _ => .ite (Stays.byte.vec.bind fun _ => Stays.byte.vec.bind fun _ => .pure _) (.fail rfl)

theorem import_stays : Stays readImport :=
  Stays.name.bind fun _ => Stays.name.bind fun _ => Stays.byte.bind fun _ =>
    .ite (Stays.nat.bind fun _ => .pure _) (.fail rfl)

theorem memory_stays : Stays readMemory :=
  Stays.nat.bind fun _ => Stays.byte.bind fun _ => Stays.nat.bind fun _ =>
    .ite (Stays.nat.bind fun _ => .pure _) (.pure _)

theorem global_stays : Stays readGlobal :=
  Stays.valType.bind fun _ => Stays.byte.bind fun _ => Stays.const.bind fun _ => .pure _

theorem export_stays : Stays readExport :=
  Stays.name.bind fun _ => Stays.byte.bind fun _ => Stays.nat.bind fun _ => .pure _

theorem segment_stays : Stays readSegment :=
  Stays.nat.bind fun _ => Stays.const.bind fun _ => Stays.nat.bind fun n => (Stays.raw n).bind fun _ => .pure _

theorem run_stays : Stays readRun := Stays.nat.bind fun _ => Stays.valType.bind fun _ => .pure _

theorem section_stays (p : Progress) {id : UInt8} (hid : id ≠ 10) : Stays (readSection p id) := by
  unfold readSection
  split
  · exact .pure _
  · exact type_stays.vec.bind fun _ => .pure _
  · exact import_stays.vec.bind fun _ => .pure _
  · exact Stays.nat.vec.bind fun _ => .pure _
  · exact memory_stays.bind fun _ => .pure _
  · exact global_stays.vec.bind fun _ => .pure _
  · exact export_stays.vec.bind fun _ => .pure _
  · exact absurd rfl hid
  · exact segment_stays.vec.bind fun _ => .pure _
  · exact .fail rfl

/-- A body that is declared longer than the rest of the file, and whose declarations of locals run out of it. -/
def BodyRunsOut (c : Cursor) : Prop :=
  ∃ size d, Read.nat c = .ok (size, d) ∧ d.rest.length < size ∧
    Read.vec readRun ⟨d.rest, size⟩ = .error .overrun

theorem nat_ne_overrun (c : Cursor) : Read.nat c ≠ .error .overrun := by
  unfold Read.nat Read.leb
  split <;> simp

theorem body_overrun {c : Cursor} : readBody c = .error .overrun ↔ BodyRunsOut c := by
  cases hsize : Read.nat c with
  | error e =>
    have hne := hsize ▸ nat_ne_overrun c
    rw [readBody,Read.bind_of_error _ hsize]
    simp_all [BodyRunsOut]
  | ok p =>
    obtain ⟨size,d⟩ := p
    have hrest (h : Read.vec readRun ⟨d.rest, size⟩ = .error .overrun) : d.rest.length < size := by
      refine Nat.lt_of_not_le fun hle => ?_
      have hfair := run_stays.vec ⟨d.rest, size⟩ (Int.ofNat_le.mpr hle)
      rw [h] at hfair
      cases hfair
    have hiff : BodyRunsOut c ↔ Read.vec readRun ⟨d.rest, size⟩ = .error .overrun := by
      refine ⟨fun ⟨_,_,h,_,h'⟩ => ?_,fun h => ⟨size,d,hsize,hrest h,h⟩⟩
      cases hsize.symm.trans h
      exact h'
    rw [hiff,readBody,Read.bind_of_ok _ hsize]
    cases Read.vec readRun ⟨d.rest, size⟩ <;> simp

/-- One of that many bodies runs out of the file, after others that could be read. -/
inductive BodiesRunOut : Nat → Cursor → Prop
  | here {n : Nat} {c : Cursor} (h : BodyRunsOut c) : BodiesRunOut (n + 1) c
  | next {n : Nat} {c d : Cursor} {b : Nat × List (Nat × ValType)} (h : readBody c = .ok (b, d))
      (h' : BodiesRunOut n d) : BodiesRunOut (n + 1) c

theorem bodies_overrun (types : List Nat) {index : Nat} {c : Cursor} :
    readBodies index types c = .error .overrun ↔ BodiesRunOut types.length c := by
  induction types generalizing index c with
  | nil => exact ⟨nofun,nofun⟩
  | cons t types ih =>
    have hiff := body_overrun (c := c)
    cases hbody : readBody c with
    | error e =>
      rw [readBodies,Read.bind_of_error _ hbody,List.length_cons]
      rw [hbody] at hiff
      refine ⟨fun h => .here (hiff.mp (by cases h; rfl)),fun h => ?_⟩
      obtain h | ⟨h,_⟩ := h
      · cases hiff.mpr h
        rfl
      · rw [hbody] at h
        cases h
    | ok p =>
      rw [readBodies,Read.bind_of_ok _ hbody,Read.map_eq_error,ih]
      refine ⟨.next hbody,fun h => ?_⟩
      obtain h | ⟨h,h'⟩ := h
      · cases hbody.symm.trans (hiff.mpr h)
      · cases hbody.symm.trans h
        exact h'

/-- The code section that comes next holds a body that runs out of the file. -/
def CodeRunsOut (p : Progress) (bs : List UInt8) : Prop :=
  ∃ size payload c, readUleb bs = .ok (size, payload) ∧ size ≤ payload.length ∧
    Read.nat ⟨payload, size⟩ = .ok (p.declared.length, c) ∧ BodiesRunOut p.declared.length c

theorem code_overrun {p : Progress} {c : Cursor} : readSection p 10 c = .error .overrun ↔
    ∃ d, Read.nat c = .ok (p.declared.length, d) ∧ BodiesRunOut p.declared.length d := by
  cases hcount : Read.nat c with
  | error e =>
    have hne := hcount ▸ nat_ne_overrun c
    rw [readSection,Read.bind_of_error _ hcount]
    simp_all
  | ok r =>
    obtain ⟨n,d⟩ := r
    rw [readSection,Read.bind_of_ok _ hcount]
    by_cases hn : n = p.declared.length
    · rw [if_pos hn,Read.map_eq_error,bodies_overrun]
      simp [hn]
    · rw [if_neg hn]
      simp [Read.fail, hn]

inductive Proceeds : Progress → List UInt8 → Progress → List UInt8 → Prop
  | refl (p : Progress) (bs : List UInt8) : Proceeds p bs p bs
  | next {p q r : Progress} {id : UInt8} {bs payload bs' : List UInt8} {size : Nat} {c : Cursor}
      (hsize : readUleb bs = .ok (size, payload)) (hfits : size ≤ payload.length)
      (hsection : readSection p id ⟨payload, size⟩ = .ok (q, c))
      (h : Proceeds q (payload.drop size) r bs') : Proceeds p (id :: bs) r bs'

theorem Proceeds.readSections {p q : Progress} {bs bs' : List UInt8} (h : Proceeds p bs q bs') (fuel : Nat)
    (hfuel : bs.length ≤ fuel) :
    ∃ fuel', bs'.length ≤ fuel' ∧ Listing.readSections fuel p bs = Listing.readSections fuel' q bs' := by
  induction h generalizing fuel with
  | refl p bs => exact ⟨fuel,hfuel,rfl⟩
  | @next p q r id bs payload bs' size c hsize hfits hsection _ ih =>
    have hlt := readUleb_length hsize
    cases fuel with
    | zero => cases hfuel
    | succ fuel =>
      simp only [Listing.readSections, hsize, if_neg (Nat.not_lt.mpr hfits), hsection]
      refine ih fuel ?_
      simp only [List.length_cons, List.length_drop] at *
      omega

theorem readSections_cases (fuel : Nat) (p : Progress) (bs : List UInt8) (hfuel : bs.length ≤ fuel) :
    (∃ q, Proceeds p bs q [] ∧ readSections fuel p bs = .ok q.listing) ∨
    ∃ e, readSections fuel p bs = .error e ∧
      (e = .overrun → ∃ q rest, Proceeds p bs q (10 :: rest) ∧ CodeRunsOut q rest) := by
  induction fuel generalizing p bs with
  | zero =>
    obtain rfl := List.eq_nil_of_length_eq_zero (Nat.le_zero.mp hfuel)
    exact .inl ⟨p,.refl p [],rfl⟩
  | succ fuel ih =>
    cases bs with
    | nil => exact .inl ⟨p,.refl p [],rfl⟩
    | cons id bs =>
      rw [readSections]
      cases hsize : readUleb bs with
      | error f => exact .inr ⟨_,rfl,nofun⟩
      | ok s =>
        obtain ⟨size,payload⟩ := s
        dsimp only
        split
        · exact .inr ⟨_,rfl,nofun⟩
        · rename_i hfits
          have hfits := Nat.not_lt.mp hfits
          cases hsection : readSection p id ⟨payload, size⟩ with
          | error e =>
            refine .inr ⟨e,rfl,fun he => ?_⟩
            subst he
            by_cases hid : id = 10
            · subst hid
              obtain ⟨c,hcount,hbodies⟩ := code_overrun.mp hsection
              exact ⟨p,bs,.refl _ _,size,payload,c,hsize,hfits,hcount,hbodies⟩
            · have hfair := section_stays p hid ⟨payload, size⟩ (Int.ofNat_le.mpr hfits)
              rw [hsection] at hfair
              cases hfair
          | ok r =>
            have hlt := readUleb_length hsize
            have hrest : (payload.drop size).length ≤ fuel := by
              simp only [List.length_cons, List.length_drop] at *
              omega
            obtain ⟨q,h,hok⟩ | ⟨e,herror,hover⟩ := ih r.1 _ hrest
            · exact .inl ⟨q,.next hsize hfits hsection h,hok⟩
            · refine .inr ⟨e,herror,fun he => ?_⟩
              obtain ⟨q,rest,h,hcode⟩ := hover he
              exact ⟨q,rest,.next hsize hfits hsection h,hcode⟩

def HasHeader (bytes : List UInt8) : Prop :=
  bytes.take 4 = magic ∧ (bytes.drop 4).take 4 = version

/-- Reading comes to a function body that is declared longer than the rest of the file, and the file ends in the
declarations of its locals. -/
def EndsInLocals (bytes : List UInt8) : Prop :=
  HasHeader bytes ∧ ∃ p rest, Proceeds ⟨empty, []⟩ (bytes.drop 8) p (10 :: rest) ∧ CodeRunsOut p rest

theorem read_of_header {bytes : List UInt8} (h : HasHeader bytes) :
    read bytes = readSections bytes.length ⟨empty, []⟩ (bytes.drop 8) := by
  simp [read, h.1, h.2]

theorem read_of_not_header {bytes : List UInt8} (h : ¬ HasHeader bytes) : read bytes = .error .header := by
  rw [read,if_neg]
  simpa [HasHeader] using h

theorem EndsInLocals.read {bytes : List UInt8} (h : EndsInLocals bytes) : read bytes = .error .overrun := by
  obtain ⟨hheader,p,rest,hrest,size,payload,c,hsize,hfits,hcount,hbodies⟩ := h
  obtain ⟨fuel,hfuel,hread⟩ := hrest.readSections bytes.length (by simp)
  rw [read_of_header hheader,hread]
  cases fuel with
  | zero => cases hfuel
  | succ fuel =>
    have hsection := code_overrun.mpr ⟨c,hcount,hbodies⟩
    simp only [readSections, hsize, if_neg (Nat.not_lt.mpr hfits), hsection]

/-- Reading any bytes ends. A listing holds what the sections of the whole file say, one after the other. All else
is refused with a reason, but for one case: the file ends in the declarations of a function body that claims to be
longer than the file. -/
theorem read_answers (bytes : List UInt8) :
    (∀ l, read bytes = .ok l →
      HasHeader bytes ∧ ∃ p, Proceeds ⟨empty, []⟩ (bytes.drop 8) p [] ∧ p.listing = l) ∧
    (((∃ l, read bytes = .ok l) ∨ ∃ e, read bytes = .error e ∧ e.isReported = true) ↔ ¬ EndsInLocals bytes) := by
  by_cases hheader : HasHeader bytes
  · have hread := read_of_header hheader
    obtain ⟨q,h,hok⟩ | ⟨e,herror,hover⟩ := readSections_cases bytes.length ⟨empty, []⟩ (bytes.drop 8)
      (by simp)
    · rw [hok] at hread
      refine ⟨fun l hl => ⟨hheader,q,h,?_⟩,fun _ hends => ?_,fun _ => .inl ⟨_,hread⟩⟩
      · exact Except.ok.inj (hread.symm.trans hl)
      · cases hread.symm.trans hends.read
    · rw [herror] at hread
      refine ⟨fun l hl => ?_,fun hanswer hends => ?_,fun hends => .inr ⟨e,hread,?_⟩⟩
      · cases hread.symm.trans hl
      · rw [hends.read] at hanswer
        simp [ModuleFault.isReported] at hanswer
      · cases e with
        | overrun => exact absurd ⟨hheader,hover rfl⟩ hends
        | _ => rfl
  · have hread := read_of_not_header hheader
    refine ⟨fun l hl => ?_,fun _ hends => hheader hends.1,fun _ => .inr ⟨_,hread,rfl⟩⟩
    cases hread.symm.trans hl

/-- One function, whose body claims five bytes and has the two that begin its locals. -/
def overlong : List UInt8 :=
  magic ++ version ++ [3, 2, 1, 0] ++ [10, 4, 1, 5, 1, 1]

/-- The file is malformed, and the fault is not reported. -/
theorem read_overlong : read overlong = .error .overrun ∧ ModuleFault.overrun.isReported = false :=
  ⟨rfl,rfl⟩

end Listing

end Covenant.Wasm
