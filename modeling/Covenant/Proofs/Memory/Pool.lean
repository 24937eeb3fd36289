import Covenant.Memory.Pool
import Covenant.Proofs.Wasm.Listing

/-! The string literals of a module in memory. A text keeps its address when others are added. Before the module runs,
its cell is found there. -/

namespace Covenant

namespace Memory

theorem le_align (n : Nat) : n ≤ align n slotSize := by
  simp only [align, slotSize]
  omega

theorem align_mod (n : Nat) : align n slotSize % slotSize = 0 := by
  simp only [align, slotSize]
  omega

theorem align_of_mod {n : Nat} (h : n % slotSize = 0) : align n slotSize = n := by
  simp only [align, slotSize] at *
  omega

theorem cellSize_mod (t : String) : cellSize t % slotSize = 0 := align_mod _

theorem utf8_length (t : String) : t.toUTF8.toList.length = t.utf8ByteSize := by
  rw [Wasm.toList_eq]
  rfl

theorem cell_length (t : String) : (cell t).length = cellSize t := by
  have hfits : stringHeader + t.utf8ByteSize ≤ cellSize t := le_align _
  have hheader : (le32 t.utf8ByteSize).length = stringHeader := rfl
  simp only [cell, List.length_append, utf8_length, List.length_replicate, hheader]
  omega

theorem cellsSize_mod (ts : List String) : cellsSize ts % slotSize = 0 := by
  induction ts with
  | nil => rfl
  | cons t ts ih =>
    have ht := cellSize_mod t
    simp only [cellsSize, slotSize] at *
    omega

theorem cells_length (ts : List String) : (ts.flatMap cell).length = cellsSize ts := by
  induction ts with
  | nil => rfl
  | cons t ts ih => simp only [List.flatMap_cons, List.length_append, cell_length, ih, cellsSize]

def leNat : List UInt8 → Nat
  | [] => 0
  | b :: bs => b.toNat + 256 * leNat bs

theorem leNat_le32 {n : Nat} (h : n < 2 ^ 32) : leNat (le32 n) = n := by
  simp only [le32, leNat, Nat.toUInt8, UInt8.toNat_ofNat']
  omega

namespace Pool

theorem bytes_length (p : Pool) : p.bytes.length = p.size := cells_length p.texts

theorem heapBase_eq (p : Pool) : p.heapBase = dataBase + p.size := by
  have hsize : p.size % slotSize = 0 := cellsSize_mod p.texts
  refine align_of_mod ?_
  simp only [dataBase, slotSize] at *
  omega

theorem heapBase_le_pages (p : Pool) : p.heapBase ≤ p.pages * pageSize := by
  simp only [pages, pageSize]
  omega

def insertAll (p : Pool) (ts : List String) : Pool := ts.foldl insert p

theorem insertAll_append (p : Pool) (ts us : List String) :
    p.insertAll (ts ++ us) = (p.insertAll ts).insertAll us := List.foldl_append

theorem mem_insert (p : Pool) (t : String) : t ∈ (p.insert t).texts := by
  rw [insert]
  split
  · assumption
  · simp

theorem prefix_insert (p : Pool) (t : String) : p.texts <+: (p.insert t).texts := by
  rw [insert]
  split
  · exact List.prefix_rfl
  · exact List.prefix_append _ _

theorem prefix_insertAll (p : Pool) (ts : List String) : p.texts <+: (p.insertAll ts).texts := by
  induction ts generalizing p with
  | nil => exact List.prefix_rfl
  | cons t ts ih => exact (prefix_insert p t).trans (ih (p.insert t))

theorem mem_insertAll {p : Pool} {ts : List String} {t : String} :
    t ∈ (p.insertAll ts).texts ↔ t ∈ p.texts ∨ t ∈ ts := by
  induction ts generalizing p with
  | nil => simp [insertAll]
  | cons u ts ih =>
    have hinsert : t ∈ (p.insert u).texts ↔ t ∈ p.texts ∨ t = u := by
      rw [insert]
      split
      · rename_i hu
        exact ⟨.inl,fun h => h.elim id fun h => h ▸ hu⟩
      · simp
    have hstep : p.insertAll (u :: ts) = (p.insert u).insertAll ts := rfl
    rw [hstep,ih,hinsert,List.mem_cons,or_assoc]

theorem split_at {ts : List String} {t : String} (h : t ∈ ts) :
    ∃ us, ∀ vs, (ts ++ vs).takeWhile (· ≠ t) ++ t :: (us ++ vs) = ts ++ vs := by
  obtain ⟨as,us,rfl,has⟩ := List.eq_append_cons_of_mem h
  refine ⟨us,fun vs => ?_⟩
  have hne : ∀ a ∈ as, decide (a ≠ t) = true := fun a ha => decide_eq_true fun hat => has (hat ▸ ha)
  rw [List.append_assoc,List.takeWhile_append_of_pos hne]
  simp

theorem address_of_prefix {p q : Pool} {t : String} (h : p.texts <+: q.texts) (ht : t ∈ p.texts) :
    q.address t = p.address t := by
  obtain ⟨vs,hvs⟩ := h
  obtain ⟨us,hus⟩ := split_at ht
  have hlong := hus vs
  have hshort := hus []
  rw [List.append_nil,List.append_nil] at hshort
  have heq : (p.texts ++ vs).takeWhile (· ≠ t) = p.texts.takeWhile (· ≠ t) := by
    have htexts := congrArg (· ++ vs) hshort
    simp only [List.append_assoc, List.cons_append] at htexts
    exact List.append_cancel_right (hlong.trans htexts.symm)
  rw [address,address,← hvs,heq]

theorem cell_at {p : Pool} {t : String} (h : t ∈ p.texts) :
    ∃ before after, p.bytes = before ++ cell t ++ after ∧ p.address t = dataBase + before.length := by
  obtain ⟨us,hus⟩ := split_at h
  have hsplit := hus []
  rw [List.append_nil,List.append_nil] at hsplit
  refine ⟨(p.texts.takeWhile (· ≠ t)).flatMap cell,us.flatMap cell,?_,by rw [cells_length,address]⟩
  have hbytes := congrArg (List.flatMap cell) hsplit
  rw [List.flatMap_append,List.flatMap_cons] at hbytes
  rw [bytes,← hbytes,List.append_assoc]

end Pool

end Memory

open Memory

namespace Wasm

def Segment.write? (s : Segment) (memory : List UInt8) : Option (List UInt8) :=
  if 0 ≤ s.offset ∧ s.offset.toNat + s.content.length ≤ memory.length then
    some (memory.take s.offset.toNat ++
      (s.content ++ memory.drop (s.offset.toNat + s.content.length)))
  else none

def Module.initialMemory? (m : Module) : Option (List UInt8) :=
  m.memory.bind fun k =>
    m.segments.foldlM (fun memory s => s.write? memory) (List.replicate (k.min * pageSize) 0)

end Wasm

namespace Memory

/-- A text as code finds it: its length in four bytes, the least significant first, and its UTF-8 bytes. -/
structure HoldsText (memory : List UInt8) (address : Nat) (text : String) : Prop where
  length : leNat ((memory.drop address).take 4) = text.utf8ByteSize
  bytes : (memory.drop (address + 4)).take text.utf8ByteSize = text.toUTF8.toList
  inside : address + 4 + text.utf8ByteSize ≤ memory.length

theorem holdsText_cell {t : String} (h : t.utf8ByteSize < 2 ^ 32) (before after : List UInt8) :
    HoldsText (before ++ (cell t ++ after)) before.length t := by
  have hheader : (le32 t.utf8ByteSize).length = 4 := rfl
  have hraw := utf8_length t
  have hcell : cell t ++ after = le32 t.utf8ByteSize ++ (t.toUTF8.toList ++
      (List.replicate (cellSize t - stringHeader - t.utf8ByteSize) 0 ++ after)) := by
    simp [cell]
  rw [hcell]
  refine ⟨?_,?_,?_⟩
  · rw [List.drop_left,List.take_left' hheader,leNat_le32 h]
  · rw [← List.drop_drop,List.drop_left,List.drop_left' hheader,List.take_left' hraw]
  · simp only [List.length_append, hheader, hraw]
    omega

theorem Pool.initialMemory_holds {p : Pool} {m : Wasm.Module} {k : Wasm.Limits} (hm : m.memory = some k)
    (hseg : m.segments = if p.texts.isEmpty then [] else [⟨dataBase, p.bytes⟩])
    (hroom : p.heapBase ≤ k.min * pageSize) (hsmall : k.min * pageSize < 2 ^ 32) :
    ∃ memory, m.initialMemory? = some memory ∧ ∀ t ∈ p.texts, HoldsText memory (p.address t) t := by
  let zeros : List UInt8 := List.replicate (k.min * pageSize) 0
  have hzeros : zeros.length = k.min * pageSize := List.length_replicate
  rw [Wasm.Module.initialMemory?,hm,hseg,Option.bind_some]
  cases hempty : p.texts with
  | nil => exact ⟨zeros,rfl,nofun⟩
  | cons u us =>
    have hfits : dataBase + p.bytes.length ≤ zeros.length := by
      rw [hzeros,bytes_length,← heapBase_eq]
      exact hroom
    refine ⟨zeros.take dataBase ++ (p.bytes ++ zeros.drop (dataBase + p.bytes.length)),?_,?_⟩
    · have hwrite : (⟨dataBase, p.bytes⟩ : Wasm.Segment).write? zeros =
          some (zeros.take dataBase ++ (p.bytes ++ zeros.drop (dataBase + p.bytes.length))) :=
        if_pos ⟨Int.natCast_nonneg dataBase,hfits⟩
      simpa [List.foldlM_cons] using hwrite
    · intro t ht
      rw [← hempty] at ht
      obtain ⟨before,after,hbytes,haddress⟩ := cell_at ht
      have hcell : (cell t).length ≤ p.bytes.length := by
        rw [hbytes,List.length_append,List.length_append]
        omega
      have hlt : t.utf8ByteSize < 2 ^ 32 := by
        have hsize : stringHeader + t.utf8ByteSize ≤ cellSize t := le_align _
        rw [cell_length] at hcell
        omega
      have hlength : (zeros.take dataBase ++ before).length = p.address t := by
        rw [List.length_append,List.length_take,haddress]
        omega
      generalize zeros.drop (dataBase + p.bytes.length) = rest
      have hholds := holdsText_cell hlt (zeros.take dataBase ++ before) (after ++ rest)
      rw [hlength] at hholds
      rw [hbytes]
      simpa using hholds

end Memory

end Covenant
