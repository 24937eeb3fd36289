import Covenant.Lower.Context
import Covenant.Proofs.Memory.Pool
import Mathlib.Data.List.Induction

/-! String literals as lowering asks for them, one after the other. Whatever is asked for, each text gets one
place of its own among the data, and keeps it. -/

namespace Covenant.Memory

namespace Pool

variable {p : Pool} {t u : String}

theorem address_mod (p : Pool) (t : String) : p.address t % slotSize = 0 := by
  have hcells := cellsSize_mod (p.texts.takeWhile (· ≠ t))
  simp only [address, dataBase, slotSize] at *
  omega

theorem dataBase_le_address (p : Pool) (t : String) : dataBase ≤ p.address t := Nat.le_add_right _ _

theorem holdsText_bytes (ht : t ∈ p.texts) (hsize : t.utf8ByteSize < 2 ^ 32) :
    HoldsText p.bytes (p.address t - dataBase) t := by
  obtain ⟨before,after,hbytes,haddress⟩ := cell_at ht
  rw [haddress,hbytes,Nat.add_sub_cancel_left,List.append_assoc]
  exact holdsText_cell hsize before after

theorem cellsSize_apart {ts : List String} (ht : t ∈ ts) (hu : u ∈ ts) (hne : t ≠ u) :
    cellsSize (ts.takeWhile (· ≠ t)) + cellSize t ≤ cellsSize (ts.takeWhile (· ≠ u)) ∨
      cellsSize (ts.takeWhile (· ≠ u)) + cellSize u ≤ cellsSize (ts.takeWhile (· ≠ t)) := by
  induction ts with
  | nil => cases ht
  | cons v ts ih =>
    by_cases htv : v = t
    · subst htv
      left
      simp [hne, cellsSize]
    · by_cases huv : v = u
      · subst huv
        right
        simp [htv, cellsSize]
      · have htail := ih ((List.mem_cons.mp ht).resolve_left (Ne.symm htv))
          ((List.mem_cons.mp hu).resolve_left (Ne.symm huv))
        rw [List.takeWhile_cons_of_pos (by simpa using htv),List.takeWhile_cons_of_pos (by simpa using huv)]
        simp only [cellsSize]
        omega

theorem address_apart (ht : t ∈ p.texts) (hu : u ∈ p.texts) (hne : t ≠ u) :
    p.address t + (stringHeader + t.utf8ByteSize) ≤ p.address u ∨
      p.address u + (stringHeader + u.utf8ByteSize) ≤ p.address t := by
  have happart := cellsSize_apart ht hu hne
  have hcell (v : String) : stringHeader + v.utf8ByteSize ≤ cellSize v := le_align _
  have hcellt := hcell t
  have hcellu := hcell u
  simp only [address]
  omega

theorem address_injective (ht : t ∈ p.texts) (hu : u ∈ p.texts) (h : p.address t = p.address u) : t = u := by
  by_contra hne
  have happart := address_apart ht hu hne
  simp only [stringHeader] at happart
  omega

theorem bytes_prefix_insert (p : Pool) (t : String) : p.bytes <+: (p.insert t).bytes := by
  obtain ⟨us,hus⟩ := prefix_insert p t
  exact ⟨us.flatMap cell,by rw [bytes,bytes,← hus,List.flatMap_append]⟩

theorem pages_le {k : Nat} (h : p.heapBase ≤ k * pageSize) : p.pages ≤ k := by
  simp only [pages, pageSize] at *
  omega

theorem address_concat (h : t ∉ p.texts) :
    address ⟨p.texts ++ [t]⟩ t = dataBase + p.size := by
  have hne : ∀ u ∈ p.texts, decide (u ≠ t) = true := fun u hu => decide_eq_true fun hut => h (hut ▸ hu)
  rw [address,List.takeWhile_append_of_pos hne]
  simp [size]

/-- What has come of asking for some texts in turn: the addresses that were the answers, and the pool that is
left. -/
structure Interned (ts : List String) (addresses : List Nat) (p : Pool) : Prop where
  answers : addresses = ts.map p.address
  members (t : String) : t ∈ p.texts ↔ t ∈ ts
  order : p.texts.Pairwise fun t u => ts.idxOf t < ts.idxOf u

theorem Interned.empty : Interned [] [] .empty := ⟨rfl,fun _ => Iff.rfl,.nil⟩

theorem idxOf_concat {ts : List String} (h : t ∈ ts) (u : String) : (ts ++ [u]).idxOf t = ts.idxOf t :=
  List.idxOf_append_of_mem h

theorem Interned.insert {ts : List String} {addresses : List Nat} (h : Interned ts addresses p) (t : String) :
    Interned (ts ++ [t]) (addresses ++ [(p.insert t).address t]) (p.insert t) := by
  have hkept (u : String) (hu : u ∈ ts) : (p.insert t).address u = p.address u :=
    address_of_prefix (prefix_insert p t) ((h.members u).mpr hu)
  have hsame : p.texts.Pairwise fun v w => (ts ++ [t]).idxOf v < (ts ++ [t]).idxOf w := by
    refine h.order.imp_of_mem fun {v w} hv hw hlt => ?_
    rwa [idxOf_concat ((h.members v).mp hv),idxOf_concat ((h.members w).mp hw)]
  refine ⟨?_,fun u => ?_,?_⟩
  · rw [List.map_append,h.answers]
    exact congrArg (· ++ [(p.insert t).address t]) (List.map_congr_left fun u hu => (hkept u hu).symm)
  · rw [show p.insert t = p.insertAll [t] from rfl,mem_insertAll,h.members,List.mem_append]
  · rw [Pool.insert]
    split
    · exact hsame
    · rename_i hnew
      -- A new text appears behind all others, so it has the greatest index.
      refine List.pairwise_append.mpr ⟨hsame,List.pairwise_singleton _ _,fun v hv w hw => ?_⟩
      obtain rfl := List.mem_singleton.mp hw
      have hts : w ∉ ts := fun hw => hnew ((h.members w).mpr hw)
      rw [idxOf_concat ((h.members v).mp hv),List.idxOf_append_of_notMem hts]
      exact Nat.lt_add_right _ (List.idxOf_lt_length_of_mem ((h.members v).mp hv))

/-- A pool in which texts can be found: one address for each text, aligned and apart from the others, with the
text among the bytes there. Another text leaves all this as it is. -/
structure Sound (p : Pool) : Prop where
  address_iff : ∀ t ∈ p.texts, ∀ u ∈ p.texts, p.address t = p.address u ↔ t = u
  aligned : ∀ t ∈ p.texts, 8 ∣ p.address t ∧ 8 ≤ p.address t
  holds : ∀ t ∈ p.texts, HoldsText p.bytes (p.address t - 8) t
  apart : ∀ t ∈ p.texts, ∀ u ∈ p.texts, t ≠ u →
    p.address t + (4 + t.utf8ByteSize) ≤ p.address u ∨ p.address u + (4 + u.utf8ByteSize) ≤ p.address t
  grows (t : String) : p.bytes <+: (p.insert t).bytes ∧ ∀ u ∈ p.texts, (p.insert t).address u = p.address u
  heap : 8 ∣ p.heapBase ∧ 8 + p.bytes.length ≤ p.heapBase
  pages_least : IsLeast {k | p.heapBase ≤ k * 65536} p.pages

theorem sound (h : ∀ t ∈ p.texts, t.utf8ByteSize < 2 ^ 32) : p.Sound where
  address_iff t ht u hu := ⟨address_injective ht hu,fun htu => htu ▸ rfl⟩
  aligned t _ := ⟨Nat.dvd_of_mod_eq_zero (address_mod p t),dataBase_le_address p t⟩
  holds t ht := holdsText_bytes ht (h t ht)
  apart t ht u hu hne := address_apart ht hu hne
  grows t := ⟨bytes_prefix_insert p t,fun u hu => address_of_prefix (prefix_insert p t) hu⟩
  heap := ⟨Nat.dvd_of_mod_eq_zero (align_mod _),by rw [bytes_length]; exact le_align _⟩
  pages_least := ⟨heapBase_le_pages p,fun _ => pages_le⟩

end Pool

/-- Data that grow as a pool of short texts does: the same bytes, and for each text its address. -/
structure Data.Refines (d : Data) (p : Pool) : Prop where
  blob : d.blob = p.bytes
  order : d.order = p.texts
  short : ∀ t ∈ p.texts, t.utf8ByteSize < lengthLimit
  addresses : ∀ t, d.addresses.lookup t = if t ∈ p.texts then some (p.address t) else none

namespace Data.Refines

variable {d : Data} {p : Pool}

theorem empty : Data.empty.Refines .empty := ⟨rfl,rfl,nofun,fun _ => rfl⟩

theorem heapBase (h : d.Refines p) : d.heapBase = p.heapBase := by
  rw [Data.heapBase,Pool.heapBase,h.blob,Pool.bytes_length]

theorem pages (h : d.Refines p) : d.pages = p.pages := by
  rw [Data.pages,Pool.pages,h.heapBase]

/-- A cell at the end is padded by the whole length, which comes to the padding of the cell alone. -/
theorem blob_concat (h : d.Refines p) (t : String) :
    let blob := d.blob ++ (le32 t.utf8ByteSize ++ t.toUTF8.toList)
    blob ++ List.replicate (align blob.length slotSize - blob.length) 0 = d.blob ++ cell t := by
  have hsize : d.blob.length % slotSize = 0 := by
    rw [h.blob,Pool.bytes_length]
    exact cellsSize_mod p.texts
  have hlength : (d.blob ++ (le32 t.utf8ByteSize ++ t.toUTF8.toList)).length =
      d.blob.length + (stringHeader + t.utf8ByteSize) := by
    rw [List.length_append,List.length_append,utf8_length]
    rfl
  have hpadding : align (d.blob.length + (stringHeader + t.utf8ByteSize)) slotSize -
      (d.blob.length + (stringHeader + t.utf8ByteSize)) = cellSize t - stringHeader - t.utf8ByteSize := by
    simp only [cellSize, align, slotSize] at *
    omega
  simp only [hlength, hpadding, cell, List.append_assoc]

theorem intern? (h : d.Refines p) (t : String) :
    (¬ t.utf8ByteSize < lengthLimit ∧ d.intern? t = none) ∨
      t.utf8ByteSize < lengthLimit ∧
        ∃ d', d.intern? t = some ((p.insert t).address t,d') ∧ d'.Refines (p.insert t) := by
  rw [Data.intern?,h.addresses,Pool.insert]
  by_cases hknown : t ∈ p.texts
  · rw [if_pos hknown,if_pos hknown]
    exact .inr ⟨h.short t hknown,d,rfl,h⟩
  rw [if_neg hknown,if_neg hknown]
  by_cases hshort : t.utf8ByteSize < lengthLimit
  · have haddress : dataBase + d.blob.length = Pool.address ⟨p.texts ++ [t]⟩ t := by
      rw [Pool.address_concat hknown,h.blob,Pool.bytes_length]
    simp only [if_pos hshort, haddress, h.blob_concat]
    refine .inr ⟨hshort,_,rfl,by simp [h.blob, Pool.bytes],congrArg (· ++ [t]) h.order,?_,fun u => ?_⟩
    · exact List.forall_mem_append.mpr ⟨h.short,by simpa using hshort⟩
    · rw [List.lookup_append,h.addresses]
      by_cases hu : u ∈ p.texts
      · have hkept := Pool.address_of_prefix (q := ⟨p.texts ++ [t]⟩) (List.prefix_append _ _) hu
        simp [hu, hkept]
      · by_cases hut : u = t
        · subst hut
          simp [hu]
        · have hother : (u == t) = false := beq_eq_false_iff_ne.mpr hut
          simp [hu, hut, List.lookup_cons, hother]
  · exact .inl ⟨hshort,if_neg hshort⟩

end Data.Refines

end Memory

namespace Lower

open Memory

theorem mapM_intern {ts : List String} (h : ∀ t ∈ ts, t.utf8ByteSize < lengthLimit) : ∃ addresses s,
    (ts.mapM intern).run ⟨.empty, #[]⟩ = .ok (addresses, s) ∧ Pool.Interned ts addresses s.pool := by
  induction ts using List.reverseRecOn with
  | nil => exact ⟨[],_,rfl,.empty⟩
  | append_singleton ts t ih =>
    obtain ⟨addresses,s,hrun,hpool⟩ := ih fun u hu => h u (List.mem_append_left _ hu)
    have hlast : (intern t).run s = _ := (intern_eq t s).trans (if_pos (h t (by simp)))
    refine ⟨addresses ++ [(s.pool.insert t).address t],{ s with pool := s.pool.insert t },?_,hpool.insert t⟩
    simp only [List.mapM_append, List.mapM_cons, List.mapM_nil, StateT.run_bind, hrun]
    simp only [bind, Except.bind, hlast]
    rfl

/-- The string literals of a module have a sound layout, whatever texts are asked for in whatever order. The
answers are the addresses that the texts have in the end; the texts are kept without repetition in the order of
their first appearance. -/
theorem interning_sound (ts : List String) (hsize : ∀ t ∈ ts, t.utf8ByteSize < 2 ^ 32) :
    ∃ addresses s, (ts.mapM intern).run ⟨.empty, #[]⟩ = .ok (addresses, s) ∧
      addresses = ts.map s.pool.address ∧ s.pool.texts.Nodup ∧ (∀ t, t ∈ s.pool.texts ↔ t ∈ ts) ∧
      s.pool.texts.Pairwise (fun t u => ts.idxOf t < ts.idxOf u) ∧ s.pool.Sound := by
  obtain ⟨addresses,s,hrun,hpool⟩ := mapM_intern hsize
  refine ⟨addresses,s,hrun,hpool.answers,hpool.order.imp fun hlt heq => ?_,hpool.members,hpool.order,
    Pool.sound fun t ht => hsize t ((hpool.members t).mp ht)⟩
  exact Nat.lt_irrefl _ (heq ▸ hlt)

theorem interning_sound_repeated : ∃ addresses s,
    (["hé", "", "hé", "contract"].mapM intern).run ⟨.empty, #[]⟩ = .ok (addresses, s) ∧
      addresses = [8, 16, 8, 24] ∧ s.pool.texts = ["hé", "", "contract"] ∧ s.pool.heapBase = 40 ∧
      s.pool.Sound := by
  obtain ⟨addresses,s,hrun,-,-,-,-,hsound⟩ := interning_sound ["hé", "", "hé", "contract"] (by decide)
  cases hrun
  exact ⟨_,_,rfl,by decide,by decide,by decide,hsound⟩

/-- Whatever texts are asked for, lowering and the growing data give the same addresses, and both fail at the first
text that is too long. -/
theorem intern_refines {d : Data} {s : State} (h : d.Refines s.pool) (ts : List String) :
    ((ts.mapM (m := StateT Data Option) fun t d => d.intern? t).run d = none ∧
        (ts.mapM intern).run s = .error .textTooLong) ∨
      ∃ addresses d' s', (ts.mapM (m := StateT Data Option) fun t d => d.intern? t).run d = some (addresses,d') ∧
        (ts.mapM intern).run s = .ok (addresses,s') ∧ d'.Refines s'.pool := by
  induction ts generalizing d s with
  | nil => exact .inr ⟨[],d,s,rfl,rfl,h⟩
  | cons t ts ih =>
    have hdata : StateT.run (fun d => d.intern? t : StateT Data Option Nat) d = d.intern? t := rfl
    have hlower : (intern t).run s = _ := intern_eq t s
    simp only [List.mapM_cons, StateT.run_bind, hdata, hlower]
    rcases h.intern? t with ⟨hlong,hnone⟩ | ⟨hshort,d',hsome,hd'⟩
    · rw [hnone,if_neg hlong]
      exact .inl ⟨rfl,rfl⟩
    · rw [hsome,if_pos hshort]
      simp only [bind, Option.bind, Except.bind]
      rcases ih (s := { s with pool := s.pool.insert t }) hd' with
        ⟨hnone,herror⟩ | ⟨addresses,d'',s',hall,hok,hs'⟩
      · rw [hnone,herror]
        exact .inl ⟨rfl,rfl⟩
      · rw [hall,hok]
        exact .inr ⟨_,d'',s',rfl,rfl,hs'⟩

end Lower

end Covenant
