import Covenant.Proofs.Wasm.Listing
import Covenant.Proofs.Wasm.Refusal

/-! # Modules cut short

A module that ends before its last byte can be read only if it ends between two sections. -/

namespace Covenant.Wasm

def Module.endOf (m : Module) (bodies : List (List UInt8)) (k : Nat) : Nat :=
  ((m.sectionsOf bodies).take k).flatten.length + 8

namespace Listing

variable {number : String → Option Nat}

/-- Some of the bytes of a list of texts: whole texts only, or a last one that is cut. -/
theorem take_flatten_cases (ss : List (List UInt8)) (i : Nat) (hi : i ≤ ss.flatten.length) :
    (∃ k ≤ ss.length, i = (ss.take k).flatten.length) ∨
    ∃ k front back, ss[k]? = some (front ++ back) ∧ front ≠ [] ∧ back ≠ [] ∧
      ss.flatten.take i = (ss.take k).flatten ++ front := by
  induction ss generalizing i with
  | nil => exact .inl ⟨0,Nat.le_refl 0,Nat.le_zero.mp hi⟩
  | cons s ss ih =>
    rw [List.flatten_cons,List.length_append] at hi
    rcases Nat.lt_or_ge i s.length with hlt | hge
    · rcases Nat.eq_zero_or_pos i with rfl | hpos
      · exact .inl ⟨0,Nat.zero_le _,rfl⟩
      · refine .inr ⟨0,s.take i,s.drop i,by simp,?_,?_,?_⟩
        · exact List.ne_nil_of_length_pos (by rw [List.length_take]; omega)
        · exact List.ne_nil_of_length_pos (by rw [List.length_drop]; omega)
        · rw [List.flatten_cons,List.take_append_of_le_length (Nat.le_of_lt hlt)]
          rfl
    · rcases ih (i - s.length) (by omega) with ⟨k,hk,hi⟩ | ⟨k,front,back,hget,hfront,hback,htake⟩
      · refine .inl ⟨k + 1,Nat.succ_le_succ hk,?_⟩
        rw [List.take_succ_cons,List.flatten_cons,List.length_append]
        omega
      · refine .inr ⟨k + 1,front,back,hget,hfront,hback,?_⟩
        rw [List.flatten_cons,List.take_append,List.take_of_length_le hge,htake,List.take_succ_cons,
          List.flatten_cons,List.append_assoc]

theorem take_flatten_length (ss : List (List UInt8)) (k : Nat) :
    ss.flatten.take (ss.take k).flatten.length = (ss.take k).flatten := by
  have hsplit : ss.flatten = (ss.take k).flatten ++ (ss.drop k).flatten := by
    rw [← List.flatten_append,List.take_append_drop]
  rw [hsplit,List.take_left]

theorem take_header (bs : List UInt8) (i : Nat) :
    (magic ++ (version ++ bs)).take (i + 8) = magic ++ (version ++ bs.take i) := rfl

theorem readUleb_append {bs rest : List UInt8} {n : Nat} (h : readUleb bs = .ok (n, rest)) (more : List UInt8) :
    readUleb (bs ++ more) = .ok (n, rest ++ more) := by
  induction bs generalizing n rest with
  | nil => cases h
  | cons b bs ih => grind [readUleb]

theorem cut_section {p : Progress} {id : UInt8} {payload front back : List UInt8} (fuel : Nat)
    (h : id :: (uleb payload.length ++ payload) = front ++ back) (hfront : front ≠ []) (hback : back ≠ []) :
    ∃ e, readSections (fuel + 1) p front = .error e ∧ e.isReported = true := by
  obtain ⟨id',front,rfl⟩ := List.exists_cons_of_ne_nil hfront
  obtain ⟨rfl,hsize⟩ := List.cons.inj (h.trans List.cons_append)
  rw [readSections]
  cases hread : readUleb front with
  | error f => exact ⟨_,rfl,rfl⟩
  | ok r =>
    obtain ⟨n,rest⟩ := r
    have hall := readUleb_append hread back
    rw [← hsize,readUleb_uleb] at hall
    cases hall
    have hshort : rest.length < (rest ++ back).length := by
      rw [List.length_append]
      exact Nat.lt_add_of_pos_right (List.length_pos_of_ne_nil hback)
    exact ⟨.sectionSize id,by simp only [if_pos hshort],rfl⟩

theorem sectionBytes_cases {m : Module} {bodies : List (List UInt8)} {s : List UInt8}
    (h : s ∈ m.sectionsOf bodies) : s = [] ∨ ∃ id payload, s = id :: (uleb payload.length ++ payload) := by
  have hsection (id : UInt8) (items : List (List UInt8)) :
      sectionBytes id items = [] ∨ ∃ id' payload, sectionBytes id items = id' :: (uleb payload.length ++ payload) := by
    rw [sectionBytes]
    split
    · exact .inl rfl
    · exact .inr ⟨id,_,rfl⟩
  simp only [Module.sectionsOf, List.mem_cons, List.not_mem_nil, or_false] at h
  rcases h with rfl | rfl | rfl | rfl | rfl | rfl | rfl | rfl <;> exact hsection _ _

theorem cut_sections (m : Module) (cs : List (Coded number)) (hcs : cs.map (·.function) = m.functions)
    {k : Nat} {front back : List UInt8} (h : (m.sectionsOf (cs.map Coded.bytes))[k]? = some (front ++ back))
    (hfront : front ≠ []) (hback : back ≠ []) :
    ∃ e, read (magic ++ (version ++ (((m.sectionsOf (cs.map Coded.bytes)).take k).flatten ++ front))) = .error e ∧
      e.isReported = true := by
  have hk : k < 8 := (List.getElem?_eq_some_iff.mp h).1
  obtain ⟨fuel,hfuel,hread⟩ := sections_advance m cs hcs (Nat.le_of_lt hk) front
    (magic ++ (version ++ (((m.sectionsOf (cs.map Coded.bytes)).take k).flatten ++ front))).length
    (by simp only [List.length_append]; omega)
  rw [read_header,hread]
  obtain ⟨fuel,rfl⟩ : ∃ n, fuel = n + 1 := by
    have := List.length_pos_of_ne_nil hfront
    exact ⟨fuel - 1,by omega⟩
  rcases sectionBytes_cases (List.mem_of_getElem? h) with hnil | ⟨id,payload,hpayload⟩
  · exact absurd (List.append_eq_nil_iff.mp hnil).1 hfront
  · exact cut_section fuel hpayload.symm hfront hback

theorem cut_header {bs : List UInt8} (h : bs.length < 8) : read bs = .error .header := by
  refine read_of_not_header fun hheader => ?_
  have := congrArg List.length hheader.2
  simp [version] at this
  omega

end Listing

open Listing in
/-- The first bytes of a module are read just if they end where a section does; then all that these sections say
is listed. Bytes that end anywhere else are refused. -/
theorem Module.cut_listed (m : Module) (number : String → Option Nat) (bs : List UInt8)
    (h : m.bytes? number = some bs) :
    ∃ bodies l, m.functions.mapM (Function.bytes? number) = some bodies ∧
      bs = magic ++ (version ++ (m.sectionsOf bodies).flatten) ∧ Listing.read bs = .ok l ∧
      ∀ i ≤ bs.length,
        (∀ k ≤ 8, i = m.endOf bodies k → Listing.read (bs.take i) = .ok (l.upTo k)) ∧
        ((∀ k ≤ 8, i ≠ m.endOf bodies k) → ∃ e, Listing.read (bs.take i) = .error e ∧ e.isReported = true) := by
  obtain ⟨cs,hcs,hbodies,hbytes⟩ := coded_of_bytes? h
  have hread := read_sections m cs hcs
  rw [← hbytes] at hread
  rw [← sectionsOf_flatten] at hbytes
  refine ⟨_,ofModule m cs,hbodies,hbytes,hread,fun i hi => ⟨?_,fun hcut => ?_⟩⟩
  · rintro k hk rfl
    rw [hbytes,Module.endOf,take_header,take_flatten_length]
    exact (sections_advance m cs hcs hk).read
  · rcases Nat.lt_or_ge i 8 with hlt | hge
    · exact ⟨.header,cut_header (by rw [List.length_take]; omega),rfl⟩
    · obtain ⟨i,rfl⟩ := Nat.exists_eq_add_of_le' hge
      have hfits : i ≤ (m.sectionsOf (cs.map Coded.bytes)).flatten.length := by
        simp only [hbytes, List.length_append] at hi
        exact Nat.le_of_add_le_add_right (hi.trans_eq (by simp only [magic, version, List.length]; omega))
      rcases take_flatten_cases _ i hfits with ⟨k,hk,rfl⟩ | ⟨k,front,back,hget,hfront,hback,htake⟩
      · exact absurd rfl (hcut k hk)
      · rw [hbytes,take_header,htake]
        exact cut_sections m cs hcs hget hfront hback

theorem Module.cut_listed_small : ∃ bs whole part, Module.small.bytes? (fun _ => some 200) = some bs ∧
    Listing.read bs = .ok whole ∧ Listing.read (bs.take 62) = .ok part ∧ part.exports = whole.exports ∧
    part.functions = [] ∧ ∃ e, Listing.read (bs.take 63) = .error e ∧ e.isReported = true := by
  obtain ⟨bodies,l,hbodies,-,hread,hcut⟩ := Module.cut_listed Module.small (fun _ => some 200) _ rfl
  obtain rfl := Option.some.inj hbodies
  refine ⟨_,l,l.upTo 6,rfl,hread,(hcut 62 (by decide +kernel)).1 6 (by decide) (by decide +kernel),rfl,rfl,?_⟩
  exact (hcut 63 (by decide +kernel)).2 (by decide +kernel)

end Covenant.Wasm
