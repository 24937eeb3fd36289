import Covenant.Proofs.Wasm.Decoding
import Covenant.Wasm.Listing
import Mathlib.Data.List.Basic
import Mathlib.Data.List.Flatten

/-! The listing of a module says what the module holds, and a module is determined by its bytes as far as
they can be seen: only names of routines are lost, once they are numbered. -/

namespace Covenant.Wasm

theorem toList_loop (bs : ByteArray) (i : Nat) (acc : List UInt8) :
    ByteArray.toList.loop bs i acc = acc.reverse ++ bs.data.toList.drop i := by
  fun_induction ByteArray.toList.loop bs i acc with
  | case1 i acc hlt ih =>
    have hlen : i < bs.data.toList.length := by simpa using hlt
    have hget : bs.get! i = bs.data.toList[i] := getElem!_pos bs.data i hlt
    rw [ih,List.drop_eq_getElem_cons hlen,hget]
    simp
  | case2 i acc hge =>
    have hlen : bs.data.toList.length ≤ i := by simpa using hge
    simp [List.drop_eq_nil_of_le hlen]

theorem toList_eq (bs : ByteArray) : bs.toList = bs.data.toList := toList_loop bs 0 []

theorem fromUTF8?_toUTF8 (s : String) : String.fromUTF8? ⟨s.toUTF8.toList.toArray⟩ = some s := by
  have hbytes : (⟨s.toUTF8.toList.toArray⟩ : ByteArray) = s.toByteArray := by
    rw [toList_eq,Array.toArray_toList]
    rfl
  rw [hbytes,String.fromUTF8?,dif_pos s.isValidUTF8]
  rfl

/-- A step reads exactly those bytes, whatever follows them. -/
def Reads {α : Type} (r : Read α) (bs : List UInt8) (a : α) : Prop :=
  ∀ (rest : List UInt8) (left : Int), bs.length ≤ left →
    r ⟨bs ++ rest, left⟩ = .ok (a, ⟨rest, left - bs.length⟩)

variable {xs ys : List UInt8}

namespace Reads

variable {α β : Type}

theorem pure (a : α) : Reads (Pure.pure a) [] a := by
  intro rest left _
  exact congrArg (fun n => Except.ok (a, (⟨rest, n⟩ : Cursor))) (Int.sub_zero left).symm

theorem bind {r : Read α} {f : α → Read β} {a : α} {b : β} (h : Reads r xs a)
    (h' : Reads (f a) ys b) : Reads (r >>= f) (xs ++ ys) b := by
  intro rest left hleft
  rw [List.length_append] at hleft
  have hfirst := h (ys ++ rest) left (by omega)
  have hsecond := h' rest (left - xs.length) (by omega)
  show (r ⟨xs ++ ys ++ rest, left⟩ >>= fun p => f p.1 p.2) = _
  rw [List.append_assoc,hfirst]
  show f a ⟨ys ++ rest, left - xs.length⟩ = _
  rw [hsecond,List.length_append]
  congr 3
  omega

theorem andThen {r : Read α} {f : α → Read β} {a : α} {b : β} (h : Reads r xs a)
    (h' : f a = Pure.pure b) : Reads (r >>= f) xs b := by
  have hdone : Reads (f a) [] b := by
    rw [h']
    exact pure b
  have hbind := h.bind hdone
  rwa [List.append_nil] at hbind

theorem map {r : Read α} {f : α → β} {a : α} (h : Reads r xs a) : Reads (do return f (← r)) xs (f a) :=
  h.andThen rfl

theorem byte (b : UInt8) : Reads Read.byte [b] b := by
  intro rest left hleft
  have hpos : ¬ left ≤ 0 := by
    simp only [List.length_singleton] at hleft
    omega
  simp [Read.byte, hpos]

theorem nat (n : Nat) : Reads Read.nat (uleb n) n := by
  intro rest left _
  simp [Read.nat, Read.leb, readUleb_uleb]

theorem int (n : Int) : Reads Read.int (sleb n) n := by
  intro rest left _
  simp [Read.int, Read.leb, readSleb_sleb]

theorem raw (bs : List UInt8) : Reads (Read.raw bs.length) bs bs := by
  intro rest left hleft
  simp [Read.raw, Int.not_lt.mpr hleft]

theorem times {γ : Type} {item : Read β} {encode : γ → List UInt8} {f : γ → β} (xs : List γ)
    (h : ∀ x ∈ xs, Reads item (encode x) (f x)) :
    Reads (Read.times item xs.length) (xs.map encode).flatten (xs.map f) := by
  induction xs with
  | nil => exact pure []
  | cons x xs ih =>
    have hx := h x List.mem_cons_self
    have hxs := ih fun y hy => h y (List.mem_cons_of_mem x hy)
    exact hx.bind hxs.map

theorem vec {γ : Type} {item : Read β} {encode : γ → List UInt8} {f : γ → β} (xs : List γ)
    (h : ∀ x ∈ xs, Reads item (encode x) (f x)) :
    Reads (Read.vec item) (vector (xs.map encode)) (xs.map f) := by
  have hcount := nat xs.length
  rw [vector,List.length_map]
  exact hcount.bind (times xs h)

theorem name (s : String) : Reads Read.name (nameBytes s) s := by
  refine (nat _).bind ((raw s.toUTF8.toList).andThen ?_)
  rw [fromUTF8?_toUTF8]

theorem valType (t : ValType) : Reads Read.valType [t.byte] t := by
  refine (byte t.byte).andThen ?_
  rw [ValType.ofByte?_byte]

theorem const (t : ValType) (v : Int) : Reads Read.const (constBytes t v) v := by
  have hend : Reads (do
      let v ← Read.int
      let e ← Read.byte
      if e = endByte then Pure.pure v else Read.fail .constEnd) (sleb v ++ [endByte]) v :=
    (int v).bind ((byte endByte).andThen rfl)
  cases t <;> exact (byte _).bind hend

end Reads

def FuncType.entry (t : FuncType) : TypeEntry := ⟨t.params.map ValType.byte, t.results.map ValType.byte⟩

/-- The sections of a module with the bytes of its bodies. One without items has no bytes. -/
def Module.sectionsOf (m : Module) (bodies : List (List UInt8)) : List (List UInt8) :=
  [sectionBytes 1 (m.types.map FuncType.bytes), sectionBytes 2 (m.imports.map Import.bytes),
    sectionBytes 3 (m.functions.map fun f => uleb f.type), sectionBytes 5 (m.memory.toList.map Limits.bytes),
    sectionBytes 6 (m.globals.map Global.bytes), sectionBytes 7 (m.exports.map Export.bytes),
    sectionBytes 10 bodies, sectionBytes 11 (m.segments.map Segment.bytes)]

namespace Listing

theorem flatten_singletons (bs : List UInt8) : (bs.map fun b => [b]).flatten = bs := by
  induction bs with
  | nil => rfl
  | cons b bs ih => simpa using ih

theorem bytes_reads (bs : List UInt8) : Reads (Read.vec Read.byte) (uleb bs.length ++ bs) bs := by
  have hvec := Reads.vec (f := id) bs fun b _ => Reads.byte b
  rw [vector,List.length_map,List.map_id,flatten_singletons] at hvec
  exact hvec

theorem type_reads (t : FuncType) : Reads readType t.bytes t.entry := by
  have hparams := bytes_reads (t.params.map ValType.byte)
  have hresults := bytes_reads (t.results.map ValType.byte)
  have hsplit : t.bytes = [0x60] ++ ((uleb (t.params.map ValType.byte).length ++ t.params.map ValType.byte) ++
      (uleb (t.results.map ValType.byte).length ++ t.results.map ValType.byte)) := by
    simp [FuncType.bytes]
  rw [hsplit]
  exact (Reads.byte 0x60).bind (hparams.bind hresults.map)

theorem import_reads (i : Import) : Reads readImport i.bytes i := by
  rw [Import.bytes,List.append_assoc,List.append_assoc]
  exact (Reads.name i.module).bind ((Reads.name i.name).bind
    ((Reads.byte functionKind).bind (Reads.nat i.type).map))

theorem memory_reads (l : Limits) : Reads readMemory (vector [l.bytes]) ⟨l.min, some l.max⟩ := by
  have hsplit : vector [l.bytes] = uleb 1 ++ ([0x01] ++ (uleb l.min ++ uleb l.max)) := by
    simp [vector, Limits.bytes]
  rw [hsplit]
  exact (Reads.nat 1).bind ((Reads.byte 0x01).bind ((Reads.nat l.min).bind (Reads.nat l.max).map))

theorem global_reads (g : Global) : Reads readGlobal g.bytes g := by
  obtain ⟨type,isMutable,init⟩ := g
  cases isMutable <;>
    exact (Reads.valType type).bind ((Reads.byte _).bind (Reads.const type init).map)

theorem export_reads (e : Export) : Reads readExport e.bytes e := by
  rw [Export.bytes,List.append_assoc]
  exact (Reads.name e.name).bind ((Reads.byte e.kind).bind (Reads.nat e.index).map)

theorem run_reads (r : Nat × ValType) : Reads readRun (runBytes r) r :=
  (Reads.nat r.1).bind (Reads.valType r.2).map

theorem segment_reads (s : Segment) : Reads readSegment s.bytes s := by
  have hflag : uleb 0 = [0x00] := by rw [uleb]; rfl
  have hsplit : s.bytes =
      uleb 0 ++ (constBytes .i32 s.offset ++ (uleb s.content.length ++ s.content)) := by
    simp [Segment.bytes, hflag]
  rw [hsplit]
  exact (Reads.nat 0).bind ((Reads.const .i32 s.offset).bind
    ((Reads.nat s.content.length).bind (Reads.raw s.content).map))

theorem body_reads (f : Function) (code : List UInt8) :
    Reads readBody (uleb (f.content code).length ++ f.content code)
      ((f.content code).length, runs f.locals) := by
  refine (Reads.nat _).bind fun rest left hleft => ?_
  have hruns := Reads.vec (f := id) (runs f.locals) (fun r _ => run_reads r) (code ++ [endByte] ++ rest)
    (f.content code).length (by simp only [Function.content, List.length_append]; omega)
  have hsplit : f.content code ++ rest =
      vector ((runs f.locals).map runBytes) ++ (code ++ [endByte] ++ rest) := by
    simp [Function.content]
  simp only [hsplit, hruns, List.map_id]
  rw [← hsplit,List.drop_left]

structure Coded (number : String → Option Nat) where
  function : Function
  code : List UInt8
  resolved : function.code.bytes? number = some code

variable {number number' : String → Option Nat}

namespace Coded

def body (c : Coded number) : List UInt8 := c.function.content c.code

def bytes (c : Coded number) : List UInt8 := uleb c.body.length ++ c.body

theorem bytes?_function (c : Coded number) : c.function.bytes? number = some c.bytes := by
  rw [Function.bytes?,c.resolved]
  rfl

end Coded

def entries : Nat → List (Coded number) → List FunctionEntry
  | _, [] => []
  | index, c :: cs =>
    ⟨index, c.function.type, runs c.function.locals, c.body.length⟩ :: entries (index + 1) cs

theorem bodies_read (index : Nat) (cs : List (Coded number)) :
    Reads (readBodies index (cs.map (·.function.type))) (cs.map Coded.bytes).flatten (entries index cs) := by
  induction cs generalizing index with
  | nil => exact Reads.pure []
  | cons c cs ih => exact (body_reads c.function c.code).bind (ih (index + 1)).map

/-- Reading goes on behind some sections with more than before. The fuel is never used up, since a section
takes at least one byte. -/
def Advances (p : Progress) (bs : List UInt8) (q : Progress) : Prop :=
  ∀ (rest : List UInt8) (fuel : Nat), (bs ++ rest).length ≤ fuel →
    ∃ fuel', rest.length ≤ fuel' ∧ readSections fuel p (bs ++ rest) = readSections fuel' q rest

theorem Advances.nil (p : Progress) : Advances p [] p := fun _ fuel h => ⟨fuel,h,rfl⟩

variable {p : Progress}

theorem Advances.append {q r : Progress} (h : Advances p xs q)
    (h' : Advances q ys r) : Advances p (xs ++ ys) r := by
  intro rest fuel hfuel
  rw [List.append_assoc] at hfuel ⊢
  obtain ⟨fuel₁,hfuel₁,hread₁⟩ := h (ys ++ rest) fuel hfuel
  obtain ⟨fuel₂,hfuel₂,hread₂⟩ := h' rest fuel₁ hfuel₁
  exact ⟨fuel₂,hfuel₂,hread₁.trans hread₂⟩

theorem section_advances {q : Progress} (id : UInt8) {payload : List UInt8}
    (h : Reads (readSection p id) payload q) : Advances p (id :: (uleb payload.length ++ payload)) q := by
  intro rest fuel hfuel
  simp only [List.cons_append, List.length_cons, List.length_append] at hfuel
  obtain ⟨fuel,rfl⟩ : ∃ n, fuel = n + 1 := ⟨fuel - 1,by omega⟩
  refine ⟨fuel,by omega,?_⟩
  have hread := h rest payload.length (Int.le_refl _)
  have hsize : ¬ (payload ++ rest).length < payload.length := by simp
  rw [List.cons_append,readSections,List.append_assoc,readUleb_uleb]
  simp only [if_neg hsize, hread, List.drop_left]

theorem items_advance {α β : Type} {item : Read β} {encode : α → List UInt8} {f : α → β}
    (id : UInt8) (add : List β → Progress) (xs : List α)
    (hsection : readSection p id = do return add (← Read.vec item)) (hnil : add [] = p)
    (h : ∀ x, Reads item (encode x) (f x)) :
    Advances p (sectionBytes id (xs.map encode)) (add (xs.map f)) := by
  cases xs with
  | nil =>
    rw [List.map_nil,List.map_nil,hnil]
    exact .nil p
  | cons x xs =>
    have hvec : Reads (readSection p id) (vector ((x :: xs).map encode)) (add ((x :: xs).map f)) := by
      rw [hsection]
      exact (Reads.vec (x :: xs) fun y _ => h y).map
    exact section_advances id hvec

theorem memory_advances (hp : p.listing.memory = none) (limits : Option Limits) :
    Advances p (sectionBytes 5 (limits.toList.map Limits.bytes))
      { p with listing := { p.listing with memory := limits.map fun l => ⟨l.min, some l.max⟩ } } := by
  cases limits with
  | none =>
    rw [Option.map_none,← hp]
    exact .nil p
  | some l => exact section_advances 5 (memory_reads l).map

theorem code_advances (hp : p.listing.functions = []) (cs : List (Coded number))
    (hcs : p.declared = cs.map (·.function.type)) : Advances p (sectionBytes 10 (cs.map Coded.bytes))
      { p with listing := { p.listing with functions := entries p.listing.imports.length cs } } := by
  cases cs with
  | nil =>
    rw [entries,← hp]
    exact .nil p
  | cons c cs =>
    have hcount : (c :: cs).length = p.declared.length := by rw [hcs,List.length_map]
    have hbodies := bodies_read p.listing.imports.length (c :: cs)
    have hread : Reads (readSection p 10) (vector ((c :: cs).map Coded.bytes))
        { p with listing := { p.listing with
            functions := p.listing.functions ++ entries p.listing.imports.length (c :: cs) } } := by
      rw [vector,List.length_map]
      refine (Reads.nat _).bind ?_
      rw [if_pos hcount,hcs]
      exact hbodies.map
    rw [hp] at hread
    exact section_advances 10 hread

def ofModule (m : Module) (cs : List (Coded number)) : Listing where
  types := m.types.map FuncType.entry
  imports := m.imports
  functions := entries m.imports.length cs
  memory := m.memory.map fun l => ⟨l.min, some l.max⟩
  globals := m.globals
  exports := m.exports
  segments := m.segments

def sections (m : Module) (cs : List (Coded number)) : List UInt8 :=
  sectionBytes 1 (m.types.map FuncType.bytes) ++
    (sectionBytes 2 (m.imports.map Import.bytes) ++
    (sectionBytes 3 (m.functions.map fun f => uleb f.type) ++
    (sectionBytes 5 (m.memory.toList.map Limits.bytes) ++
    (sectionBytes 6 (m.globals.map Global.bytes) ++
    (sectionBytes 7 (m.exports.map Export.bytes) ++
    (sectionBytes 10 (cs.map Coded.bytes) ++
    sectionBytes 11 (m.segments.map Segment.bytes)))))))

theorem sectionsOf_flatten (m : Module) (cs : List (Coded number)) :
    (m.sectionsOf (cs.map Coded.bytes)).flatten = sections m cs := by
  simp [Module.sectionsOf, sections]

def upTo (l : Listing) (k : Nat) : Listing where
  types := if 1 ≤ k then l.types else []
  imports := if 2 ≤ k then l.imports else []
  memory := if 4 ≤ k then l.memory else none
  globals := if 5 ≤ k then l.globals else []
  exports := if 6 ≤ k then l.exports else []
  functions := if 7 ≤ k then l.functions else []
  segments := if 8 ≤ k then l.segments else []

/-- The third section declares the functions. -/
def readUpTo (m : Module) (cs : List (Coded number)) (k : Nat) : Progress :=
  ⟨(ofModule m cs).upTo k, if 3 ≤ k then m.functions.map (·.type) else []⟩

theorem section_advance (m : Module) (cs : List (Coded number)) (hcs : cs.map (·.function) = m.functions) :
    ∀ k s, (m.sectionsOf (cs.map Coded.bytes))[k]? = some s →
      Advances (readUpTo m cs k) s (readUpTo m cs (k + 1))
  | 0, _, h => by
    cases h
    exact items_advance 1 (fun ts => ⟨⟨ts, [], [], none, [], [], []⟩, []⟩) m.types rfl rfl type_reads
  | 1, _, h => by
    cases h
    have hadvance := items_advance 2 (fun is => ⟨⟨m.types.map FuncType.entry, is, [], none, [], [], []⟩, []⟩)
      m.imports rfl rfl import_reads
    rwa [List.map_id'] at hadvance
  | 2, _, h => by
    cases h
    exact items_advance 3 (fun ts => ⟨⟨m.types.map FuncType.entry, m.imports, [], none, [], [], []⟩, ts⟩)
      m.functions rfl rfl fun f => Reads.nat f.type
  | 3, _, h => by
    cases h
    exact memory_advances (p := readUpTo m cs 3) rfl m.memory
  | 4, _, h => by
    cases h
    have hadvance := items_advance 6 (fun gs => { readUpTo m cs 4 with listing.globals := gs }) m.globals rfl rfl
      global_reads
    rwa [List.map_id'] at hadvance
  | 5, _, h => by
    cases h
    have hadvance := items_advance 7 (fun es => { readUpTo m cs 5 with listing.exports := es }) m.exports rfl rfl
      export_reads
    rwa [List.map_id'] at hadvance
  | 6, _, h => by
    cases h
    refine code_advances (p := readUpTo m cs 6) rfl cs ?_
    rw [readUpTo,← hcs,List.map_map]
    rfl
  | 7, _, h => by
    cases h
    have hadvance := items_advance 11 (fun ss => { readUpTo m cs 7 with listing.segments := ss }) m.segments rfl rfl
      segment_reads
    rwa [List.map_id'] at hadvance

theorem sections_advance (m : Module) (cs : List (Coded number)) (hcs : cs.map (·.function) = m.functions)
    {k : Nat} (hk : k ≤ 8) :
    Advances ⟨empty, []⟩ ((m.sectionsOf (cs.map Coded.bytes)).take k).flatten (readUpTo m cs k) := by
  induction k with
  | zero => exact .nil _
  | succ k ih =>
    have hget := List.getElem?_eq_getElem (l := m.sectionsOf (cs.map Coded.bytes)) hk
    rw [List.take_add_one,hget,List.flatten_append,Option.toList_some,List.flatten_singleton]
    exact (ih (Nat.le_of_succ_le hk)).append (section_advance m cs hcs k _ hget)

theorem mapM_coded {fs : List Function} {bodies : List (List UInt8)}
    (h : fs.mapM (Function.bytes? number) = some bodies) :
    ∃ cs : List (Coded number), cs.map (·.function) = fs ∧ cs.map Coded.bytes = bodies := by
  induction fs generalizing bodies with
  | nil =>
    cases h
    exact ⟨[],rfl,rfl⟩
  | cons f fs ih =>
    rw [List.mapM_cons] at h
    obtain ⟨b,hb,hrest⟩ := Option.bind_eq_some_iff.mp h
    obtain ⟨bs,hbs,hall⟩ := Option.bind_eq_some_iff.mp hrest
    obtain ⟨code,hcode,rfl⟩ := Option.map_eq_some_iff.mp hb
    obtain ⟨cs,rfl,rfl⟩ := ih hbs
    cases hall
    exact ⟨⟨f,code,hcode⟩ :: cs,rfl,rfl⟩

theorem coded_of_bytes? {m : Module} {bs : List UInt8} (h : m.bytes? number = some bs) :
    ∃ cs : List (Coded number), cs.map (·.function) = m.functions ∧
      m.functions.mapM (Function.bytes? number) = some (cs.map Coded.bytes) ∧
      bs = magic ++ (version ++ sections m cs) := by
  obtain ⟨bodies,hbodies,rfl⟩ := Option.map_eq_some_iff.mp h
  obtain ⟨cs,hcs,rfl⟩ := mapM_coded hbodies
  exact ⟨cs,hcs,hbodies,by simp only [sections, List.append_assoc]⟩

theorem read_header (bs : List UInt8) :
    read (magic ++ (version ++ bs)) =
      readSections (magic ++ (version ++ bs)).length ⟨empty, []⟩ bs := rfl

theorem Advances.read {bs : List UInt8} (h : Advances ⟨empty, []⟩ bs p) :
    Listing.read (magic ++ (version ++ bs)) = .ok p.listing := by
  obtain ⟨fuel,-,hread⟩ := h [] (magic ++ (version ++ bs)).length
    (by simp only [List.length_append, List.length_nil]; omega)
  rw [List.append_nil] at hread
  rw [read_header,hread]
  cases fuel <;> rfl

theorem read_sections (m : Module) (cs : List (Coded number)) (hcs : cs.map (·.function) = m.functions) :
    read (magic ++ (version ++ sections m cs)) = .ok (ofModule m cs) := by
  have hadvance := sections_advance m cs hcs (Nat.le_refl 8)
  rw [List.take_of_length_le (Nat.le_refl 8),sectionsOf_flatten] at hadvance
  exact hadvance.read

theorem runs_positive (ts : List ValType) : ∀ r ∈ runs ts, 0 < r.1 := by
  induction ts with
  | nil => nofun
  | cons t ts ih =>
    rw [runs]
    split
    · rename_i n u rest hr
      rw [hr] at ih
      split
      · intro r hr
        rcases List.mem_cons.mp hr with rfl | hr
        · exact Nat.succ_pos n
        · exact ih r (List.mem_cons_of_mem _ hr)
      · intro r hr
        rcases List.mem_cons.mp hr with rfl | hr
        · exact Nat.one_pos
        · exact ih r hr
    · simp

theorem runs_isChain (ts : List ValType) : (runs ts).IsChain fun r s => r.2 ≠ s.2 := by
  induction ts with
  | nil => exact .nil
  | cons t ts ih =>
    rw [runs]
    split
    · rename_i n u rest hr
      rw [hr] at ih
      split
      · cases rest with
        | nil => exact .singleton _
        | cons s rest => simpa using ih
      · rename_i hne
        exact .cons_cons hne ih
    · exact .singleton _

theorem readUleb_cancel {n n' : Nat} (h : uleb n ++ xs = uleb n' ++ ys) : n = n' ∧ xs = ys := by
  have hread := congrArg readUleb h
  rw [readUleb_uleb,readUleb_uleb] at hread
  cases hread
  exact ⟨rfl,rfl⟩

theorem vector_of_sectionBytes {id : UInt8} {xs ys : List (List UInt8)}
    (h : sectionBytes id xs = sectionBytes id ys) : vector xs = vector ys := by
  rw [sectionBytes,sectionBytes] at h
  by_cases hx : xs.isEmpty = true <;> by_cases hy : ys.isEmpty = true
  · rw [List.isEmpty_iff.mp hx,List.isEmpty_iff.mp hy]
  · simp [hx, hy] at h
  · simp [hx, hy] at h
  · rw [if_neg hx,if_neg hy] at h
    exact (readUleb_cancel (List.cons.inj h).2).2

variable {cs : List (Coded number)} {ds : List (Coded number')} {i : Nat}

theorem lengths_of_entries
    (h : entries i cs = entries i ds) :
    (cs.map Coded.bytes).map List.length = (ds.map Coded.bytes).map List.length := by
  induction cs generalizing ds i with
  | nil => cases ds with
    | nil => rfl
    | cons d ds => cases h
  | cons c cs ih => cases ds with
    | nil => cases h
    | cons d ds =>
      obtain ⟨hhead,htail⟩ := List.cons.inj h
      have hsize : c.body.length = d.body.length := (FunctionEntry.mk.inj hhead).2.2.2
      simp [Coded.bytes, hsize, ih htail]

/-- Two functions that cannot be told apart by their bytes. -/
def SameBytes (number number' : String → Option Nat) (f g : Function) : Prop :=
  g.type = f.type ∧ g.locals = f.locals ∧ g.code.bytes? number' = f.code.bytes? number

theorem same_of_bytes
    (hentries : entries i cs = entries i ds) (hbytes : cs.map Coded.bytes = ds.map Coded.bytes) :
    List.Forall₂ (SameBytes number number') (cs.map (·.function)) (ds.map (·.function)) := by
  induction cs generalizing ds i with
  | nil => cases ds with
    | nil => exact .nil
    | cons d ds => cases hentries
  | cons c cs ih => cases ds with
    | nil => cases hentries
    | cons d ds =>
      obtain ⟨hhead,htail⟩ := List.cons.inj hentries
      obtain ⟨hbody,hbodies⟩ := List.cons.inj hbytes
      obtain ⟨-,htype,hruns,-⟩ := FunctionEntry.mk.inj hhead
      have hlocals : c.function.locals = d.function.locals := by
        rw [← runs_flatMap c.function.locals,hruns,runs_flatMap]
      have hcode : c.code = d.code := by
        have hcontent := (readUleb_cancel hbody).2
        simpa [Coded.body, Function.content, hlocals] using hcontent
      refine .cons ⟨htype.symm,hlocals.symm,?_⟩ (ih htail hbodies)
      rw [c.resolved,d.resolved,hcode]

theorem entry_injective : Function.Injective FuncType.entry := by
  have hbyte : Function.Injective ValType.byte := by
    intro t u h
    cases t <;> cases u <;> first | rfl | cases h
  rintro ⟨ps,rs⟩ ⟨qs,ss⟩ h
  obtain ⟨hparams,hresults⟩ := TypeEntry.mk.inj h
  have hps : ps = qs := hbyte.list_map hparams
  have hrs : rs = ss := hbyte.list_map hresults
  rw [hps,hrs]

theorem limits_injective :
    Function.Injective (Option.map fun l : Limits => (⟨l.min, some l.max⟩ : MemoryEntry)) := by
  refine Option.map_injective ?_
  rintro ⟨a,b⟩ ⟨c,d⟩ h
  cases h
  rfl

theorem entries_types (index : Nat) (cs : List (Coded number)) :
    (entries index cs).map (fun e => uleb e.type) = cs.map fun c => uleb c.function.type := by
  induction cs generalizing index with
  | nil => rfl
  | cons c cs ih => simp [entries, ih]

theorem code_of_sections {m m' : Module}
    (hcs : cs.map (·.function) = m.functions) (hds : ds.map (·.function) = m'.functions)
    (hlisting : ofModule m cs = ofModule m' ds) (hsections : sections m cs = sections m' ds) :
    cs.map Coded.bytes = ds.map Coded.bytes := by
  obtain ⟨htypes,himports,hfunctions,hmemory,hglobals,hexports,hsegments⟩ := Listing.mk.inj hlisting
  rw [himports] at hfunctions
  have hdeclared : m.functions.map (fun f => uleb f.type) = m'.functions.map (fun f => uleb f.type) := by
    have htypes := congrArg (List.map fun e : FunctionEntry => uleb e.type) hfunctions
    rw [entries_types,entries_types] at htypes
    simpa [← hcs, ← hds, Function.comp_def] using htypes
  rw [sections,sections,entry_injective.list_map htypes,himports,hdeclared,limits_injective hmemory,hglobals,
    hexports,hsegments] at hsections
  simp only [List.append_cancel_left_eq, List.append_cancel_right_eq] at hsections
  obtain ⟨-,hflat⟩ := readUleb_cancel (vector_of_sectionBytes hsections)
  exact List.eq_iff_flatten_eq.mpr ⟨hflat,lengths_of_entries hfunctions⟩

theorem entries_getElem? {index : Nat} {e : FunctionEntry}
    (h : (entries index cs)[i]? = some e) : ∃ c, cs[i]? = some c ∧
      e = ⟨index + i, c.function.type, runs c.function.locals, c.body.length⟩ := by
  induction cs generalizing i index with
  | nil => cases h
  | cons c cs ih => cases i with
    | zero =>
      cases h
      exact ⟨c,rfl,rfl⟩
    | succ i =>
      obtain ⟨d,hd,rfl⟩ := ih h
      exact ⟨d,hd,by rw [Nat.add_right_comm,Nat.add_assoc]⟩

theorem entries_length (index : Nat) (cs : List (Coded number)) : (entries index cs).length = cs.length := by
  induction cs generalizing index with
  | nil => rfl
  | cons c cs ih => simp [entries, ih]

end Listing

theorem Code.bytes?_of_routines {number : String → Option Nat} (code : Code)
    (h : ∀ n ∈ code.routines, (number n).isSome = true) : ∃ bs, code.bytes? number = some bs := by
  induction code with
  | nil => exact ⟨[],rfl⟩
  | cons p ps ih =>
    have hps : ∀ n ∈ Code.routines ps, (number n).isSome = true := by
      intro n hn
      exact h n (((List.sublist_cons_self p ps).filterMap _).subset hn)
    have hp : ∃ b, p.bytes? number = some b := by
      cases p with
      | routine n =>
        obtain ⟨i,hi⟩ := Option.isSome_iff_exists.mp (h n (by simp [Code.routines]))
        exact ⟨_,by rw [Piece.bytes?,hi]; rfl⟩
      | _ => exact ⟨_,rfl⟩
    obtain ⟨b,hb⟩ := hp
    obtain ⟨bs,hbs⟩ := ih hps
    exact ⟨b ++ bs,by rw [Code.bytes?,hb,hbs]; rfl⟩

theorem Module.bytes?_of_routines {number : String → Option Nat} (m : Module)
    (h : ∀ f ∈ m.functions, ∀ n ∈ f.code.routines, (number n).isSome = true) :
    ∃ bs, m.bytes? number = some bs := by
  have hbodies (fs : List Function) (hfs : ∀ f ∈ fs, f ∈ m.functions) :
      ∃ bodies, fs.mapM (Function.bytes? number) = some bodies := by
    induction fs with
    | nil => exact ⟨[],rfl⟩
    | cons f fs ih =>
      obtain ⟨code,hcode⟩ := Code.bytes?_of_routines f.code (h f (hfs f List.mem_cons_self))
      obtain ⟨bodies,hrest⟩ := ih fun g hg => hfs g (List.mem_cons_of_mem f hg)
      exact ⟨_,by rw [List.mapM_cons,Function.bytes?,hcode,hrest]; rfl⟩
  obtain ⟨bodies,hall⟩ := hbodies m.functions fun f hf => hf
  exact ⟨_,by rw [Module.bytes?,hall]; rfl⟩

open Listing in
/-- A module whose routines have numbers can be read back from its bytes: the listing has its types,
imports, memory, globals, exports and segments in order, and each function with its number, its type, its
locals in runs and the size of its body. Modules with the same bytes agree in all of this and in the bytes
of their code. -/
theorem Module.bytes_listed (m : Module) (number : String → Option Nat)
    (h : ∀ f ∈ m.functions, ∀ n ∈ f.code.routines, (number n).isSome = true) :
    ∃ bs l, m.bytes? number = some bs ∧ Listing.read bs = .ok l ∧
      l.types = m.types.map FuncType.entry ∧ l.imports = m.imports ∧
      l.memory = m.memory.map (fun k => ⟨k.min, some k.max⟩) ∧ l.globals = m.globals ∧
      l.exports = m.exports ∧ l.segments = m.segments ∧ l.functions.length = m.functions.length ∧
      (∀ i f e, m.functions[i]? = some f → l.functions[i]? = some e →
        e.index = m.imports.length + i ∧ e.type = f.type ∧
        e.locals.flatMap (fun r => List.replicate r.1 r.2) = f.locals ∧ (∀ r ∈ e.locals, 0 < r.1) ∧
        e.locals.IsChain (fun r s => r.2 ≠ s.2) ∧
        ∃ body, f.bytes? number = some (uleb e.size ++ body) ∧ body.length = e.size) ∧
      ∀ m' number', Module.bytes? number' m' = some bs →
        m'.types = m.types ∧ m'.imports = m.imports ∧ m'.memory = m.memory ∧ m'.globals = m.globals ∧
        m'.exports = m.exports ∧ m'.segments = m.segments ∧
        List.Forall₂ (fun f g => g.type = f.type ∧ g.locals = f.locals ∧
          g.code.bytes? number' = f.code.bytes? number) m.functions m'.functions := by
  obtain ⟨bs,hbs⟩ := m.bytes?_of_routines h
  obtain ⟨cs,hcs,-,rfl⟩ := coded_of_bytes? hbs
  have hread := read_sections m cs hcs
  refine ⟨_,ofModule m cs,hbs,hread,rfl,rfl,rfl,rfl,rfl,rfl,?_,?_,?_⟩
  · rw [← hcs,List.length_map]
    exact entries_length _ cs
  · intro i f e hf he
    obtain ⟨c,hc,rfl⟩ := entries_getElem? he
    have hfc : c.function = f := by
      rw [← hcs,List.getElem?_map,hc] at hf
      exact Option.some.inj hf
    subst hfc
    exact ⟨rfl,rfl,runs_flatMap _,runs_positive _,runs_isChain _,c.body,c.bytes?_function,rfl⟩
  · intro m' number' hbs'
    obtain ⟨ds,hds,-,hbytes⟩ := coded_of_bytes? hbs'
    have hread' := read_sections m' ds hds
    rw [← hbytes,hread] at hread'
    have hlisting : ofModule m cs = ofModule m' ds := Except.ok.inj hread'
    have hsections : sections m cs = sections m' ds :=
      List.append_cancel_left (List.append_cancel_left hbytes)
    have hcode := code_of_sections hcs hds hlisting hsections
    obtain ⟨htypes,himports,hfunctions,hmemory,hglobals,hexports,hsegments⟩ := Listing.mk.inj hlisting
    refine ⟨(entry_injective.list_map htypes).symm,himports.symm,(limits_injective hmemory).symm,
      hglobals.symm,hexports.symm,hsegments.symm,?_⟩
    rw [himports] at hfunctions
    have hsame := same_of_bytes hfunctions hcode
    rwa [hcs,hds] at hsame

/-- A module with something in every section. -/
def Module.small : Module where
  types := [⟨[.i32, .i64], [.i64]⟩]
  imports := [⟨"env", "log", 0⟩]
  functions := [⟨0, [.i32, .i32, .i64], [.routine "alloc", .op .drop]⟩]
  memory := some ⟨1, 16⟩
  globals := [⟨.i64, true, -300⟩]
  exports := [⟨"größe", functionKind, 1⟩]
  segments := [⟨1024, [1, 2, 255]⟩]

theorem Module.bytes_listed_small : ∃ bs l, Module.small.bytes? (fun _ => some 200) = some bs ∧
    Listing.read bs = .ok l ∧ l.globals = [⟨.i64, true, -300⟩] ∧ l.exports = [⟨"größe", functionKind, 1⟩] ∧
    ∀ number, Module.bytes? number { small with segments := [] } ≠ some bs := by
  obtain ⟨bs,l,hbytes,hread,-,-,-,hglobals,hexports,-,-,-,hsame⟩ :=
    Module.bytes_listed Module.small (fun _ => some 200) fun _ _ _ _ => rfl
  refine ⟨bs,l,hbytes,hread,hglobals,hexports,fun number hother => ?_⟩
  obtain ⟨-,-,-,-,-,hsegments,-⟩ := hsame _ _ hother
  cases hsegments

end Covenant.Wasm
