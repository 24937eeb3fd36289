import Covenant.Proofs.Lower.Outcome
import Covenant.Proofs.Memory.Pool

/-! String literals in the memory of a module. Addresses go into the code while the pool still grows; in
the end each of them is that of its text. -/

namespace Covenant

open Wasm Memory Lower

theorem getElem?_of_forall₂ {α β : Type} {R : α → β → Prop} {xs : List α} {ys : List β} {i : Nat} {x : α}
    (h : List.Forall₂ R xs ys) (hx : xs[i]? = some x) : ∃ y, ys[i]? = some y ∧ R x y := by
  obtain ⟨hlt,rfl⟩ := List.getElem?_eq_some_iff.mp hx
  have hlt' : i < ys.length := h.length_eq ▸ hlt
  exact ⟨ys[i],List.getElem?_eq_getElem hlt',h.get hlt hlt'⟩

namespace Lower

variable {p : Program} {o : Options}

theorem function_refers {image : Image} (h : p.lower o = .ok image) {i : Nat} {d : FunctionDecl}
    (hd : p.functions[i]? = some d) : ∃ f, image.module.functions[i]? = some f ∧
      List.Forall₂ (Refers (context o p).linkage (Pool.empty.insertAll (p.literals o)))
        (d.body.mentions (context o p).linkage) f.code.references := by
  obtain ⟨entry,own,pool,-,hown,-,hmodule,-⟩ := lower_spec h
  obtain ⟨hpool,hshows⟩ := bodies_emit hown
  obtain ⟨b,hb,hcode⟩ := getElem?_of_forall₂ (hshows pool List.prefix_rfl) hd
  have hbuilt := assemble_built o (programImports p) entry.index
    (own ++ (neededRoutines own).map routineBody) pool
  have hbody : (own ++ (neededRoutines own).map routineBody)[i]? = some b := by
    rw [List.getElem?_append_left (List.getElem?_eq_some_iff.mp hb).1,hb]
  obtain ⟨f,hf,himpl⟩ := getElem?_of_forall₂ hbuilt.functions.flip hbody
  rw [hmodule]
  refine ⟨f,hf,?_⟩
  have hliterals : Pool.empty.insertAll (p.literals o) = pool := hpool.symm
  rw [hliterals,himpl.code]
  exact hcode

/-- A constant for a text is an address where memory holds that text. -/
def Points (memory : List UInt8) : Mention → Piece → Prop
  | .text s, piece => ∃ a : Nat, piece = .op (.i32Const a) ∧ HoldsText memory a s
  | _, _ => True

/-- What a module of a program has in memory before it runs. -/
structure InitialMemory (o : Options) (p : Program) (m : Module) (pages base : Nat) (memory : List UInt8) :
    Prop where
  limits : m.memory = some ⟨pages, o.maxPages⟩
  least : o.initialPages ≤ pages
  most : pages ≤ o.maxPages
  heap : m.globals = [⟨.i32, true, base⟩]
  aligned : base % 8 = 0
  inside : base ≤ pages * pageSize
  absent : p.literals o = [] → m.segments = []
  present : p.literals o ≠ [] → ∃ content, m.segments = [⟨8, content⟩] ∧ 8 + content.length ≤ base
  filled : m.initialMemory? = some memory
  texts : ∀ (i : Nat) (d : FunctionDecl), p.functions[i]? = some d → ∃ f, m.functions[i]? = some f ∧
    List.Forall₂ (Points memory) (d.body.mentions (context o p).linkage) f.code.references

theorem points_of_refers {G : Linkage} {P : Pool} {memory : List UInt8}
    (h : ∀ t ∈ P.texts, HoldsText memory (P.address t) t) {m : Mention} {piece : Piece}
    (hm : Refers G P m piece) : Points memory m piece := by
  cases hm with
  | text ht => exact ⟨_,rfl,h _ ht⟩
  | _ => trivial

theorem texts_eq_nil {ts : List String} : (Pool.empty.insertAll ts).texts = [] ↔ ts = [] := by
  simp only [List.eq_nil_iff_forall_not_mem, Pool.mem_insertAll, Pool.empty, List.not_mem_nil, false_or]

theorem lower_initialMemory {image : Image} (h : p.lower o = .ok image) :
    ∃ memory, InitialMemory o p image.module (p.dataPages o) (Pool.empty.insertAll (p.literals o)).heapBase
      memory := by
  obtain ⟨entry,own,pool,-,hown,hpages,hmodule,-⟩ := lower_spec h
  obtain rfl : pool = Pool.empty.insertAll (p.literals o) := (bodies_emit hown).1
  let pool := Pool.empty.insertAll (p.literals o)
  let pages := p.dataPages o
  have hinside : pool.heapBase ≤ pages * pageSize :=
    pool.heapBase_le_pages.trans (Nat.mul_le_mul_right pageSize (Nat.le_max_right ..))
  have hsmall : pages * pageSize < 2 ^ 32 :=
    calc pages * pageSize ≤ pageLimit * pageSize := Nat.mul_le_mul_right pageSize (hpages.trans o.max_le)
      _ < 2 ^ 32 := by decide
  have hsegments : image.module.segments =
      if pool.texts.isEmpty then [] else [⟨dataBase, pool.bytes⟩] := by
    rw [hmodule]
    rfl
  have hmemory : image.module.memory = some ⟨pages, o.maxPages⟩ := by
    rw [hmodule]
    rfl
  obtain ⟨memory,hfilled,hholds⟩ := Pool.initialMemory_holds hmemory hsegments hinside hsmall
  refine ⟨memory,hmemory,Nat.le_max_left ..,hpages,by rw [hmodule]; rfl,?_,hinside,
    fun hnone => ?_,fun hsome => ?_,hfilled,fun i d hd => ?_⟩
  · exact align_mod _
  · rw [hsegments,texts_eq_nil.mpr hnone]
    rfl
  · have htexts : pool.texts.isEmpty = false := by
      rw [List.isEmpty_eq_false_iff]
      exact fun hnil => hsome (texts_eq_nil.mp hnil)
    rw [htexts] at hsegments
    refine ⟨pool.bytes,hsegments,?_⟩
    rw [Pool.bytes_length,Pool.heapBase_eq]
    exact Nat.le_refl _
  · obtain ⟨f,hf,hrefers⟩ := function_refers h hd
    exact ⟨f,hf,hrefers.imp fun _ _ hm => points_of_refers hholds hm⟩

end Lower

/-- The literals of an accepted program are in memory before its module runs, below the heap, and code has
their addresses. If there is no room for them, lowering fails, and with a message unless the first hazard that has a
fault is a text that is too long. -/
theorem Program.literals_in_memory (z : Optimize.Solver) (o : Options) (p : Program) (hwritten : p.Written)
    (haccepted : (p.check o.shadowing).accepted = true) :
    (∀ image, (p.prepared z o).lower o = .ok image →
      ∃ pages base memory, InitialMemory o (p.prepared z o) image.module pages base memory) ∧
    (o.maxPages * pageSize < (Pool.empty.insertAll ((p.prepared z o).literals o)).heapBase →
      ∃ f, (p.prepared z o).lower o = .error f ∧
        (f.message? = none ↔ (p.prepared z o).fault? = some .textTooLong)) := by
  refine ⟨fun image himage => ⟨_,_,lower_initialMemory himage⟩,fun hlarge => ?_⟩
  rcases lower_outcome (o := o) (typed_of_accepted haccepted) hwritten (entry_prepared haccepted) with
    ⟨f,hfault,herror⟩ | ⟨hfault,⟨-,herror⟩ | ⟨hfits,-⟩⟩
  · exact ⟨f,herror,by rw [hfault,message?_fault hfault,Option.some_inj]⟩
  · exact ⟨_,herror,by simp [hfault, Fault.message?]⟩
  · have hroom := (Pool.empty.insertAll ((p.prepared z o).literals o)).heapBase_le_pages
    have hmul := Nat.mul_le_mul_right pageSize ((Nat.le_max_right ..).trans hfits)
    omega

/-- `fn run(s: String) -> Boolean { let t = "hé"; return match s { "" => false, _ => s == "hé" }; }` -/
def greeting : Program :=
  let pos : Pos := .unknown
  let note : Note := ⟨pos, none⟩
  ⟨pos, [.function ⟨pos, "run", [⟨pos, "s", .string⟩], some .boolean, .mk pos
    [.bind pos "t" none (.text note "hé") none,
      .ret pos (some (.select note (.name note "s" none)
        [.mk pos ⟨pos, .text ""⟩ (.bool note false),
          .mk pos ⟨pos, .wild⟩ (.binary note .eq (.name note "s" none) (.text note "hé"))]))], []⟩], none⟩

theorem greeting_written : greeting.Written where
  functions := by
    rintro f (_ | ⟨_,⟨⟩⟩)
    exact ⟨⟨by decide,by decide⟩,by simp [Block.Every, Stmt.EveryIn, Stmt.Every, Expr.Every, Arm.EveryIn,
      written]⟩
  records := by rintro r ⟨⟩
  constants := by rintro c ⟨⟩

theorem literals_in_memory_greeting :
    (greeting.prepared unaided .default).literals .default = ["hé", "", "hé"] ∧
      ∃ image, (greeting.prepared unaided .default).lower .default = .ok image ∧ ∃ pages base memory,
        InitialMemory .default (greeting.prepared unaided .default) image.module pages base memory := by
  have hok : ((greeting.prepared unaided .default).lower .default).isOk = true := by decide
  cases himage : (greeting.prepared unaided .default).lower .default with
  | error e =>
    rw [himage] at hok
    cases hok
  | ok image =>
    have hmemory := (Program.literals_in_memory unaided .default greeting greeting_written (by decide)).1 image himage
    exact ⟨by decide,image,rfl,hmemory⟩

/-- `fn run() -> String { return "aa…"; }` -/
def spelling (n : Nat) : Program :=
  let pos : Pos := .unknown
  let text := String.ofList (List.replicate n 'a')
  ⟨pos, [.function ⟨pos, "run", [], some .string, .mk pos [.ret pos (some (.text ⟨pos, none⟩ text))], []⟩], none⟩

/-- The default options, with no room for a second page. -/
def Options.onePage : Options := { Options.default with maxPages := 1, initial_le := by decide, max_le := by decide }

theorem spelling_written (n : Nat) : (spelling n).Written where
  functions := by
    rintro f (_ | ⟨_,⟨⟩⟩)
    exact ⟨⟨nofun,by rintro t ⟨⟩; rfl⟩,by simp [Block.Every, Stmt.EveryIn, Stmt.Every, Expr.Every, written]⟩
  records := by rintro r ⟨⟩
  constants := by rintro c ⟨⟩

theorem utf8ByteSize_replicate (n : Nat) : (String.ofList (List.replicate n 'a')).utf8ByteSize = n := by
  induction n with
  | zero => rfl
  | succ n ih =>
    rw [List.replicate_succ,String.ofList_cons,String.utf8ByteSize_append,ih,Nat.add_comm]
    rfl

theorem spelling_heapBase (n : Nat) :
    (Pool.empty.insertAll (((spelling n).prepared unaided .onePage).literals .onePage)).heapBase =
      dataBase + align (stringHeader + n) slotSize := by
  have hpool : Pool.empty.insertAll (((spelling n).prepared unaided .onePage).literals .onePage) =
    ⟨[String.ofList (List.replicate n 'a')]⟩ := rfl
  rw [hpool,Pool.heapBase_eq,Pool.size,cellsSize,cellsSize,cellSize,utf8ByteSize_replicate]
  rfl

theorem spelling_fault (n : Nat) : ((spelling n).prepared unaided .onePage).fault? =
    if n < lengthLimit then none else some .textTooLong := by
  have hone : ((spelling n).prepared unaided .onePage).fault? =
    [Hazard.text (String.ofList (List.replicate n 'a'))].findSome? Hazard.fault? := rfl
  rw [hone,List.findSome?_singleton,Hazard.fault?,utf8ByteSize_replicate]

theorem spelling_accepted (n : Nat) : ((spelling n).check Options.onePage.shadowing).accepted = true := rfl

/-- A text that fills a page leaves the heap at the end of memory, not inside, and with no page to follow. A text
without a length has no module, and there is no message. -/
theorem spelling_memory : (∀ n, ((spelling n).check Options.onePage.shadowing).accepted = true) ∧
    (∃ image memory, ((spelling 65520).prepared unaided .onePage).lower .onePage = .ok image ∧
      InitialMemory .onePage ((spelling 65520).prepared unaided .onePage) image.module 1 65536 memory) ∧
    ((spelling lengthLimit).prepared unaided .onePage).lower .onePage = .error .textTooLong := by
  have houtcome (n : Nat) := Program.lower_outcome (o := .onePage) (Program.typed_of_accepted (spelling_accepted n))
    (spelling_written n) (Program.entry_prepared (z := unaided) (spelling_accepted n))
  refine ⟨spelling_accepted,?_,?_⟩
  · have hbase := spelling_heapBase 65520
    have hpages : ((spelling 65520).prepared unaided .onePage).dataPages .onePage = 1 := by
      rw [Program.dataPages,Pool.pages,hbase]
      rfl
    rcases houtcome 65520 with ⟨f,hfault,-⟩ | ⟨-,⟨hmany,-⟩ | ⟨-,image,himage⟩⟩
    · rw [spelling_fault] at hfault
      cases hfault
    · rw [hpages] at hmany
      exact absurd hmany (by decide)
    · obtain ⟨memory,hmemory⟩ := lower_initialMemory himage
      rw [hpages,hbase] at hmemory
      exact ⟨image,memory,himage,hmemory⟩
  · rcases houtcome lengthLimit with ⟨f,hfault,herror⟩ | ⟨hfault,-⟩
    · rw [spelling_fault,if_neg (Nat.lt_irrefl _)] at hfault
      cases hfault
      exact herror
    · rw [spelling_fault,if_neg (Nat.lt_irrefl _)] at hfault
      cases hfault

end Covenant
