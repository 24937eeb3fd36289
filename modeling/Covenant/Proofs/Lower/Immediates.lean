import Covenant.Proofs.Lower.Literals

/-! The 32-bit numbers of a module. They are sizes, lengths and addresses, computed without bounds, and have to
fit their fields. All of them do if no array and no record is too large and the literals leave room for a heap. -/

namespace Covenant

open Wasm Memory Lower

def Wasm.Module.words (m : Module) : List Int :=
  (m.functions.flatMap fun f => f.code.filterMap fun
    | .op (.i32Const v) => some v
    | _ => none) ++ (m.globals.map (·.init) ++ m.segments.map (·.offset))

namespace Lower

def arrayLimit : Nat := 268435454

def arraysTo (n : Nat) : Rule where
  expr e := match e with
    | .array _ es => es.length ≤ n
    | _ => True
  stmt _ _ := True
  guard _ := True

structure Moderate (o : Options) (p : Program) : Prop where
  capacity : o.arrayCapacity ≤ arrayLimit
  arrays : ∀ d ∈ p.functions, d.body.Every (arraysTo arrayLimit) false
  records : ∀ r ∈ p.records, r.fields.length ≤ arrayLimit

structure Linkage.Moderate (G : Linkage) : Prop where
  capacity : G.capacity ≤ arrayLimit
  record (x : String) : G.record x < 2 ^ 31

theorem Moderate.linkage {o : Options} {p : Program} (h : Moderate o p) : (context o p).linkage.Moderate where
  capacity := h.capacity
  record x := by
    have hsize {n : Nat} (hn : n ≤ arrayLimit) : recordSize n < 2 ^ 31 := by
      simp only [recordSize, slotSize, arrayLimit] at *
      omega
    simp only [Context.linkage]
    cases hfind : (context o p).record? x with
    | none => exact hsize (Nat.zero_le _)
    | some r => exact hsize (h.records r (List.mem_reverse.mp (List.mem_of_find?_eq_some hfind)))

def Fit (ms : List Mention) : Prop := ∀ v, .word v ∈ ms → ValType.i32.holds v = true

theorem holds_natCast {n : Nat} (h : n < 2 ^ 31) : ValType.i32.holds n = true := by
  simp only [ValType.holds, Bool.and_eq_true, decide_eq_true_eq]
  omega

namespace Fit

variable {ms ns : List Mention} {v : Int}

theorem nil : Fit [] := nofun

theorem append (hm : Fit ms) (hn : Fit ns) : Fit (ms ++ ns) :=
  fun v hv => (List.mem_append.mp hv).elim (hm v) (hn v)

theorem word (hv : ValType.i32.holds v = true) (hm : Fit ms) : Fit (.word v :: ms) := by
  rintro w (_ | ⟨_,hw⟩)
  · exact hv
  · exact hm w hw

theorem text (s : String) (hm : Fit ms) : Fit (.text s :: ms) := by
  rintro v (_ | ⟨_,hv⟩)
  exact hm v hv

theorem call (f : Callable) : Fit [.call f] := by simp [Fit]

theorem flatten {mss : List (List Mention)} (h : ∀ ms ∈ mss, Fit ms) : Fit mss.flatten := by
  intro v hv
  obtain ⟨ms,hms,hv⟩ := List.mem_flatten.mp hv
  exact h ms hms v hv

theorem take {mss : List (List Mention)} (h : ∀ ms ∈ mss, Fit ms) (n : Nat) : Fit (mss.take n).flatten :=
  flatten fun ms hms => h ms (List.mem_of_mem_take hms)

end Fit

theorem newObject_fits {n : Nat} (h : n < 2 ^ 31) : Fit (newObject n) := .word (holds_natCast h) (.call _)

theorem newArray_fits {count capacity : Nat} (hcount : count ≤ capacity) (h : capacity ≤ arrayLimit) :
    Fit (newArray count capacity) := by
  have hsize : arraySize capacity < 2 ^ 31 := by
    simp only [arraySize, arrayHeader, slotSize, arrayLimit] at *
    omega
  have hsmall : capacity < 2 ^ 31 := Nat.lt_of_le_of_lt h (by decide)
  exact .append (newObject_fits hsize)
    (.word (holds_natCast (Nat.lt_of_le_of_lt hcount hsmall)) (.word (holds_natCast hsmall) .nil))

theorem comparison_fits (t : Option Ty) : Fit (comparison t) := by
  unfold comparison
  split
  · exact .call _
  · exact .nil

theorem value_fits (v : Value) : Fit v.mentions := by
  cases v with
  | int n => exact .nil
  | bool b => cases b <;> exact .word rfl .nil
  | text s => exact .text s .nil

theorem symbol_fits (s : Symbol) : Fit s.mentions := by
  unfold Symbol.mentions
  split
  · cases s.value with
    | none => exact .nil
    | some v => exact value_fits v
  · exact .nil

theorem operator_fits (op : BinaryOp) (t : Option Ty) : Fit (op.mentions t) := by
  cases op with
  | concat => exact .call _
  | eq | ne => exact comparison_fits t
  | _ => exact .nil

theorem builtin_fits (op : Builtin) (types : List (Option Ty)) : Fit (op.mentions types) := by
  cases op with
  | arrayLen | stringLen => exact .nil
  | stringConcat => exact .call _
  | arrayPush => exact .word rfl (.word rfl .nil)
  | arrayPop => exact .append (newObject_fits (by decide)) (.word rfl (.word rfl .nil))
  | arrayContains =>
    refine .append (.word rfl (.word rfl (.word rfl .nil))) (.append ?_ (.word rfl (.word rfl .nil)))
    split
    · exact comparison_fits _
    · exact .nil

theorem pattern_fits (p : PatternForm) : Fit p.mentions := by
  cases p with
  | text s => exact .text s (.call _)
  | _ => exact .nil

variable {G : Linkage}

theorem each_fit {es : List Expr} (h : ∀ e ∈ es, Fit (e.mentions G)) : ∀ ms ∈ Expr.mentionsEach G es, Fit ms :=
  parts_walk es h nofun fun _ _ he hes => List.forall_mem_cons.mpr ⟨he,hes⟩

theorem fields_fit {fs : List FieldInit} (h : ∀ f ∈ fs, Fit (f.value.mentions G)) :
    Fit (FieldInit.mentionsIn G fs) :=
  parts_walk fs h .nil fun (.mk ..) _ hf hfs => .append hf hfs

theorem arms_fit {as : List Arm} (h : ∀ a ∈ as, Fit (a.body.mentions G)) : Fit (Arm.mentionsIn G as) := by
  refine parts_walk as h .nil fun (.mk _ p _) _ ha has => ?_
  rw [Arm.mentionsIn]
  split
  · exact ha
  · exact .append (pattern_fits p.form) (.append ha has)

theorem fits_walk (hG : G.Moderate) : Walk (arraysTo arrayLimit) (fun _ e => Fit (e.mentions G))
    (fun _ s => Fit (s.mentions G)) (fun _ ss => Fit (Stmt.mentionsIn G ss)) (fun _ b => Fit (b.mentions G))
    (fun _ c => Fit (c.mentions G)) where
  int _ := .nil
  bool _ := value_fits (.bool _)
  text _ := .text _ .nil
  name {_ _ _ sym} _ := by
    cases sym with
    | none => exact .nil
    | some s => exact symbol_fits s
  unary _ he := he
  binary {_ _ op _ _} _ ha hb := by
    cases op with
    | and => exact .append ha (.append hb (.word rfl .nil))
    | or => exact .append ha (.word rfl hb)
    | _ => exact .append ha (.append hb (operator_fits _ _))
  call {_ _ f _} _ hes := by
    cases f with
    | builtin op => exact .append (.take (each_fit hes) _) (builtin_fits op _)
    | user | host => exact .append (.flatten (each_fit hes)) (.call _)
    | unresolved => exact .flatten (each_fit hes)
  method {_ _ _ _ _ b} _ he hes := by
    cases b with
    | none => exact .nil
    | some op => exact .append (.take (List.forall_mem_cons.mpr ⟨he,each_fit hes⟩) _) (builtin_fits op _)
  array h hes := .append (newArray_fits (Nat.le_max_left ..) (Nat.max_le.mpr ⟨h.1,hG.capacity⟩))
    (.flatten (each_fit hes))
  index _ ha hi := .append ha (.append hi (.word rfl .nil))
  field _ he := he
  record _ hfs := .append (newObject_fits (hG.record _)) (fields_fit hfs)
  wrap _ he := .append (newObject_fits (by decide)) he
  noneLit _ := newObject_fits (by decide)
  enum _ := .nil
  select _ he has := .append he (arms_fit has)
  block _ hss := hss
  tail _ hss he := .append hss he
  bind _ he := he
  assignName _ he := he
  assignField _ ht he := .append ht he
  assignIndex _ ht hi he := .append (.append ht (.append hi (.word rfl .nil))) he
  assignOther {_ _ t _} _ hplace ht he := by cases t <;> first | exact .append ht he | cases hplace
  ret _ := .nil
  retValue _ he := he
  expr _ he := he
  cond _ hc := hc
  loop _ he hb := .append he hb
  each _ he hb := .append he (.append (.word rfl (.word rfl .nil)) (.append hb (.word rfl .nil)))
  leave _ := .nil
  next _ := .nil
  nil := .nil
  cons _ hs hss := .append hs hss
  body hss := hss
  stop := .nil
  otherwise hb := hb
  branch _ he hb hc := .append he (.append hb hc)

theorem mem_words {m : Module} {v : Int} : v ∈ m.words ↔ (∃ f ∈ m.functions, .op (.i32Const v) ∈ f.code) ∨
    (∃ g ∈ m.globals, g.init = v) ∨ ∃ s ∈ m.segments, s.offset = v := by
  have hcode (code : Code) : v ∈ (code.filterMap fun
      | .op (.i32Const v) => some v
      | _ => none) ↔ Piece.op (.i32Const v) ∈ code := by
    rw [List.mem_filterMap]
    constructor
    · rintro ⟨piece,hpiece,hsome⟩
      split at hsome
      · cases hsome
        exact hpiece
      · cases hsome
    · exact fun h => ⟨_,h,rfl⟩
  simp only [Module.words, List.mem_append, List.mem_flatMap, List.mem_map, hcode]

theorem address_lt_heapBase {P : Pool} {t : String} (h : t ∈ P.texts) : P.address t < P.heapBase := by
  obtain ⟨before,after,hbytes,haddress⟩ := Pool.cell_at h
  have hsize : P.size = before.length + cellSize t + after.length := by
    rw [← Pool.bytes_length,hbytes,List.length_append,List.length_append,cell_length]
  have hcell : stringHeader + t.utf8ByteSize ≤ cellSize t := le_align _
  rw [haddress,Pool.heapBase_eq,hsize]
  simp only [stringHeader] at hcell
  omega

theorem words_fit_iff {P : Pool} {ms : List Mention} {code : Code}
    (h : List.Forall₂ (Refers G P) ms code.references) (hbase : P.heapBase ≤ 2 ^ 31) :
    (∀ v, .op (.i32Const v) ∈ code → ValType.i32.holds v = true) ↔ Fit ms := by
  have href (v : Int) : .op (.i32Const v) ∈ code ↔ .op (.i32Const v) ∈ code.references := by
    simp [Code.references, List.mem_filter, Piece.refers]
  simp only [href]
  generalize code.references = ps at h
  induction h with
  | nil => simp [Fit]
  | cons hm _ ih => cases hm with
    | word v => simpa [Fit, or_imp, forall_and] using fun _ => ih
    | text ht =>
      have haddress := holds_natCast (Nat.lt_of_lt_of_le (address_lt_heapBase ht) hbase)
      simpa [Fit, or_imp, forall_and, haddress] using ih
    | user | host | routine => simpa [Fit] using ih

theorem forall_mem_iff_of_forall₂ {α β : Type} {R : α → β → Prop} {P : α → Prop} {Q : β → Prop} {xs : List α}
    {ys : List β} (h : List.Forall₂ R xs ys) (hR : ∀ x y, R x y → (P x ↔ Q y)) :
    (∀ x ∈ xs, P x) ↔ ∀ y ∈ ys, Q y := by
  induction h with
  | nil => simp
  | cons hxy _ ih => simp only [List.forall_mem_cons, hR _ _ hxy, ih]

theorem routine_words (r : Routine) {v : Int} (h : .op (.i32Const v) ∈ Instr.piecesOf r.code) :
    ValType.i32.holds v = true := by
  have hall : (Instr.piecesOf r.code).all (fun
      | .op (.i32Const v) => ValType.i32.holds v
      | _ => true) = true := by cases r <;> decide
  exact List.all_eq_true.mp hall _ h

/-- All numbers of a module fit exactly if those of its functions do and the literals leave room for a heap. -/
theorem module_words_iff {p : Program} {o : Options} {image : Image} (h : p.lower o = .ok image) :
    let base := (Pool.empty.insertAll (p.literals o)).heapBase
    base ≤ 2 ^ 31 ∧ ((∀ v ∈ image.module.words, ValType.i32.holds v = true) ↔
      base < 2 ^ 31 ∧ ∀ d ∈ p.functions, Fit (d.body.mentions (context o p).linkage)) := by
  obtain ⟨entry,own,pool,-,hown,hpages,hmodule,-⟩ := lower_spec h
  obtain ⟨hpool,hshows⟩ := bodies_emit hown
  obtain rfl : pool = Pool.empty.insertAll (p.literals o) := hpool
  have hbase : (Pool.empty.insertAll (p.literals o)).heapBase ≤ 2 ^ 31 :=
    calc _ ≤ _ := Pool.heapBase_le_pages _
      _ ≤ pageLimit * pageSize :=
        Nat.mul_le_mul_right pageSize (((Nat.le_max_right ..).trans hpages).trans o.max_le)
      _ = 2 ^ 31 := by decide
  have hbuilt := assemble_built o (programImports p) entry.index (own ++ (neededRoutines own).map routineBody)
    (Pool.empty.insertAll (p.literals o))
  rw [← hmodule] at hbuilt
  have hfunctions : (∀ f ∈ image.module.functions, ∀ v, .op (.i32Const v) ∈ f.code → ValType.i32.holds v = true) ↔
      ∀ d ∈ p.functions, Fit (d.body.mentions (context o p).linkage) := by
    rw [forall_mem_iff_of_forall₂ hbuilt.functions fun f b hb => by rw [hb.code],List.forall_mem_append,
      ← forall_mem_iff_of_forall₂ (hshows _ List.prefix_rfl) fun d b hb => (words_fit_iff hb hbase).symm]
    refine and_iff_left fun b hb => ?_
    obtain ⟨r,-,rfl⟩ := List.mem_map.mp hb
    exact fun v => routine_words r
  have hglobals : image.module.globals = [⟨.i32, true, (Pool.empty.insertAll (p.literals o)).heapBase⟩] := by
    rw [hmodule]
    rfl
  have hsegments : ∀ s ∈ image.module.segments, s.offset = dataBase := by
    rw [hmodule,assemble]
    intro s hs
    dsimp only at hs
    split at hs
    · cases hs
    · rw [List.mem_singleton.mp hs]
  rw [← hfunctions]
  refine ⟨hbase,fun hall => ⟨?_,fun f hf v hv => hall v (mem_words.mpr (.inl ⟨f,hf,hv⟩))⟩,?_⟩
  · have hheap := hall _ (mem_words.mpr (.inr (.inl ⟨_,by rw [hglobals]; exact .head _,rfl⟩)))
    simp only [ValType.holds, Bool.and_eq_true, decide_eq_true_eq] at hheap
    omega
  · rintro ⟨hlt,hcode⟩ v hv
    rcases mem_words.mp hv with ⟨f,hf,hv⟩ | ⟨g,hg,rfl⟩ | ⟨s,hs,rfl⟩
    · exact hcode f hf v hv
    · rw [hglobals] at hg
      rw [List.mem_singleton.mp hg]
      exact holds_natCast hlt
    · rw [hsegments s hs]
      rfl

end Lower

/-- The 32-bit numbers of a compiled program fit their fields exactly if the heap starts below two gigabytes and
the sizes in its functions fit. They do if arrays and records have bounds; the capacity that is given to small
arrays has none of its own. -/
theorem Program.compile_words_fit (z : Optimize.Solver) (o : Options) (p : Program) (out : Compiled)
    (hcompile : p.compile z o = .ok out) :
    ∃ image, (p.prepared z o).lower o = .ok image ∧ out.bytes = image.bytes ∧
      let base := (Pool.empty.insertAll ((p.prepared z o).literals o)).heapBase
      base ≤ 2 ^ 31 ∧
      ((∀ v ∈ image.module.words, ValType.i32.holds v = true) ↔ base < 2 ^ 31 ∧
        ∀ d ∈ (p.prepared z o).functions, Fit (d.body.mentions (context o (p.prepared z o)).linkage)) ∧
      (base < 2 ^ 31 → Moderate o (p.prepared z o) → ∀ v ∈ image.module.words, ValType.i32.holds v = true) := by
  obtain ⟨-,image,himage,hbytes⟩ := compile_spec hcompile
  obtain ⟨hbase,hiff⟩ := module_words_iff himage
  exact ⟨image,himage,hbytes,hbase,hiff,fun hlt hsmall =>
    hiff.mpr ⟨hlt,fun d hd => (fits_walk hsmall.linkage).onBlock d.body (hsmall.arrays d hd)⟩⟩

def listing : Program :=
  let pos : Pos := .unknown
  let note : Note := ⟨pos, none⟩
  ⟨pos, [.function ⟨pos, "run", [], some .integer, .mk pos
    [.bind pos "xs" none (.array note [.int note 1]) none, .ret pos (some (.int note 0))], []⟩], none⟩

theorem compile_words_fit_listing : ∃ out image, listing.compile unaided .default = .ok out ∧
    (listing.prepared unaided .default).lower .default = .ok image ∧ out.bytes = image.bytes ∧
    ∀ v ∈ image.module.words, ValType.i32.holds v = true := by
  have hok : (listing.compile unaided .default).isOk = true := by decide
  cases hcompile : listing.compile unaided .default with
  | error e =>
    rw [hcompile] at hok
    cases hok
  | ok out =>
    obtain ⟨image,himage,hbytes,-,-,hall⟩ := Program.compile_words_fit unaided .default listing out hcompile
    refine ⟨out,image,rfl,himage,hbytes,hall (by decide) ⟨by decide,?_,nofun⟩⟩
    rintro d (_ | ⟨_,⟨⟩⟩)
    exact ⟨⟨trivial,(by decide : 1 ≤ arrayLimit),trivial,trivial⟩,⟨trivial,trivial⟩,trivial⟩

def Options.roomy : Options := { Options.default with arrayCapacity := 300000000, capacity_pos := by decide }

/-- The size of such an array is no 32-bit number. -/
theorem listing_roomy_unfit : (listing.check .warn).accepted = true ∧
    ∃ image, (listing.prepared unaided .roomy).lower .roomy = .ok image ∧ 2400000008 ∈ image.module.words ∧
      ValType.i32.holds 2400000008 = false := by
  have hany : ((listing.prepared unaided .roomy).lower .roomy).toOption.any
      (·.module.words.contains 2400000008) = true := by decide
  refine ⟨by decide,?_⟩
  cases himage : (listing.prepared unaided .roomy).lower .roomy with
  | error e =>
    rw [himage] at hany
    cases hany
  | ok image =>
    rw [himage] at hany
    exact ⟨image,rfl,List.contains_iff_mem.mp hany,by decide⟩

end Covenant
