import Covenant.Proofs.Lower.Literals

/-! The numbers of functions. Imports come first, then the functions of the program, then the routines that
can be reached from them. Each part is numbered at another time; in the bytes of a module every call has
the number of the function that it means. -/

namespace Covenant

open Wasm Memory Typing

namespace Lower

def Silent (ms : List Mention) : Prop := ∀ h, .call (.host h) ∉ ms

/-- All host functions that are referred to are among the given ones. -/
def Covers (hs : List HostFunction) (ms : List Mention) : Prop := ∀ h, .call (.host h) ∈ ms → h ∈ hs

namespace Covers

variable {hs gs : List HostFunction} {ms ns : List Mention}

theorem silent (h : Silent ms) : Covers hs ms := fun f hf => absurd hf (h f)

theorem append (hm : Covers hs ms) (hn : Covers gs ns) : Covers (hs ++ gs) (ms ++ ns) := by
  intro f hf
  rcases List.mem_append.mp hf with hf | hf
  · exact List.mem_append_left _ (hm f hf)
  · exact List.mem_append_right _ (hn f hf)

theorem followed (hm : Covers hs ms) (hn : Silent ns) : Covers hs (ms ++ ns) := by
  have hnone : Covers [] ns := silent hn
  have hall := hm.append hnone
  rwa [List.append_nil] at hall

theorem preceded (hn : Covers hs ns) (hm : Silent ms) : Covers hs (ms ++ ns) := by
  have hnone : Covers [] ms := silent hm
  exact hnone.append hn

end Covers

theorem newObject_silent (n : Nat) : Silent (newObject n) := by simp [Silent, newObject]

theorem newArray_silent (n k : Nat) : Silent (newArray n k) := by simp [Silent, newArray, newObject]

theorem comparison_silent (t : Option Ty) : Silent (comparison t) := by
  unfold comparison
  split <;> simp [Silent]

theorem value_silent (v : Value) : Silent v.mentions := by
  cases v <;> simp [Silent, Value.mentions]

theorem symbol_silent (s : Symbol) : Silent s.mentions := by
  unfold Symbol.mentions
  split
  · cases s.value with
    | none => simp [Silent]
    | some v => exact value_silent v
  · simp [Silent]

theorem builtin_silent (op : Builtin) (types : List (Option Ty)) : Silent (op.mentions types) := by
  cases op with
  | arrayContains =>
    intro h hmem
    simp only [Builtin.mentions, List.mem_append, List.mem_cons, reduceCtorEq, List.not_mem_nil, or_false,
      or_self, false_or] at hmem
    split at hmem
    · exact comparison_silent _ h hmem
    · cases hmem
  | _ => simp [Silent, Builtin.mentions, newObject]

theorem operator_silent (op : BinaryOp) (t : Option Ty) : Silent (op.mentions t) := by
  cases op with
  | eq | ne => exact comparison_silent t
  | _ => simp [Silent, BinaryOp.mentions]

theorem pattern_silent (p : PatternForm) : Silent p.mentions := by
  cases p <;> simp [Silent, PatternForm.mentions]

variable {G : Linkage}

theorem binary_covers {n : Note} {a b : Expr} (op : BinaryOp) (ha : Covers (a.gather hosts) (a.mentions G))
    (hb : Covers (b.gather hosts) (b.mentions G)) :
    Covers ((Expr.binary n op a b).gather hosts) ((Expr.binary n op a b).mentions G) := by
  have hstrict : Covers (a.gather hosts ++ b.gather hosts) (a.mentions G ++ (b.mentions G ++ op.mentions a.type)) :=
    ha.append (hb.followed (operator_silent op a.type))
  cases op with
  | and => exact ha.append (hb.followed (by simp [Silent]))
  | or =>
    have hone : Silent [.word 1] := by simp [Silent]
    exact ha.append (hb.preceded hone)
  | _ => exact hstrict

theorem take_covers {es : List Expr} (h : ∀ e ∈ es, Covers (e.gather hosts) (e.mentions G)) :
    ∀ n, Covers (Expr.gatherIn hosts es) ((Expr.mentionsEach G es).take n).flatten := by
  refine parts_walk es h (by simp [Expr.mentionsEach, Covers]) fun _ _ he hes n => ?_
  cases n with
  | zero => simp [Covers]
  | succ n => exact he.append (hes n)

theorem each_covers {es : List Expr} (h : ∀ e ∈ es, Covers (e.gather hosts) (e.mentions G)) :
    Covers (Expr.gatherIn hosts es) (Expr.mentionsEach G es).flatten := by
  have htake := take_covers h (Expr.mentionsEach G es).length
  rwa [List.take_length] at htake

theorem call_covers {n : Note} {f : Callee} {args : List Expr}
    (h : ∀ e ∈ args, Covers (e.gather hosts) (e.mentions G)) :
    Covers ((Expr.call n f args).gather hosts) ((Expr.call n f args).mentions G) := by
  have hargs := each_covers h
  cases f with
  | builtin op => exact (take_covers h op.arity).followed (builtin_silent op _)
  | user f => exact hargs.followed (by simp [Silent])
  | unresolved f => exact hargs
  | host f =>
    intro g hg
    rcases List.mem_append.mp hg with hg | hg
    · exact List.mem_cons_of_mem f (hargs g hg)
    · obtain rfl : g = f := by simpa using hg
      exact List.mem_cons_self

theorem assign_covers {p : Pos} {t e : Expr} (ht : Covers (t.gather hosts) (t.mentions G))
    (he : Covers (e.gather hosts) (e.mentions G)) :
    Covers ((Stmt.assign p t e).gather hosts) ((Stmt.assign p t e).mentions G) := by
  cases t with
  | name n x sym => exact he
  | _ => exact ht.append he

section

variable (G : Linkage)

mutual

theorem expr_covers : ∀ e : Expr, Covers (e.gather hosts) (e.mentions G)
  | .int _ _ | .enum _ _ _ _ | .name _ _ none => nofun
  | .bool _ _ | .text _ _ => .silent (by simp [Silent, Expr.mentions])
  | .noneLit _ => .silent (newObject_silent _)
  | .name _ _ (some s) => .silent (symbol_silent s)
  | .unary _ _ e => expr_covers e
  | .field _ e _ => expr_covers e
  | .binary _ op a b => binary_covers op (expr_covers a) (expr_covers b)
  | .call _ _ args => call_covers (exprs_cover args)
  | .method _ e _ args none => nofun
  | .method _ e _ args (some op) => by
    have hall : ∀ a ∈ e :: args, Covers (a.gather hosts) (a.mentions G) :=
      List.forall_mem_cons.mpr ⟨expr_covers e,exprs_cover args⟩
    exact (take_covers hall op.arity).followed (builtin_silent op _)
  | .array _ es => (each_covers (exprs_cover es)).preceded (newArray_silent _ _)
  | .index _ a i => (expr_covers a).append ((expr_covers i).followed (by simp [Silent]))
  | .record _ _ fs => (fields_cover fs).preceded (newObject_silent _)
  | .wrap _ _ e => (expr_covers e).preceded (newObject_silent _)
  | .select _ e as => (expr_covers e).append (arms_cover as)
  | .block _ ss none _ => stmts_cover ss
  | .block _ ss (some e) _ => (stmts_cover ss).append (expr_covers e)

theorem exprs_cover : ∀ es : List Expr, ∀ e ∈ es, Covers (e.gather hosts) (e.mentions G)
  | [] => nofun
  | e :: es => List.forall_mem_cons.mpr ⟨expr_covers e,exprs_cover es⟩

theorem fields_cover : ∀ fs : List FieldInit,
    Covers (FieldInit.gatherIn hosts fs) (FieldInit.mentionsIn G fs)
  | [] => nofun
  | .mk _ _ e :: fs => (expr_covers e).append (fields_cover fs)

theorem arms_cover : ∀ as : List Arm, Covers (Arm.gatherIn hosts as) (Arm.mentionsIn G as)
  | [] => nofun
  | .mk _ p e :: as => by
    rw [Arm.mentionsIn,Arm.gatherIn]
    split
    · exact fun h hh => List.mem_append_left _ (expr_covers e h hh)
    · exact ((expr_covers e).append (arms_cover as)).preceded (pattern_silent p.form)

theorem stmt_covers : ∀ s : Stmt, Covers (s.gather hosts) (s.mentions G)
  | .bind _ _ _ e _ => expr_covers e
  | .ret _ none | .leave _ | .next _ => nofun
  | .ret _ (some e) => expr_covers e
  | .expr _ e => expr_covers e
  | .assign _ t e => assign_covers (expr_covers t) (expr_covers e)
  | .cond _ c => chain_covers c
  | .loop _ e b => (expr_covers e).append (block_covers b)
  | .each _ _ e b _ => (expr_covers e).append
    (((block_covers b).followed (by simp [Silent])).preceded (by simp [Silent]))

theorem stmts_cover : ∀ ss : List Stmt, Covers (Stmt.gatherIn hosts ss) (Stmt.mentionsIn G ss)
  | [] => nofun
  | s :: ss => (stmt_covers s).append (stmts_cover ss)

theorem block_covers : ∀ b : Block, Covers (blockHosts b) (b.mentions G)
  | .mk _ ss => stmts_cover ss

theorem chain_covers : ∀ c : Chain, Covers (c.gather hosts) (c.mentions G)
  | .stop => nofun
  | .otherwise b => block_covers b
  | .branch _ e b rest => (expr_covers e).append ((block_covers b).append (chain_covers rest))

end

end

def callsOf (ms : List Mention) : List Callable :=
  ms.filterMap fun
    | .call f => some f
    | _ => none

end Lower

namespace Wasm.Code

def calls (number : String → Option Nat) (code : Code) : List Nat :=
  (code.map (Piece.resolve number)).filterMap fun
    | .op (.call i) => some i
    | _ => none

variable {number : String → Option Nat}

theorem calls_append (xs ys : Code) : calls number (xs ++ ys) = calls number xs ++ calls number ys := by
  simp [calls]

theorem calls_routine {n : String} {i : Nat} (h : number n = some i) : calls number [.routine n] = [i] := by
  simp [calls, Piece.resolve, h]

theorem calls_references (code : Code) : code.references.calls number = code.calls number := by
  induction code with
  | nil => rfl
  | cons p ps ih =>
    have hone : references [p] = [p] ∨ references [p] = [] ∧ calls number [p] = [] := by
      cases p with
      | op o => cases o <;> first | exact .inl rfl | exact .inr ⟨rfl,rfl⟩
      | routine n => exact .inl rfl
      | _ => exact .inr ⟨rfl,rfl⟩
    have hsplit : references (p :: ps) = references [p] ++ references ps := List.filter_append [p] ps
    rw [hsplit,calls_append,ih]
    have hcalls : calls number (p :: ps) = calls number [p] ++ calls number ps := calls_append [p] ps
    rw [hcalls]
    rcases hone with hone | ⟨hone,hnone⟩
    · rw [hone]
    · rw [hone,hnone]
      rfl

theorem calls_eq_routines {code : Code} (h : code.calls (fun _ => none) = []) :
    code.calls number = code.routines.filterMap number := by
  induction code with
  | nil => rfl
  | cons p ps ih =>
    have hcons (n : String → Option Nat) : calls n (p :: ps) = calls n [p] ++ calls n ps :=
      calls_append [p] ps
    rw [hcons] at h
    obtain ⟨hp,hps⟩ := List.append_eq_nil_iff.mp h
    rw [hcons,ih hps]
    cases p with
    | routine n =>
      show _ = List.filterMap number (n :: routines ps)
      cases hn : number n with
      | none => simp [calls, Piece.resolve, hn]
      | some i => rw [calls_routine hn,List.filterMap_cons,hn]; rfl
    | op o =>
      have hnone : calls number [.op o] = [] := hp
      rw [hnone]
      rfl
    | _ => rfl

end Wasm.Code

namespace Lower

variable {p : Program} {o : Options} {m : Module} {rs : List Routine} {number : String → Option Nat}

/-- Imports come first, then the functions of the program, then the routines. A number is that of an import
with the name and the type of a host function, of a function with that name, or of a routine. -/
inductive Means (p : Program) (m : Module) (rs : List Routine) : Callable → Nat → Prop where
  | host {h : HostFunction} {i : Nat} {e : Import} (he : m.imports[i]? = some e)
      (hname : e.name = h.importName) (htype : m.types[e.type]? = some (signature h.params h.result)) :
      Means p m rs (.host h) i
  | user {d : FunctionDecl} {k : Nat} (hd : p.functions[k]? = some d) :
      Means p m rs (.user d.name) (m.imports.length + k)
  | routine {r : Routine} {k : Nat} (hr : rs[k]? = some r) :
      Means p m rs (.routine r) (m.imports.length + p.functions.length + k)

/-- A routine that the functions of a program call, directly or through other routines. -/
inductive Reached (o : Options) (p : Program) : Routine → Prop where
  | called {d : FunctionDecl} {r : Routine} (hd : d ∈ p.functions)
      (hr : .call (.routine r) ∈ d.body.mentions (context o p).linkage) : Reached o p r
  | through {q r : Routine} (hq : Reached o p q) (hr : r ∈ Instr.routinesOf q.code) : Reached o p r

/-- The functions of a module have their places, and every call has the number of the function it means. -/
structure FunctionSpace (o : Options) (p : Program) (m : Module) (number : String → Option Nat)
    (rs : List Routine) : Prop where
  imports : m.imports.map (·.name) =
    ((p.functions.flatMap fun d => blockHosts d.body).map (·.importName)).eraseDups
  host : ∀ e ∈ m.imports, e.module = o.hostModule
  count : m.functions.length = p.functions.length + rs.length
  functions : ∀ (k : Nat) (d : FunctionDecl), p.functions[k]? = some d → ∃ f, m.functions[k]? = some f ∧
    m.types[f.type]? = some (signature (d.params.map (·.type)) d.result) ∧
    List.Forall₂ (Means p m rs) (callsOf (d.body.mentions (context o p).linkage)) (f.code.calls number)
  routines : ∀ (k : Nat) (r : Routine), rs[k]? = some r → ∃ f,
    m.functions[p.functions.length + k]? = some f ∧ Implements m.types f (routineBody r) ∧
    List.Forall₂ (Means p m rs) (r.needs.map .routine) (f.code.calls number)
  order : rs.Sublist Routine.all
  reached : ∀ r, r ∈ rs ↔ Reached o p r
  types : m.types.Nodup
  importTypes : ∀ e ∈ m.imports, e.type < m.types.length
  functionTypes : ∀ f ∈ m.functions, f.type < m.types.length
  exports : ∃ i, Means p m rs (.user entryPoint) i ∧ m.exports =
    ⟨entryPoint, functionKind, i⟩ :: if o.exportMemory then [⟨"memory", memoryKind, 0⟩] else []

structure Parts (o : Options) (p : Program) (m : Module) (own : List Body) (rs : List Routine) : Prop where
  built : Built m ((programImports p).map fun h => signature h.params h.result)
    (own ++ rs.map routineBody)
  imports : List.Forall₂ (fun e h => e.module = o.hostModule ∧ e.name = h.importName) m.imports
    (programImports p)
  bodies : List.Forall₂ (fun d b => ∃ q q', function (context o p) d q = .ok (b,q')) p.functions own
  reached : ∀ r, r ∈ rs ↔ Reached o p r

variable {d : FunctionDecl} {r : Routine}

namespace Parts

variable {own : List Body} {strict : Prop} {policy : Policy}

theorem means_user (hm : Parts o p m own rs) {f : String} {i : Nat}
    (h : (context o p).linkage.user f = some i) : Means p m rs (.user f) i := by
  obtain ⟨t,ht,rfl⟩ := Option.map_eq_some_iff.mp h
  have hname : t.name = f := of_decide_eq_true (List.find?_some (p := fun t : Target => decide (t.name = f)) ht)
  have hmem := List.mem_reverse.mp (List.mem_of_find?_eq_some ht)
  obtain ⟨⟨d,k⟩,hk,rfl⟩ := List.mem_map.mp hmem
  have hd := List.mem_zipIdx_iff_getElem?.mp hk
  subst hname
  show Means p m rs (.user d.name) ((programImports p).length + k)
  rw [← hm.imports.length_eq]
  exact .user hd

theorem means_host (hm : Parts o p m own rs) (hp : p.Typed strict policy) (hs : strict) {h : HostFunction}
    {i : Nat} (hh : h ∈ HostFunction.all) (hi : (context o p).linkage.host h = some i) :
    Means p m rs (.host h) i := by
  obtain ⟨hlt,heq,-⟩ := List.findIdx?_eq_some_iff_getElem.mp hi
  have hname : (programImports p)[i].importName = h.importName := of_decide_eq_true heq
  have hget : (programImports p)[i]? = some (programImports p)[i] := List.getElem?_eq_getElem hlt
  -- The import may come from another function of the library with the same import name.
  obtain ⟨d,hd,hcalled⟩ := List.mem_flatMap.mp (mem_of_mem_distinctImports (List.getElem_mem hlt))
  have hknown := hosts_walk hs (hp.functions d hd).body _ hcalled
  obtain ⟨hparams,hresult⟩ := host_of_importName _ hknown h hh hname
  have htypes : ((programImports p).map fun g => signature g.params g.result)[i]? =
      some (signature h.params h.result) := by
    rw [List.getElem?_map,hget,← hparams,← hresult]
    rfl
  obtain ⟨e,he,-,hentry⟩ := getElem?_of_forall₂ hm.imports.flip hget
  obtain ⟨e',he',htype⟩ := getElem?_of_forall₂ hm.built.imports.flip htypes
  cases he.symm.trans he'
  exact .host he (hentry.trans hname) htype

theorem means_routine (hm : Parts o p m own rs) (hr : r ∈ rs) : ∃ i,
    routineNumber ((programImports p).length + own.length) rs r.name = some i ∧
      Means p m rs (.routine r) i := by
  obtain ⟨k,hnumber,hk⟩ := routineNumber_spec ((programImports p).length + own.length) hr
  rw [← hm.imports.length_eq,← hm.bodies.length_eq] at hnumber ⊢
  exact ⟨_,hnumber,.routine hk⟩

end Parts

theorem calls_of_refers {G : Linkage} {P : Pool} {ms : List Mention} {code : Code}
    (h : List.Forall₂ (Refers G P) ms code) (hcalls : ∀ f, .call f ∈ ms → ∀ piece,
      Refers G P (.call f) piece → ∃ i, piece.resolve number = .op (.call i) ∧ Means p m rs f i) :
    List.Forall₂ (Means p m rs) (callsOf ms) (code.calls number) := by
  induction h with
  | nil => exact .nil
  | @cons mention piece ms code hone _ ih =>
    have hrest := ih fun f hf => hcalls f (List.mem_cons_of_mem _ hf)
    cases mention with
    | call f =>
      obtain ⟨i,hi,hmeans⟩ := hcalls f List.mem_cons_self piece hone
      have hfirst : Code.calls number (piece :: code) = i :: Code.calls number code := by
        simp [Code.calls, hi]
      rw [hfirst]
      exact .cons hmeans hrest
    | word v =>
      cases hone
      exact hrest
    | text t =>
      cases hone
      exact hrest

theorem calls_routine (r : Routine)
    (h : ∀ q ∈ r.needs, ∃ i, number q.name = some i ∧ Means p m rs (.routine q) i) :
    List.Forall₂ (Means p m rs) (r.needs.map .routine) (Code.calls number (Instr.piecesOf r.code)) := by
  have hplain : Code.calls (fun _ => none) (Instr.piecesOf r.code) = [] := by cases r <;> rfl
  rw [Code.calls_eq_routines hplain,routines_piecesOf,routinesOf_code]
  generalize r.needs = qs at h
  induction qs with
  | nil => exact .nil
  | cons q qs ih =>
    obtain ⟨⟨i,hi,hmeans⟩,hqs⟩ := List.forall_mem_cons.mp h
    rw [List.map_cons,List.map_cons,List.filterMap_cons,hi]
    exact .cons hmeans (ih hqs)

theorem mem_routinesOf {code : List Instr} :
    r ∈ Instr.routinesOf code ↔ .routine r.name ∈ (Instr.piecesOf code : Code).references := by
  have hname : r ∈ Instr.routinesOf code ↔ r.name ∈ Code.routines (Instr.piecesOf code) := by
    rw [routines_piecesOf]
    refine ⟨List.mem_map_of_mem,fun hr => ?_⟩
    obtain ⟨q,hq,heq⟩ := List.mem_map.mp hr
    exact Routine.name_injective heq ▸ hq
  rw [hname]
  simp only [Code.routines, Code.references, List.mem_filterMap, List.mem_filter]
  constructor
  · rintro ⟨piece,hmem,heq⟩
    cases piece with
    | routine n =>
      cases heq
      exact ⟨hmem,rfl⟩
    | _ => cases heq
  · rintro ⟨hmem,-⟩
    exact ⟨_,hmem,rfl⟩

theorem Shows.mem_routinesOf {G : Linkage} {P : Pool} {ms : List Mention} {code : List Instr}
    (h : Shows G P ms code) : r ∈ Instr.routinesOf code ↔ .call (.routine r) ∈ ms := by
  rw [Lower.mem_routinesOf]
  unfold Shows at h
  generalize (Instr.piecesOf code : Code).references = ps at h
  induction h with
  | nil => simp
  | @cons mention piece ms ps hone _ ih =>
    refine List.mem_cons.trans (Iff.trans (or_congr ⟨fun heq => ?_,fun heq => ?_⟩ ih) List.mem_cons.symm)
    · generalize hn : r.name = n at heq
      subst heq
      cases hone with
      | routine q => rw [Routine.name_injective hn]
    · subst heq
      cases hone
      rfl

theorem mem_neededRoutines_iff {own : List Body} {pool : Pool}
    (hown : bodies (context o p) p.functions .empty = .ok (own,pool)) (r : Routine) :
    r ∈ neededRoutines own ↔ Reached o p r := by
  have hshows := (bodies_emit hown).2 pool List.prefix_rfl
  have hcalled {b : Body} {q : Routine} (hb : b ∈ own) (hq : q ∈ Instr.routinesOf b.code) :
      Reached o p q := by
    obtain ⟨k,hk⟩ := List.mem_iff_getElem?.mp hb
    obtain ⟨d,hd,hcode⟩ := getElem?_of_forall₂ hshows.flip hk
    exact .called (List.mem_of_getElem? hd) (Shows.mem_routinesOf hcode |>.mp hq)
  constructor
  · intro hr
    rcases mem_neededRoutines.mp hr with hr | hr
    · obtain ⟨b,hb,hr⟩ := List.mem_flatMap.mp hr
      exact hcalled hb hr
    · obtain ⟨q,hq,hr⟩ := List.mem_flatMap.mp hr
      obtain ⟨b,hb,hq⟩ := List.mem_flatMap.mp hq
      exact .through (hcalled hb hq) (routinesOf_code q ▸ hr)
  · intro hr
    induction hr with
    | called hd hr =>
      obtain ⟨k,hk⟩ := List.mem_iff_getElem?.mp hd
      obtain ⟨b,hb,hcode⟩ := getElem?_of_forall₂ hshows hk
      exact mem_needed_of_code (List.mem_of_getElem? hb) ((Shows.mem_routinesOf hcode).mpr hr)
    | through _ hr ih => exact mem_needed_of_routine ih hr

theorem function_type {k : Nat} {pool pool' : Pool} {b : Body}
    (hnames : (p.functions.map (·.name)).Nodup) (hd : p.functions[k]? = some d)
    (h : function (context o p) d pool = .ok (b,pool')) :
    b.type = signature (d.params.map (·.type)) d.result := by
  obtain ⟨code,s,t,-,ht,-,rfl⟩ := function_spec h
  have htarget := target?_of_getElem? (c := context o p) hnames rfl hd
  cases ht.symm.trans htarget
  rfl

namespace Parts

variable {own : List Body} {strict : Prop} {policy : Policy}

theorem calls_function (hm : Parts o p m own rs) (hp : p.Typed strict policy) (hs : strict)
     {P : Pool} {code : Code} (hd : d ∈ p.functions)
    (h : List.Forall₂ (Refers (context o p).linkage P) (d.body.mentions (context o p).linkage)
      code.references) : List.Forall₂ (Means p m rs) (callsOf (d.body.mentions (context o p).linkage))
      (code.calls (routineNumber ((programImports p).length + own.length) rs)) := by
  rw [← Code.calls_references]
  refine calls_of_refers h fun f hf piece hpiece => ?_
  cases hpiece with
  | user hi => exact ⟨_,rfl,hm.means_user hi⟩
  | host hi =>
    have hknown := hosts_walk hs (hp.functions d hd).body _ (block_covers _ d.body _ hf)
    exact ⟨_,rfl,hm.means_host hp hs hknown hi⟩
  | routine r =>
    obtain ⟨i,hi,hmeans⟩ := hm.means_routine ((hm.reached r).mpr (.called hd hf))
    exact ⟨i,by rw [Piece.resolve,hi]; rfl,hmeans⟩

theorem function_at (hm : Parts o p m own rs) (hp : p.Typed strict policy) {k : Nat}
    (hd : p.functions[k]? = some d) : ∃ f, m.functions[k]? = some f ∧
      m.types[f.type]? = some (signature (d.params.map (·.type)) d.result) := by
  obtain ⟨b,hb,q,q',hbody⟩ := getElem?_of_forall₂ hm.bodies hd
  have hall : (own ++ rs.map routineBody)[k]? = some b := by
    rw [List.getElem?_append_left (List.getElem?_eq_some_iff.mp hb).1,hb]
  obtain ⟨f,hf,himpl⟩ := getElem?_of_forall₂ hm.built.functions.flip hall
  exact ⟨f,hf,function_type hp.functionNames hd hbody ▸ himpl.type⟩

theorem routine_at (hm : Parts o p m own rs) {k : Nat} (hr : rs[k]? = some r) :
    ∃ f, m.functions[p.functions.length + k]? = some f ∧ Implements m.types f (routineBody r) ∧
      List.Forall₂ (Means p m rs) (r.needs.map .routine)
        (f.code.calls (routineNumber ((programImports p).length + own.length) rs)) := by
  have hall : (own ++ rs.map routineBody)[p.functions.length + k]? = some (routineBody r) := by
    rw [hm.bodies.length_eq,List.getElem?_append_right (Nat.le_add_right ..),Nat.add_sub_cancel_left,
      List.getElem?_map,hr]
    rfl
  obtain ⟨f,hf,himpl⟩ := getElem?_of_forall₂ hm.built.functions.flip hall
  have hreached : Reached o p r := (hm.reached r).mp (List.mem_of_getElem? hr)
  refine ⟨f,hf,himpl,?_⟩
  rw [himpl.code]
  refine calls_routine r fun q hq => hm.means_routine ((hm.reached q).mpr (hreached.through ?_))
  rwa [routinesOf_code]

theorem importNames (hm : Parts o p m own rs) : m.imports.map (·.name) =
    ((p.functions.flatMap fun d => blockHosts d.body).map (·.importName)).eraseDups := by
  rw [← importName_distinctImports]
  refine List.forall₂_eq_eq_eq ▸ List.forall₂_map_left_iff.mpr (List.forall₂_map_right_iff.mpr ?_)
  exact hm.imports.imp fun _ _ he => he.2

theorem import_spec (hm : Parts o p m own rs) {e : Import} (he : e ∈ m.imports) :
    e.module = o.hostModule ∧ e.type < m.types.length := by
  obtain ⟨k,hk⟩ := List.mem_iff_getElem?.mp he
  obtain ⟨h,-,hmodule,-⟩ := getElem?_of_forall₂ hm.imports hk
  obtain ⟨t,-,htype⟩ := getElem?_of_forall₂ hm.built.imports hk
  exact ⟨hmodule,(List.getElem?_eq_some_iff.mp htype).1⟩

end Parts

theorem lower_functionSpace {strict : Prop} {policy : Policy} {image : Image} (hp : p.Typed strict policy)
    (hs : strict) (h : p.lower o = .ok image) : ∃ number rs,
      image.module.bytes? number = some image.bytes ∧ FunctionSpace o p image.module number rs := by
  obtain ⟨entry,own,pool,hentry,hown,-,hmodule,hbytes⟩ := lower_spec h
  let rs := neededRoutines own
  have hexports : image.module.exports = ⟨entryPoint, functionKind, entry.index⟩ ::
      if o.exportMemory then [⟨"memory", memoryKind, 0⟩] else [] := by
    rw [hmodule]
    rfl
  have hnodup : image.module.types.Nodup := by
    rw [hmodule]
    exact assemble_types_nodup ..
  have hm : Parts o p image.module own rs :=
    { built := hmodule ▸ assemble_built ..
      imports := hmodule ▸ assemble_imports ..
      bodies := bodies_spec hown
      reached := mem_neededRoutines_iff hown }
  have hindex : (context o p).linkage.user entryPoint = some entry.index := by
    show ((context o p).target? entryPoint).map (·.index) = _
    rw [hentry]
    rfl
  refine ⟨_,rs,hbytes,hm.importNames,fun e he => (hm.import_spec he).1,?_,fun k d hd => ?_,
    fun k r hr => hm.routine_at hr,List.filter_sublist,hm.reached,hnodup,
    fun e he => (hm.import_spec he).2,fun f hf => ?_,entry.index,hm.means_user hindex,hexports⟩
  · rw [hm.built.functions.length_eq,List.length_append,List.length_map,hm.bodies.length_eq]
  · obtain ⟨f,hf,htype⟩ := hm.function_at hp hd
    obtain ⟨f',hf',hrefers⟩ := function_refers h hd
    cases hf.symm.trans hf'
    exact ⟨f,hf,htype,hm.calls_function hp hs (List.mem_of_getElem? hd) hrefers⟩
  · obtain ⟨b,-,hb⟩ := hm.built.implements hf
    exact (List.getElem?_eq_some_iff.mp hb.type).1

end Lower

def Wasm.Listing.importInfo? (l : Listing) (e : Import) : Option ImportInfo :=
  (l.types[e.type]?.bind TypeEntry.type?).map fun t => ⟨e.module, e.name, t⟩

theorem Wasm.FuncType.type?_entry (t : FuncType) : t.entry.type? = some t := by
  have hbytes (ts : List ValType) : (ts.map ValType.byte).mapM ValType.ofByte? = some ts := by
    induction ts with
    | nil => rfl
    | cons t ts ih => simp [List.mapM_cons, ValType.ofByte?_byte, ih]
  simp [TypeEntry.type?, entry, hbytes]

theorem Metadata.importInfos_listed {m : Module} {number : String → Option Nat} {bs : List UInt8}
    (htypes : ∀ e ∈ m.imports, e.type < m.types.length) (h : m.bytes? number = some bs) :
    ∃ l, Listing.read bs = .ok l ∧ (importInfos m).map some = l.imports.map l.importInfo? := by
  obtain ⟨cs,hcs,-,rfl⟩ := Listing.coded_of_bytes? h
  refine ⟨_,Listing.read_sections m cs hcs,?_⟩
  have hinfo (e : Import) : (Listing.ofModule m cs).importInfo? e =
      m.types[e.type]?.map fun t => ⟨e.module, e.name, t⟩ := by
    have hentry : (Listing.ofModule m cs).types[e.type]? = m.types[e.type]?.map FuncType.entry :=
      List.getElem?_map
    rw [Listing.importInfo?,hentry]
    cases m.types[e.type]? with
    | none => rfl
    | some t => simp [FuncType.type?_entry]
  show (importInfos m).map some = m.imports.map (Listing.ofModule m cs).importInfo?
  rw [importInfos]
  generalize m.imports = es at htypes
  induction es with
  | nil => rfl
  | cons e es ih =>
    obtain ⟨he,hes⟩ := List.forall_mem_cons.mp htypes
    rw [List.map_cons,hinfo,List.filterMap_cons,List.getElem?_eq_getElem he,← ih hes]
    rfl

/-- The functions of an accepted program, its imports and its routines are numbered one after the other,
and every call has the number of the function it means. The metadata name the imports that the bytes do. -/
theorem Program.functions_numbered (z : Optimize.Solver) (o : Options) (p : Program) (hwritten : p.Written)
    (haccepted : (p.check o.shadowing).accepted = true) :
    (p.prepared z o).lower o ≠ .error (.gap .routine) ∧
    ∀ image, (p.prepared z o).lower o = .ok image →
      (∃ number rs, image.module.bytes? number = some image.bytes ∧
        Lower.FunctionSpace o (p.prepared z o) image.module number rs) ∧
      ∀ warnings, ∃ l, Listing.read image.bytes = .ok l ∧
        (Metadata.ofImage (p.prepared z o) image warnings).imports.map some = l.imports.map l.importInfo? := by
  have htyped := typed_of_accepted (z := z) haccepted
  refine ⟨fun hgap => ?_,fun image himage => ?_⟩
  · rcases lower_outcome (o := o) htyped hwritten (entry_prepared haccepted) with
      ⟨f,hfault,herror⟩ | ⟨-,⟨-,herror⟩ | ⟨-,image,hok⟩⟩
    · cases hgap.symm.trans herror
      exact absurd ((message?_fault hfault).mp rfl) nofun
    · cases hgap.symm.trans herror
    · cases hgap.symm.trans hok
  · obtain ⟨number,rs,hbytes,hspace⟩ := Lower.lower_functionSpace htyped hwritten himage
    exact ⟨⟨number,rs,hbytes,hspace⟩,fun warnings => Metadata.importInfos_listed hspace.importTypes hbytes⟩

/-- `fn run(s: String) -> Integer { log(s ++ "!"); return later(now()); }` and
`fn later(t: Integer) -> Integer { return t + get_current_time(); }` -/
def timed : Program :=
  let pos : Pos := .unknown
  let note : Note := ⟨pos, none⟩
  ⟨pos, [
    .function ⟨pos, "run", [⟨pos, "s", .string⟩], some .integer, .mk pos
      [.expr pos (.call note (.unresolved "log")
          [.binary note .concat (.name note "s" none) (.text note "!")]),
        .ret pos (some (.call note (.unresolved "later") [.call note (.unresolved "now") []]))], []⟩,
    .function ⟨pos, "later", [⟨pos, "t", .integer⟩], some .integer, .mk pos
      [.ret pos (some (.binary note .add (.name note "t" none)
        (.call note (.unresolved "get_current_time") [])))], []⟩], none⟩

theorem timed_written : timed.Written where
  functions := by
    rintro f (_ | ⟨_,_ | ⟨_,⟨⟩⟩⟩) <;> exact ⟨⟨by decide,by decide⟩,by simp [Block.Every, Stmt.EveryIn,
      Stmt.Every, Expr.Every, Expr.EveryIn, written]⟩
  records := by rintro r ⟨⟩
  constants := by rintro c ⟨⟩

theorem functions_numbered_timed : ∃ image, (timed.prepared unaided .default).lower .default = .ok image ∧
    image.module.imports.map (·.name) = ["host_log", "host_get_current_time"] ∧
    ∃ number rs, image.module.bytes? number = some image.bytes ∧
      Lower.FunctionSpace .default (timed.prepared unaided .default) image.module number rs := by
  have hok : ((timed.prepared unaided .default).lower .default).isOk = true := by decide
  cases himage : (timed.prepared unaided .default).lower .default with
  | error e =>
    rw [himage] at hok
    cases hok
  | ok image =>
    have hnumbered := Program.functions_numbered unaided .default timed timed_written (by decide)
    obtain ⟨⟨number,rs,hbytes,hspace⟩,-⟩ := hnumbered.2 image himage
    refine ⟨image,rfl,?_,number,rs,hbytes,hspace⟩
    rw [hspace.imports]
    decide

end Covenant
