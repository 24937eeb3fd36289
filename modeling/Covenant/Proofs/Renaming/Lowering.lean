import Covenant.Lower.Program
import Covenant.Proofs.Renaming.Types
import Covenant.Proofs.Tree.Walk

/-! Lowering renamed bodies. The code is the same, and so is what is collected on the way; a fault is the
same fault, renamed. -/

namespace Covenant

namespace Lower

open Wasm Memory

section

variable (ρ : Renaming)

def Fault.rename : Fault → Fault
  | .noEntryPoint f => .noEntryPoint (ρ.function f)
  | .dataTooLarge pages limit => .dataTooLarge pages limit
  | .jumpOutside jump pos => .jumpOutside jump (ρ.place pos)
  | .assignTarget pos => .assignTarget (ρ.place pos)
  | .unresolvedTarget x pos => .unresolvedTarget (ρ.var x) (ρ.place pos)
  | .unresolvedName x pos => .unresolvedName (ρ.var x) (ρ.place pos)
  | .unresolvedVariant o v pos => .unresolvedVariant (ρ.type o) (ρ.variant v) (ρ.place pos)
  | .unresolvedCall f pos => .unresolvedCall (ρ.function f) (ρ.place pos)
  | .unresolvedMethod pos => .unresolvedMethod (ρ.place pos)
  | .noConstant x => .noConstant (ρ.var x)
  | .noField r f => .noField (ρ.type r) (ρ.field f)
  | .noEquality t => .noEquality (t.rename ρ)
  | .textTooLong => .textTooLong
  | .gap g => .gap g

def Target.rename (t : Target) : Target := { t with name := ρ.function t.name }

def Context.rename (c : Context) : Context :=
  { c with
    records := c.records.map (RecordDecl.rename ρ)
    enums := c.enums.map (EnumDecl.rename ρ)
    targets := c.targets.map (Target.rename ρ)
    imports := c.imports.map (HostFunction.rename ρ)
    slots := c.slots.map (Ty.rename ρ) }

def relabel {α : Type} (m : M α) : M α := fun s => (m s).mapError (Fault.rename ρ)

def Operand.rename (a : Operand) : Operand := ⟨a.type.map (Ty.rename ρ), relabel ρ a.code⟩

end

variable {ρ : Renaming}

section Steps

variable {α β : Type}

theorem mapError_ok (a : α) : (Except.ok a).mapError (Fault.rename ρ) = .ok a := rfl

@[simp] theorem relabel_pure (a : α) : relabel ρ (pure a) = pure a := rfl

@[simp] theorem relabel_throw (f : Fault) : relabel ρ (throw f : M α) = throw (f.rename ρ) := rfl

@[simp] theorem relabel_bind (m : M α) (k : α → M β) :
    relabel ρ (m >>= k) = relabel ρ m >>= fun a => relabel ρ (k a) := by
  funext s
  simp only [relabel, bind, StateT.bind, Except.bind]
  cases m s <;> rfl

@[simp] theorem relabel_map (f : α → β) (m : M α) : relabel ρ (f <$> m) = f <$> relabel ρ m := by
  simp [← bind_pure_comp]

@[simp] theorem relabel_orGap (g : Gap) (a : Option α) : relabel ρ (orGap g a) = orGap g a := by
  cases a <;> rfl

theorem orGap_some (g : Gap) (a : α) : orGap g (some a) = pure a := rfl

@[simp] theorem orGap_map (g : Gap) (r : α → β) (a : Option α) : orGap g (a.map r) = r <$> orGap g a := by
  cases a <;> rfl

@[simp] theorem temp_rename (c : Context) (t : ValType) : temp (c.rename ρ) t = relabel ρ (temp c t) := by
  simp only [temp, Context.rename, List.length_map]
  rfl

@[simp] theorem relabel_intern (text : String) : relabel ρ (intern text) = intern text := by
  funext s
  rw [relabel,intern_eq]
  split <;> rfl

end Steps

namespace Context

variable (c : Context)

@[simp] theorem record?_rename [ρ.Faithful] (n : String) :
    (c.rename ρ).record? (ρ.type n) = (c.record? n).map (RecordDecl.rename ρ) := by
  simp only [record?, Context.rename, ← List.map_reverse]
  exact find?_rename (f := RecordDecl.rename ρ) (g := RecordDecl.name) ρ.type_injective (fun _ => rfl) n _

@[simp] theorem enum?_rename [ρ.Faithful] (n : String) :
    (c.rename ρ).enum? (ρ.type n) = (c.enum? n).map (EnumDecl.rename ρ) := by
  simp only [enum?, Context.rename, ← List.map_reverse]
  exact find?_rename (f := EnumDecl.rename ρ) (g := EnumDecl.name) ρ.type_injective (fun _ => rfl) n _

@[simp] theorem target?_rename [ρ.Faithful] (f : String) :
    (c.rename ρ).target? (ρ.function f) = (c.target? f).map (Target.rename ρ) := by
  simp only [target?, Context.rename, ← List.map_reverse]
  exact find?_rename (f := Target.rename ρ) (g := Target.name) ρ.function_injective (fun _ => rfl) f _

@[simp] theorem importIndex?_rename (h : HostFunction) : (c.rename ρ).importIndex? (h.rename ρ) = c.importIndex? h := by
  simp only [importIndex?, Context.rename, List.findIdx?_map]
  rfl

@[simp] theorem inside_rename (n : Nat) : (c.rename ρ).inside n = (c.inside n).rename ρ := rfl

@[simp] theorem insideLoop_rename : (c.rename ρ).insideLoop = c.insideLoop.rename ρ := rfl

end Context

@[simp] theorem pushes_rename [ρ.Faithful] (c : Context) (e : Expr) :
    pushes (c.rename ρ) (e.rename ρ) = pushes c e := by
  cases e with
  | call _ f _ =>
    cases f with
    | user f =>
      simp only [Expr.rename, Callee.rename, pushes, Context.target?_rename, Option.map_map]
      rfl
    | _ => rfl
  | select n => obtain ⟨_,_ | t⟩ := n <;> simp [Expr.rename, Note.rename, pushes]
  | block _ _ tail =>
    cases tail with
    | none => rfl
    | some e => exact pushes_rename c e
  | _ => rfl

mutual

theorem diverges_rename (e : Expr) : diverges (e.rename ρ) = diverges e := by
  cases e with
  | select _ _ as => exact allDiverge_rename as
  | block _ _ tail d =>
    cases tail with
    | none => rfl
    | some e => exact congrArg (d || ·) (diverges_rename e)
  | _ => rfl

@[simp] theorem allDiverge_rename : ∀ as : List Arm, allDiverge (Arm.renameIn ρ as) = allDiverge as
  | [] => rfl
  | .mk _ _ e :: as => congrArg₂ (· && ·) (diverges_rename e) (allDiverge_rename as)

end

@[simp] theorem length_renameIn (es : List Expr) : (Expr.renameIn ρ es).length = es.length := by
  induction es with
  | nil => rfl
  | cons e es ih => exact congrArg (· + 1) ih

@[simp] theorem equals_rename [ρ.Faithful] (t : Ty) : equals (t.rename ρ) = relabel ρ (equals t) := by
  simp only [equals, Ty.isNumeric_rename, Ty.isEnum_rename, Ty.rename_eq_boolean, Ty.rename_eq_string,
    Ty.rename_eq_did]
  (repeat' split) <;> rfl

@[simp] theorem operator_rename [ρ.Faithful] (op : BinaryOp) (left : Option Ty) :
    operator op (left.map (Ty.rename ρ)) = relabel ρ (operator op left) := by
  cases op <;> simp [operator]

theorem value_relabel (v : Value) : relabel ρ (value v) = value v := by
  cases v with
  | text s => simp [value]
  | _ => rfl

theorem name_rename (pos : Pos) (x : String) (sym : Option Symbol) :
    name (ρ.place pos) (ρ.var x) (sym.map (Symbol.rename ρ)) = relabel ρ (name pos x sym) := by
  cases sym with
  | none => rfl
  | some sym =>
    obtain ⟨y,t,m,k,slot,v⟩ := sym
    cases k with
    | constant =>
      cases v with
      | none => rfl
      | some v => exact (value_relabel v).symm
    | _ => cases slot <;> rfl

@[simp] theorem fieldOffset_rename [ρ.Faithful] (c : Context) (type : Option Ty) (f : String) :
    fieldOffset (c.rename ρ) (type.map (Ty.rename ρ)) (ρ.field f) = relabel ρ (fieldOffset c type f) := by
  cases type with
  | none => rfl
  | some t =>
    cases t with
    | record r =>
      simp [Option.map_some, Ty.rename, fieldOffset, orGap_some, pure_bind, RecordDecl.fieldIndex?_rename]
      congr 1
      funext d
      cases d.fieldIndex? f <;> rfl
    | _ => rfl

@[simp] theorem elementAddress_rename (c : Context) (a i : M (List Instr)) :
    elementAddress (c.rename ρ) (relabel ρ a) (relabel ρ i) = relabel ρ (elementAddress c a i) := by
  simp [elementAddress]

theorem elementType_rename (a i : Option Ty) :
    elementType (a.map (Ty.rename ρ)) (i.map (Ty.rename ρ)) = Ty.rename ρ <$> relabel ρ (elementType a i) := by
  cases a with
  | none => rfl
  | some t =>
    cases t with
    | array t =>
      simp only [Option.map_some, Ty.rename, elementType, orGap_some, pure_bind, Ty.hasHole_rename]
      cases t.hasHole with
      | true => cases i <;> rfl
      | false => rfl
    | _ => rfl

theorem push_rename (c : Context) (a i : Operand) :
    push (c.rename ρ) (a.rename ρ) (i.rename ρ) = relabel ρ (push c a i) := by
  simp [push, Operand.rename, elementType_rename]

theorem pop_rename (c : Context) (a : Operand) : pop (c.rename ρ) (a.rename ρ) = relabel ρ (pop c a) := by
  simp [pop, Operand.rename]

theorem contains_rename [ρ.Faithful] (c : Context) (a i : Operand) :
    contains (c.rename ρ) (a.rename ρ) (i.rename ρ) = relabel ρ (contains c a i) := by
  simp [contains, Operand.rename, elementType_rename]

theorem builtin_rename [ρ.Faithful] (c : Context) (op : Builtin) (args : List Operand) :
    builtin (c.rename ρ) op (args.map (Operand.rename ρ)) = relabel ρ (builtin c op args) := by
  cases args with
  | nil => cases op <;> rfl
  | cons a args =>
    cases args with
    | nil =>
      cases op with
      | arrayLen | stringLen =>
        simp [List.map_cons, builtin, Operand.rename]
      | arrayPop => exact pop_rename c a
      | _ => rfl
    | cons b args =>
      cases op with
      | arrayLen | stringLen | stringConcat =>
        simp [List.map_cons, builtin, Operand.rename]
      | arrayPush => exact push_rename c a b
      | arrayPop => exact pop_rename c a
      | arrayContains => exact contains_rename c a b

@[simp] theorem patternTest_rename [ρ.Faithful] (c : Context) (subject : Nat) (p : PatternForm) :
    patternTest (c.rename ρ) subject (p.rename ρ) = relabel ρ (patternTest c subject p) := by
  cases p with
  | bool b => cases b <;> rfl
  | text s => simp [PatternForm.rename, patternTest]
  | enum o v =>
    simp [PatternForm.rename, patternTest, EnumDecl.tag?_rename]
  | _ => rfl

@[simp] theorem bindPattern_rename (c : Context) (subject : Nat) (p : PatternForm) :
    bindPattern (c.rename ρ) subject (p.rename ρ) = relabel ρ (bindPattern c subject p) := by
  rw [bindPattern,bindPattern,PatternForm.binder?_rename,PatternForm.isCatchAll_rename]
  cases p.binder? with
  | none => rfl
  | some b =>
    obtain ⟨x,slot⟩ := b
    cases slot with
    | none => rfl
    | some slot =>
      simp only [Option.map_some, Binder.rename, Context.rename, List.getElem?_map]
      split
      · rfl
      · simp

mutual

theorem expr_rename [ρ.Faithful] (c : Context) : ∀ e : Expr,
    expr (c.rename ρ) (e.rename ρ) = relabel ρ (expr c e)
  | .text _ s => by simp [Expr.rename, expr]
  | .int _ _ | .bool _ _ | .enum _ _ _ none | .enum _ _ _ (some _) => rfl
  | .name n x sym => name_rename n.pos x sym
  | .unary _ op e => by
    cases op <;> simp [Expr.rename, expr, expr_rename c e]
  | .binary _ op a b => by
    cases op <;> simp [Expr.rename, expr, expr_rename c a, expr_rename c b, expr_rename (c.inside 1) b]
  | .call _ (.builtin op) args => by
    simp only [Expr.rename, Callee.rename, expr, operands_rename c args, builtin_rename]
  | .call _ (.user f) args => by
    simp [Expr.rename, Callee.rename, expr, exprs_rename c args]
    rfl
  | .call _ (.host h) args => by simp [Expr.rename, Callee.rename, expr, exprs_rename c args]
  | .call _ (.unresolved f) args => by
    simp [Expr.rename, Callee.rename, expr, exprs_rename c args]
    rfl
  | .method _ e _ args (some op) => by
    have hargs := builtin_rename (ρ := ρ) c op (⟨e.type,expr c e⟩ :: operands c args)
    simp only [List.map_cons, Operand.rename] at hargs
    simp [Expr.rename, expr, expr_rename c e, operands_rename c args, hargs]
  | .method _ _ _ _ none => rfl
  | .array _ es => by
    simp [Expr.rename, expr, elements_rename c es]
    rfl
  | .index n a i => by simp [Expr.rename, Note.rename, expr, expr_rename c a, expr_rename c i]
  | .field n e f => by simp [Expr.rename, Note.rename, expr, expr_rename c e]
  | .record _ x fs => by
    have hlength (d : RecordDecl) : (d.rename ρ).fields.length = d.fields.length := List.length_map _
    simp [Expr.rename, expr, fields_rename c fs, hlength]
  | .wrap _ _ e => by simp [Expr.rename, expr, expr_rename c e]
  | .noneLit _ => by simp [Expr.rename, expr]
  | .select n e as => by
    have hpushes : pushes (c.rename ρ) (.select (n.rename ρ) (e.rename ρ) (Arm.renameIn ρ as)) =
        pushes c (.select n e as) := pushes_rename c (.select n e as)
    have hout : (n.rename ρ).type.map Ty.valType = n.type.map Ty.valType := by
      simp [Note.rename, Function.comp_def]
    simp [Expr.rename, expr, expr_rename c e, hpushes, hout, arms_rename c as]
  | .block _ ss none _ => stmts_rename c ss
  | .block _ ss (some e) _ => by simp [Expr.rename, expr, stmts_rename c ss, expr_rename c e]

theorem exprs_rename [ρ.Faithful] (c : Context) : ∀ es : List Expr,
    exprs (c.rename ρ) (Expr.renameIn ρ es) = relabel ρ (exprs c es)
  | [] => rfl
  | e :: es => by simp [Expr.renameIn, exprs, expr_rename c e, exprs_rename c es]

theorem operands_rename [ρ.Faithful] (c : Context) : ∀ es : List Expr,
    operands (c.rename ρ) (Expr.renameIn ρ es) = (operands c es).map (Operand.rename ρ)
  | [] => rfl
  | e :: es => by simp [Expr.renameIn, operands, expr_rename c e, operands_rename c es, Operand.rename]

theorem elements_rename [ρ.Faithful] (c : Context) : ∀ (es : List Expr) (a i : Nat),
    elements (c.rename ρ) a i (Expr.renameIn ρ es) = relabel ρ (elements c a i es)
  | [], _, _ => rfl
  | e :: es, a, i => by simp [Expr.renameIn, elements, expr_rename c e, elements_rename c es a (i + 1)]

theorem fields_rename [ρ.Faithful] (c : Context) : ∀ (fs : List FieldInit) (d : RecordDecl) (a : Nat),
    fields (c.rename ρ) (d.rename ρ) a (FieldInit.renameIn ρ fs) = relabel ρ (fields c d a fs)
  | [], _, _ => rfl
  | .mk _ f e :: fs, d, a => by
    simp [FieldInit.renameIn, fields, expr_rename c e]
    congr 1
    funext x
    cases d.fieldIndex? f with
    | none => simp [RecordDecl.rename, Fault.rename]
    | some i =>
      have hfield : (d.rename ρ).fields[i]? = (d.fields[i]?).map (FieldDecl.rename ρ) := List.getElem?_map
      simp [hfield, FieldDecl.rename, fields_rename c fs d a]

theorem arms_rename [ρ.Faithful] (c : Context) : ∀ (as : List Arm) (subject : Nat) (out : BlockType),
    arms (c.rename ρ) subject out (Arm.renameIn ρ as) = relabel ρ (arms c subject out as)
  | [], _, _ => rfl
  | .mk _ p e :: as, subject, out => by
    simp only [Arm.renameIn, arms, Pattern.rename, PatternForm.isCatchAll_rename]
    split
    · simp [expr_rename c e]
    · simp [expr_rename (c.inside 1) e, arms_rename (c.inside 1) as]

theorem stmt_rename [ρ.Faithful] (c : Context) : ∀ s : Stmt,
    stmt (c.rename ρ) (s.rename ρ) = relabel ρ (stmt c s)
  | .bind _ _ _ e slot => by simp [Stmt.rename, stmt, expr_rename c e]
  | .assign p t e => by
    have he := expr_rename c e
    cases t with
    | name n x sym =>
      obtain none | ⟨y,t,m,k,none | slot,v⟩ := sym
      · rfl
      · rfl
      · simp [Stmt.rename, Expr.rename, Symbol.rename, stmt, he]
    | field n r f =>
      simp [Stmt.rename, Expr.rename, Note.rename, stmt, expr_rename c r, he]
    | index n a i =>
      simp [Stmt.rename, Expr.rename, Note.rename, stmt, expr_rename c a, expr_rename c i, he]
    | block n ss tail d => cases tail <;> rfl
    | _ => rfl
  | .ret _ none => rfl
  | .ret _ (some e) => by simp [Stmt.rename, stmt, expr_rename c e]
  | .expr _ e => by simp [Stmt.rename, stmt, expr_rename c e]
  | .cond _ ch => by simp [Stmt.rename, stmt, chain_rename c ch]
  | .loop _ e b => by simp [Stmt.rename, stmt, expr_rename (c.inside 2) e, block_rename c.insideLoop b]
  | .each _ _ e b slot => by
    have hslots (i : Nat) : (c.rename ρ).slots[i]? = (c.slots[i]?).map (Ty.rename ρ) := List.getElem?_map
    simp [Stmt.rename, stmt, hslots, expr_rename c e, block_rename c.insideLoop b]
  | .leave pos | .next pos => by
    simp only [Stmt.rename, stmt, Context.rename]
    cases c.loop <;> rfl

theorem stmts_rename [ρ.Faithful] (c : Context) : ∀ ss : List Stmt,
    stmts (c.rename ρ) (Stmt.renameIn ρ ss) = relabel ρ (stmts c ss)
  | [] => rfl
  | s :: ss => by simp [Stmt.renameIn, stmts, stmt_rename c s, stmts_rename c ss]

theorem block_rename [ρ.Faithful] (c : Context) : ∀ b : Block,
    block (c.rename ρ) (b.rename ρ) = relabel ρ (block c b)
  | .mk _ ss => stmts_rename c ss

theorem chain_rename [ρ.Faithful] (c : Context) : ∀ ch : Chain,
    chain (c.rename ρ) (ch.rename ρ) = relabel ρ (chain c ch)
  | .stop => rfl
  | .otherwise b => by simp [Chain.rename, chain, block_rename c b]
  | .branch _ e b rest => by
    simp [Chain.rename, chain, expr_rename c e, block_rename (c.inside 1) b, chain_rename (c.inside 1) rest]

end

abbrev HostsRenamed (ρ : Renaming) (hs gs : List HostFunction) : Prop := hs = gs.map (HostFunction.rename ρ)

theorem HostsRenamed.append {hs hs' gs gs' : List HostFunction} (h : HostsRenamed ρ hs gs)
    (h' : HostsRenamed ρ hs' gs') : HostsRenamed ρ (hs ++ hs') (gs ++ gs') := by
  rw [HostsRenamed,h,h',List.map_append]

theorem hosts_rename : Walk .any (fun _ e => HostsRenamed ρ ((e.rename ρ).gather hosts) (e.gather hosts))
    (fun _ s => HostsRenamed ρ ((s.rename ρ).gather hosts) (s.gather hosts))
    (fun _ ss => HostsRenamed ρ (Stmt.gatherIn hosts (Stmt.renameIn ρ ss)) (Stmt.gatherIn hosts ss))
    (fun _ b => HostsRenamed ρ ((b.rename ρ).gather hosts) (b.gather hosts))
    (fun _ c => HostsRenamed ρ ((c.rename ρ).gather hosts) (c.gather hosts)) where
  int _ := rfl
  bool _ := rfl
  text _ := rfl
  name _ := rfl
  unary _ he := he
  binary _ ha hb := ha.append hb
  call {_ _ f es} _ hes := by
    have hargs : HostsRenamed ρ (Expr.gatherIn hosts (Expr.renameIn ρ es)) (Expr.gatherIn hosts es) :=
      parts_walk es hes rfl fun _ _ he hes => he.append hes
    cases f with
    | host h => exact congrArg (h.rename ρ :: ·) hargs
    | _ => exact hargs
  method {_ _ _ _ es _} _ he hes := he.append (parts_walk es hes rfl fun _ _ he hes => he.append hes)
  array {_ _ es} _ hes := parts_walk es hes rfl fun _ _ he hes => he.append hes
  index _ ha hi := ha.append hi
  field _ he := he
  record {_ _ _ fs} _ hfs := parts_walk fs hfs rfl fun (.mk ..) _ hf hfs => hf.append hfs
  wrap _ he := he
  noneLit _ := rfl
  enum _ := rfl
  select {_ _ _ as} _ he has := he.append (parts_walk as has rfl fun (.mk ..) _ ha has => ha.append has)
  block _ hss := hss
  tail _ hss he := hss.append he
  bind _ he := he
  assignName _ he := he
  assignField _ ht he := ht.append he
  assignIndex _ ht hi he := (ht.append hi).append he
  assignOther _ _ ht he := ht.append he
  ret _ := rfl
  retValue _ he := he
  expr _ he := he
  cond _ hc := hc
  loop _ he hb := he.append hb
  each _ he hb := he.append hb
  leave _ := rfl
  next _ := rfl
  nil := rfl
  cons _ hs hss := hs.append hss
  body hss := hss
  stop := rfl
  otherwise hb := hb
  branch _ he hb hc := he.append (hb.append hc)

theorem distinctImports_rename (hs : List HostFunction) :
    distinctImports (hs.map (HostFunction.rename ρ)) = (distinctImports hs).map (HostFunction.rename ρ) := by
  induction hs with
  | nil => rfl
  | cons h hs ih =>
    rw [List.map_cons,distinctImports,distinctImports,ih,List.filter_map]
    rfl

theorem filterMap_rename {α : Type} {f : Item → Option α} {g : α → α}
    (h : ∀ i : Item, f (i.rename ρ) = (f i).map g) (p : Program) :
    (p.rename ρ).items.filterMap f = (p.items.filterMap f).map g := by
  rw [Program.rename,List.filterMap_map,List.map_filterMap]
  exact congrArg (List.filterMap · p.items) (funext h)

theorem functions_rename (p : Program) : (p.rename ρ).functions = p.functions.map (FunctionDecl.rename ρ) :=
  filterMap_rename (fun i => by cases i <;> rfl) p

theorem records_rename (p : Program) : (p.rename ρ).records = p.records.map (RecordDecl.rename ρ) :=
  filterMap_rename (fun i => by cases i <;> rfl) p

theorem enums_rename (p : Program) : (p.rename ρ).enums = p.enums.map (EnumDecl.rename ρ) :=
  filterMap_rename (fun i => by cases i <;> rfl) p

theorem programImports_rename (p : Program) :
    programImports (p.rename ρ) = (programImports p).map (HostFunction.rename ρ) := by
  rw [programImports,programImports,functions_rename,← distinctImports_rename,List.flatMap_map,List.map_flatMap]
  congr 2
  funext f
  exact hosts_rename.onBlock f.body (f.body.every_any false)

theorem signature_rename (params : List Ty) (result : Option Ty) :
    signature (params.map (Ty.rename ρ)) (result.map (Ty.rename ρ)) = signature params result := by
  cases result <;> simp [signature, Function.comp_def]

theorem targets_rename (base : Nat) (fs : List FunctionDecl) :
    targets base (fs.map (FunctionDecl.rename ρ)) = (targets base fs).map (Target.rename ρ) := by
  rw [targets,targets,List.zipIdx_map,List.map_map,List.map_map]
  congr 1
  funext r
  obtain ⟨f,i⟩ := r
  have hparams : (f.rename ρ).params.map (·.type) = (f.params.map (·.type)).map (Ty.rename ρ) := by
    simp [FunctionDecl.rename, Param.rename]
  have hsignature := signature_rename (ρ := ρ) (f.params.map (·.type)) f.result
  rw [← hparams] at hsignature
  exact congrArg (Target.mk (ρ.function f.name) (base + i)) hsignature

theorem context_rename (o : Options) (p : Program) : context o (p.rename ρ) = (context o p).rename ρ := by
  simp only [context, Context.rename, programImports_rename, records_rename, enums_rename, functions_rename,
    targets_rename, List.length_map, List.map_nil]

theorem function_rename [ρ.Faithful] (c : Context) (d : FunctionDecl) (pool : Pool) :
    function (c.rename ρ) (d.rename ρ) pool = (function c d pool).mapError (Fault.rename ρ) := by
  have hcontext : { c.rename ρ with slots := (d.rename ρ).slots, depth := 0, loop := none } =
      Context.rename ρ { c with slots := d.slots, depth := 0, loop := none } := rfl
  have hbody := congrFun (block_rename (ρ := ρ) { c with slots := d.slots, depth := 0, loop := none } d.body)
    ⟨pool,#[]⟩
  have htarget := Context.target?_rename (ρ := ρ) { c with slots := d.slots, depth := 0, loop := none } d.name
  have hlocals : ((d.rename ρ).slots.drop (d.rename ρ).params.length).map Ty.valType =
      (d.slots.drop d.params.length).map Ty.valType := by
    simp [FunctionDecl.rename, ← List.map_drop, Function.comp_def]
  have hresult : (d.rename ρ).result.isSome = d.result.isSome := Option.isSome_map
  have hname : (d.rename ρ).name = ρ.function d.name := rfl
  have htree : (d.rename ρ).body = d.body.rename ρ := rfl
  simp only [function, StateT.run, hcontext, hname, htree, hbody, htarget, hlocals, hresult, relabel]
  cases block { c with slots := d.slots, depth := 0, loop := none } d.body ⟨pool,#[]⟩ with
  | error f => rfl
  | ok r =>
    obtain ⟨code,s⟩ := r
    cases Context.target? { c with slots := d.slots, depth := 0, loop := none } d.name <;> rfl

theorem bodies_rename [ρ.Faithful] (c : Context) (ds : List FunctionDecl) (pool : Pool) :
    bodies (c.rename ρ) (ds.map (FunctionDecl.rename ρ)) pool =
      (bodies c ds pool).mapError (Fault.rename ρ) := by
  induction ds generalizing pool with
  | nil => rfl
  | cons d ds ih =>
    rw [List.map_cons,bodies,bodies,function_rename]
    cases function c d pool with
    | error f => rfl
    | ok r =>
      obtain ⟨b,pool⟩ := r
      have hrest := ih pool
      simp only [mapError_ok, bind, Except.bind, hrest]
      cases bodies c ds pool <;> rfl

theorem assemble_rename (o : Options) (imports : List HostFunction) (entry : Nat) (bs : List Body)
    (pool : Pool) :
    assemble o (imports.map (HostFunction.rename ρ)) entry bs pool = assemble o imports entry bs pool := by
  rw [assemble,List.foldl_map]
  rfl

end Lower

variable {ρ : Renaming}

theorem Program.lower_rename [ρ.Faithful] (o : Options) (p : Program) :
    (p.rename ρ).lower o = (p.lower o).mapError (Lower.Fault.rename ρ) := by
  have hentry := (Lower.context o p).target?_rename (ρ := ρ) entryPoint
  rw [ρ.entry_fixed] at hentry
  have hbodies := Lower.bodies_rename (ρ := ρ) (Lower.context o p) p.functions .empty
  simp only [lower, Lower.context_rename, hentry, Lower.functions_rename, hbodies]
  have hindex (t : Lower.Target) : (t.rename ρ).index = t.index := rfl
  have himports : ((Lower.context o p).rename ρ).imports =
      (Lower.context o p).imports.map (HostFunction.rename ρ) := rfl
  cases (Lower.context o p).target? entryPoint with
  | none =>
    have hfault : (Lower.Fault.noEntryPoint entryPoint).rename ρ = .noEntryPoint entryPoint :=
      congrArg Lower.Fault.noEntryPoint ρ.entry_fixed
    exact congrArg Except.error hfault.symm
  | some entry =>
    cases Lower.bodies (Lower.context o p) p.functions .empty with
    | error f => rfl
    | ok r =>
      obtain ⟨own,pool⟩ := r
      simp only [Option.map_some, Lower.mapError_ok, bind, Except.bind, himports, hindex,
        Lower.assemble_rename, List.length_map]
      split
      · rfl
      · split <;> rfl

end Covenant
