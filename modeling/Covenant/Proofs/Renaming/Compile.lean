import Covenant.Proofs.Lower.Validity
import Covenant.Proofs.Renaming.Lowering
import Covenant.Proofs.Renaming.Names
import Covenant.Proofs.Renaming.Optimizing
import Covenant.Proofs.Renaming.Program

/-! Compiling depends on names only up to equality, and on places and the header of a contract not at all. -/

namespace Covenant

variable {ρ : Renaming}

/-- What is left of a fault without its names, types and places. -/
def Lower.Fault.bare : Fault → Fault
  | .noEntryPoint _ => .noEntryPoint ""
  | .dataTooLarge pages limit => .dataTooLarge pages limit
  | .jumpOutside jump _ => .jumpOutside jump .unknown
  | .assignTarget _ => .assignTarget .unknown
  | .unresolvedTarget _ _ => .unresolvedTarget "" .unknown
  | .unresolvedName _ _ => .unresolvedName "" .unknown
  | .unresolvedVariant _ _ _ => .unresolvedVariant "" "" .unknown
  | .unresolvedCall _ _ => .unresolvedCall "" .unknown
  | .unresolvedMethod _ => .unresolvedMethod .unknown
  | .noConstant _ => .noConstant ""
  | .noField _ _ => .noField "" ""
  | .noEquality _ => .noEquality .error
  | .textTooLong => .textTooLong
  | .gap g => .gap g

theorem Lower.Fault.bare_rename (f : Fault) : (f.rename ρ).bare = f.bare := by
  cases f <;> rfl

/-- A compilation accepts with the bytes of a module, or refuses with the kinds of its errors in order. -/
inductive Compilation where
  | accepted (bytes : List UInt8)
  | refused (kinds : List ProblemKind)
  | stray
  | faulty (fault : Lower.Fault)
  | unread
  deriving DecidableEq, Repr

def Compilation.of : Except CompileFault Compiled → Compilation
  | .ok c => .accepted c.bytes
  | .error (.check errors) => .refused (errors.map (·.problem.kind))
  | .error .stray => .stray
  | .error (.lower fault) => .faulty fault.bare
  | .error (.grammar _) => .unread

def Compilation.isAccepted : Compilation → Bool
  | .accepted _ => true
  | _ => false

def Compilation.ofImage : Except Lower.Fault Lower.Image → Compilation
  | .ok image => .accepted image.bytes
  | .error fault => .faulty fault.bare

theorem Compilation.ofImage_mapError (r : Except Lower.Fault Lower.Image) :
    ofImage (r.mapError (Lower.Fault.rename ρ)) = ofImage r := by
  cases r with
  | ok image => rfl
  | error f => exact congrArg faulty f.bare_rename

namespace Program

variable (z : Optimize.Solver) (o : Options) (p : Program)

theorem compilation_eq : Compilation.of (p.compile z o) =
    if (p.check o.shadowing).strayReturn then .stray
    else if !(p.check o.shadowing).errors.isEmpty then
      .refused ((p.check o.shadowing).errors.map (·.problem.kind))
    else .ofImage ((p.prepared z o).lower o) := by
  simp only [compile]
  split
  · rfl
  · split
    · rfl
    · split <;> rename_i h <;> rw [prepared,h] <;> rfl

theorem prepared_rename [ρ.Faithful] : (p.rename ρ).prepared z o = (p.prepared z o).rename ρ := by
  rw [prepared,prepared,check_rename,Checked.rename,optimize_rename]
  split <;> rfl

theorem compilation_rename [ρ.Faithful] :
    Compilation.of ((p.rename ρ).compile z o) = Compilation.of (p.compile z o) := by
  have hkinds (es : List Diagnostic) :
      (es.map (Diagnostic.rename ρ)).map (·.problem.kind) = es.map (·.problem.kind) := by
    rw [List.map_map]
    exact List.map_congr_left fun d _ => d.problem.kind_rename ρ
  rw [compilation_eq,compilation_eq,check_rename,prepared_rename,lower_rename,
    Compilation.ofImage_mapError,Checked.rename,hkinds,List.isEmpty_map]

theorem compilation_header (h : Option ContractHeader) :
    Compilation.of ({ p with contract := h }.compile z o) = Compilation.of (p.compile z o) := by
  have hprepared : ({ p with contract := h }.prepared z o).lower o = (p.prepared z o).lower o := by
    rw [prepared,prepared]
    split <;> rfl
  rw [compilation_eq,compilation_eq,hprepared]
  rfl

/-- Where things stand does not matter, nor what the header says. -/
theorem compilation_of_items {p q : Program}
    (h : q.items.map (Item.rename .placeless) = p.items.map (Item.rename .placeless)) :
    Compilation.of (q.compile z o) = Compilation.of (p.compile z o) := by
  have hq : q.rename .placeless = { p.rename .placeless with contract := q.contract } := by
    simp only [Program.rename, h]
    rfl
  rw [← compilation_rename (ρ := .placeless) z o q,hq,compilation_header,compilation_rename]

/-- The second program is the first with the names that the renaming gives; its places and the header of its
contract may be any. -/
def Alike (ρ : Renaming) (p q : Program) : Prop :=
  q.items.map (Item.rename .placeless) = (p.items.map (Item.rename ρ)).map (Item.rename .placeless)

end Program

namespace Phrase

theorem flatItems_append (is : List Item) (ps : List Phrase) :
    flatItems (is.map .item ++ ps) = is ++ flatItems ps := by
  induction is with
  | nil => rfl
  | cons i is ih => exact congrArg (i :: ·) ih

theorem flatItems_items (is : List Item) : flatItems (is.map .item) = is := by
  simpa [flatItems] using flatItems_append is []

theorem contracts_append (is : List Item) (ps : List Phrase) :
    contracts (is.map .item ++ ps) = contracts ps := by
  induction is with
  | nil => rfl
  | cons i is ih => exact ih

theorem contracts_items (is : List Item) : contracts (is.map .item) = [] := by
  simpa [contracts] using contracts_append is []

def ofField (f : Token × String) : Phrase := .contractField f.1 f.2

theorem filterMap_contractField? (fields : List (Token × String)) (is : List Item) :
    (fields.map ofField ++ is.map item).filterMap contractField? = fields := by
  induction fields with
  | nil => simp [List.filterMap_map, Function.comp_def, contractField?]
  | cons f fields ih => exact congrArg (f :: ·) ih

theorem filterMap_item? (fields : List (Token × String)) (is : List Item) :
    (fields.map ofField ++ is.map item).filterMap item? = is := by
  induction fields with
  | nil => simp [List.filterMap_map, Function.comp_def, item?]
  | cons f fields ih => exact ih

end Phrase

namespace Build

def AreItems (ts : List Tree) (is : List Item) : Prop := ofTrees ts = .ok (is.map .item)

def AreFields (ts : List Tree) (fields : List (Token × String)) : Prop :=
  ofTrees ts = .ok (fields.map .ofField) ∧ duplicateField? [] fields = none

variable {is : List Item} {ts : List Tree}

theorem ofTrees_cons {t : Tree} {p : Phrase} {ps : List Phrase} (ht : ofTree t = .ok p)
    (hts : ofTrees ts = .ok ps) : ofTrees (t :: ts) = .ok (p :: ps) := by
  rw [ofTrees,ht,hts]
  rfl

theorem ofTrees_append (ts us : List Tree) : ofTrees (ts ++ us) = (do
    let ps ← ofTrees ts
    let qs ← ofTrees us
    return ps ++ qs) := by
  induction ts with
  | nil =>
    cases h : ofTrees us <;> rw [List.nil_append,h] <;> rfl
  | cons t ts ih =>
    rw [List.cons_append,ofTrees,ih,ofTrees]
    cases ofTree t with
    | error e => rfl
    | ok p => cases ofTrees ts <;> cases ofTrees us <;> rfl

theorem AreItems.append {us : List Tree} {js : List Item} (ht : AreItems ts is) (hu : AreItems us js) :
    AreItems (ts ++ us) (is ++ js) := by
  rw [AreItems,ofTrees_append,ht,hu,List.map_append]
  rfl

theorem ofTree_plain (h : AreItems ts is) (pos start : Pos) :
    ofTree (.node .program pos start ts) = .ok (.program ⟨pos,is,none⟩) := by
  rw [ofTree,h]
  simp only [bind, Except.bind, phrase, declaration, program, Phrase.contracts_items, Phrase.flatItems_items]
  rfl

theorem ofTree_contract {fs : List Tree} {fields : List (Token × String)}
    (h : AreItems ts is) (hf : AreFields fs fields) (n : Token) (pos start : Pos) :
    ofTree (.node .contractDef pos start (.leaf n :: (fs ++ ts))) = .ok (.contract n fields is) := by
  have hparts : ofTrees (fs ++ ts) = .ok (fields.map .ofField ++ is.map .item) := by
    rw [ofTrees_append,hf.1,h]
    rfl
  rw [ofTree,ofTrees_cons rfl hparts]
  simp only [bind, Except.bind, phrase, declaration, Phrase.filterMap_contractField?, hf.2,
    Phrase.filterMap_item?]

theorem ofTree_wrapped {as bs fs : List Tree} {js ks : List Item} {fields : List (Token × String)}
    (ha : AreItems as is) (ht : AreItems ts js) (hb : AreItems bs ks) (hf : AreFields fs fields) (n : Token)
    (pos start place begin : Pos) : ofTree (.node .program pos start
      (as ++ .node .contractDef place begin (.leaf n :: (fs ++ ts)) :: bs)) =
        .ok (.program ⟨pos,is ++ (js ++ ks),some (header (n,fields))⟩) := by
  have hparts : ofTrees (as ++ .node .contractDef place begin (.leaf n :: (fs ++ ts)) :: bs) =
      .ok (is.map .item ++ .contract n fields js :: ks.map .item) := by
    rw [ofTrees_append,ha,ofTrees_cons (ofTree_contract ht hf n place begin) hb]
    rfl
  have hitems : Phrase.flatItems (is.map .item ++ .contract n fields js :: ks.map .item) =
      is ++ (js ++ ks) := by
    rw [Phrase.flatItems_append,Phrase.flatItems,Phrase.flatItems_items]
  have hcontracts : Phrase.contracts (is.map .item ++ .contract n fields js :: ks.map .item) =
      [(n,fields)] := by
    rw [Phrase.contracts_append,Phrase.contracts,Phrase.contracts_items]
  rw [ofTree,hparts]
  simp only [bind, Except.bind, phrase, declaration, program, hcontracts, hitems]
  rfl

end Build

/-- The names that a program gives, the places in it and a contract block around its items leave no trace in
its module, nor in what is wrong with it. -/
theorem Program.compile_up_to_names (z : Optimize.Solver) (o : Options) :
    (∀ (ρ : Renaming) (p q : Program), ρ.Suits p.labels → p.Alike ρ q →
      Compilation.of (q.compile z o) = Compilation.of (p.compile z o)) ∧
    ∀ (as ts bs fs : List Tree) (is js ks : List Item) (fields : List (Token × String)),
      Build.AreItems as is → Build.AreItems ts js → Build.AreItems bs ks → Build.AreFields fs fields →
      ∀ (n : Token) (pos pos' start start' place begin : Pos), ∃ p q : Program,
        Build.ofTree (.node .program pos start (as ++ (ts ++ bs))) = .ok (.program p) ∧
        Build.ofTree (.node .program pos' start'
          (as ++ .node .contractDef place begin (.leaf n :: (fs ++ ts)) :: bs)) = .ok (.program q) ∧
        q.items = p.items ∧ Compilation.of (q.compile z o) = Compilation.of (p.compile z o) := by
  constructor
  · intro ρ p q hρ hq
    obtain ⟨σ,_,hplace,hagrees⟩ := hρ.exists_faithful
    have hsame : p.rename ρ = p.rename σ := Renaming.Agrees.program hplace p hagrees
    calc Compilation.of (q.compile z o)
      _ = Compilation.of ((p.rename ρ).compile z o) := compilation_of_items (p := p.rename ρ) z o hq
      _ = Compilation.of ((p.rename σ).compile z o) := by rw [hsame]
      _ = Compilation.of (p.compile z o) := compilation_rename z o p
  · intro as ts bs fs is js ks fields ha ht hb hf n pos pos' start start' place begin
    exact ⟨⟨pos,is ++ (js ++ ks),none⟩,⟨pos',is ++ (js ++ ks),some (Build.header (n,fields))⟩,
      Build.ofTree_plain (ha.append (ht.append hb)) pos start,
      Build.ofTree_wrapped ha ht hb hf n pos' start' place begin,rfl,compilation_of_items z o rfl⟩

/-- A purse that is open or shut. -/
def keeping (pos : Pos) (fee keep purse mode held opened shut : String) (contract : Option ContractHeader) :
    Program :=
  let note : Note := ⟨pos, none⟩
  ⟨pos, [.constant ⟨pos, fee, .integer, .int note 3⟩,
    .record ⟨pos, purse, [⟨pos, held, .integer⟩]⟩,
    .enum ⟨pos, mode, [opened, shut]⟩,
    .function ⟨pos, keep, [⟨pos, "p", .record purse⟩, ⟨pos, "m", .record mode⟩], some .integer, .mk pos
      [.ret pos (some (.select note (.name note "m" none)
        [.mk pos ⟨pos, .enum mode opened⟩ (.field note (.name note "p" none) held),
          .mk pos ⟨pos, .enum mode shut⟩ (.name note fee none)]))], []⟩,
    .function ⟨pos, "run", [⟨pos, "n", .integer⟩], some .integer, .mk pos
      [.bind pos "p" none (.record note purse [.mk pos held (.name note "n" none)]) none,
        .ret pos (some (.call note (.unresolved keep)
          [.name note "p" none, .enum note mode opened none]))], []⟩], contract⟩

/-- Types and variants change their names with each other. -/
def keepingNames : Renaming where
  var x := if x = "fee" then "tax" else x
  function f := if f = "keep" then "hold" else f
  type n := if n = "Purse" then "Mode" else if n = "Mode" then "Purse" else n
  field f := if f = "held" then "kept" else f
  variant v := if v = "Open" then "Shut" else if v = "Shut" then "Open" else v
  place pos := pos

def enumTree (pos : Pos) (name variant : String) : Tree :=
  .node .enumDef pos pos [.leaf ⟨.name, name, pos⟩, .leaf ⟨.name, variant, pos⟩]

def versionTree (pos : Pos) : Tree :=
  .node .contractField pos pos [.leaf ⟨.name, "version", pos⟩, .leaf ⟨.string, "\"1\"", pos⟩]

theorem versionTree_fields (pos : Pos) :
    Build.AreFields [versionTree pos] [(⟨.name, "version", pos⟩, "1")] := by
  refine ⟨?_,rfl⟩
  have hliteral : Build.literal ⟨.string, "\"1\"", pos⟩ = .ok "1" := by simp [Build.literal, Text.unescape]
  simp [versionTree, Build.ofTrees, Build.ofTree, Build.phrase, Build.declaration, Build.contractFieldNames,
    hliteral, bind, Except.bind, pure, Except.pure, Except.map, Phrase.ofField]

theorem compile_up_to_names_keeping :
    let p := keeping ⟨1, 1⟩ "fee" "keep" "Purse" "Mode" "held" "Open" "Shut" none
    let q := keeping ⟨7, 3⟩ "tax" "hold" "Mode" "Purse" "kept" "Shut" "Open" (some ⟨"Vault", none, some "1"⟩)
    keepingNames.Suits p.labels ∧ p.Alike keepingNames q ∧
      Compilation.of (q.compile unaided .default) = Compilation.of (p.compile unaided .default) ∧
      (Compilation.of (p.compile unaided .default)).isAccepted = true ∧
    let pos : Pos := ⟨1, 1⟩
    let item : Item := .enum ⟨pos, "Mode", ["Open"]⟩
    let tree : Tree := enumTree pos "Mode" "Open"
    let fields : List (Token × String) := [(⟨.name, "version", pos⟩, "1")]
    Build.AreItems [tree] [item] ∧ Build.AreFields [versionTree pos] fields ∧ ∃ p q : Program,
      Build.ofTree (.node .program pos pos [tree]) = .ok (.program p) ∧
      Build.ofTree (.node .program pos pos
        [.node .contractDef pos pos [.leaf ⟨.name, "Vault", pos⟩, versionTree pos, tree]]) = .ok (.program q) ∧
      q.items = p.items ∧ Compilation.of (q.compile unaided .default) = Compilation.of (p.compile unaided .default) := by
  obtain ⟨hnames,hwrapped⟩ := Program.compile_up_to_names unaided .default
  intro p q
  have hsuits : keepingNames.Suits p.labels := ⟨by decide +kernel,by decide +kernel,by decide +kernel⟩
  have halike : p.Alike keepingNames q := rfl
  refine ⟨hsuits,halike,hnames _ _ _ hsuits halike,by decide +kernel,?_⟩
  intro pos item tree fields
  have hitems : Build.AreItems [tree] [item] := rfl
  have hfields : Build.AreFields [versionTree pos] fields := versionTree_fields pos
  exact ⟨hitems,hfields,hwrapped [] [tree] [] _ [] [item] [] fields rfl hitems rfl hfields ⟨.name, "Vault", pos⟩
    pos pos pos pos pos pos⟩

end Covenant
