import Covenant.Syntax.Build

/-! String literals. Between its quotes a literal is made of whole pieces, a plain character or a backslash with
its letter, so no backslash is left alone at the end; reading a literal takes each piece for what it stands for. -/

namespace Covenant.Text

/-- A part of a string literal: a character that stands for itself, or the letter of an escape. -/
inductive Piece where
  | plain (c : Char)
  | escape (letter : Char)
  deriving DecidableEq, Repr

namespace Piece

def chars : Piece → List Char
  | plain c => [c]
  | escape l => ['\\', l]

def isAllowed : Piece → Bool
  | plain c => c ≠ '"' && c ≠ '\\' && c ≠ '\n'
  | escape l => l ≠ '\n'

def read : Piece → Except Char Char
  | plain c => .ok c
  | escape l =>
    match escaped? l with
    | some c => .ok c
    | none => .error l

def value? (p : Piece) : Option Char := p.read.toOption

end Piece

def escapeLetters : List Char := ['n', 't', 'r', '\\', '"', '0']

theorem escaped?_isSome (l : Char) : (escaped? l).isSome = true ↔ l ∈ escapeLetters := by
  unfold escaped?
  split <;> simp_all [escapeLetters]

def quoted (ps : List Piece) : List Char := '"' :: (ps.flatMap Piece.chars ++ ['"'])

variable {ps : List Piece} {cs : List Char} {admits : Terminal → Bool} {n : Nat}

theorem closeString?_pieces (h : ∀ p ∈ ps, p.isAllowed = true) (rest : List Char) :
    Lexeme.closeString? (ps.flatMap Piece.chars ++ '"' :: rest) = some rest := by
  induction ps with
  | nil => simp [Lexeme.closeString?]
  | cons p ps ih =>
    obtain ⟨hp,hps⟩ := List.forall_mem_cons.mp h
    cases p with
    | plain c =>
      simp only [Piece.isAllowed, ne_eq, Bool.and_eq_true, decide_eq_true_eq] at hp
      simp only [List.flatMap_cons, Piece.chars, List.cons_append, List.nil_append]
      rw [Lexeme.closeString?.eq_def]
      grind
    | escape l =>
      simp only [Piece.isAllowed, ne_eq, decide_eq_true_eq] at hp
      simp [Piece.chars, Lexeme.closeString?, hp, ih hps]

theorem closeString?_eq_some {rest : List Char} (h : Lexeme.closeString? cs = some rest) :
    ∃ ps : List Piece, (∀ p ∈ ps, p.isAllowed = true) ∧ cs = ps.flatMap Piece.chars ++ '"' :: rest := by
  fun_induction Lexeme.closeString? cs with
  | case1 | case3 | case4 | case6 => contradiction
  | case2 cs =>
    obtain rfl := Option.some.inj h
    exact ⟨[],by simp,rfl⟩
  | case5 l cs hl ih =>
    obtain ⟨ps,hps,rfl⟩ := ih h
    exact ⟨.escape l :: ps,List.forall_mem_cons.mpr ⟨by simpa [Piece.isAllowed] using hl,hps⟩,rfl⟩
  | case7 c cs hquote hline hpair hback ih =>
    have hc : c ≠ '\\' := by
      rintro rfl
      cases cs with
      | nil => exact hback rfl rfl
      | cons d ds => exact hpair d ds rfl rfl
    obtain ⟨ps,hps,rfl⟩ := ih h
    refine ⟨.plain c :: ps,List.forall_mem_cons.mpr ⟨?_,hps⟩,rfl⟩
    simp only [Piece.isAllowed, Bool.and_eq_true, decide_eq_true_eq]
    exact ⟨⟨hquote,hc⟩,hline⟩

theorem fixed?_mem {ts : List Terminal} {t : Terminal}
    (h : Lexeme.fixed? ts admits cs = some (t,n)) : t ∈ ts := by
  obtain ⟨u,hu,heq⟩ := Option.map_eq_some_iff.mp h
  cases heq
  exact List.mem_of_find?_eq_some hu

theorem scan?_cons_string {c : Char} :
    Lexeme.scan? admits (c :: cs) = some (.string,n) ↔
      c = '"' ∧ admits .string = true ∧ ∃ rest, Lexeme.closeString? cs = some rest ∧ cs.length + 1 - rest.length = n := by
  have hmark : ¬ Lexeme.isNameStart '"' = true := by decide
  rw [Lexeme.scan?]
  split
  · have hne : c ≠ '"' := by
      rintro rfl
      contradiction
    refine iff_of_false (fun h => ?_) fun h => hne h.1
    split at h
    · dsimp only at h
      split at h
      · rename_i w hw
        have hword : w ≠ .string := by
          rintro rfl
          exact absurd (List.mem_of_find?_eq_some hw) (by decide)
        grind
      · cases h
    · exact absurd (fixed?_mem h) (by decide)
  · split
    · rename_i hquote
      split <;> simp_all
    · rename_i hquote
      refine iff_of_false (fun h => ?_) fun h => hquote h.1
      split at h
      · split at h <;> cases h
      · exact absurd (fixed?_mem h) (by decide)

theorem scan?_string :
    Lexeme.scan? admits cs = some (.string,n) ↔ admits .string = true ∧ ∃ (ps : List Piece) (rest : List Char),
      (∀ p ∈ ps, p.isAllowed = true) ∧ cs = quoted ps ++ rest ∧ n = (quoted ps).length := by
  constructor
  · intro h
    cases cs with
    | nil => cases h
    | cons c cs =>
      obtain ⟨rfl,hadmits,rest,hclose,rfl⟩ := scan?_cons_string.mp h
      obtain ⟨ps,hps,rfl⟩ := closeString?_eq_some hclose
      exact ⟨hadmits,ps,rest,hps,by simp [quoted],by simp [quoted]; omega⟩
  · rintro ⟨hadmits,ps,rest,hps,rfl,rfl⟩
    rw [quoted,List.cons_append,List.append_assoc]
    exact scan?_cons_string.mpr ⟨rfl,hadmits,rest,closeString?_pieces hps rest,by simp; omega⟩

theorem unescape_pieces (h : ∀ p ∈ ps, p.isAllowed = true) :
    unescape (ps.flatMap Piece.chars) = (ps.mapM Piece.read).mapError .letter := by
  induction ps with
  | nil => rfl
  | cons p ps ih =>
    obtain ⟨hp,hps⟩ := List.forall_mem_cons.mp h
    rw [List.flatMap_cons,List.mapM_cons]
    cases p with
    | plain c =>
      have hc : c ≠ '\\' := by
        rintro rfl
        simp [Piece.isAllowed] at hp
      rw [Piece.chars,List.singleton_append,unescape,ih hps]
      · cases ps.mapM Piece.read <;> rfl
      · exact fun hd _ => hc hd
      · exact fun d ds hd _ => hc hd
    | escape l =>
      rw [Piece.chars,List.cons_append,List.singleton_append,unescape,Piece.read,ih hps]
      cases escaped? l with
      | none => rfl
      | some c => cases ps.mapM Piece.read <;> rfl

theorem unescape_inside (h : Lexeme.scan? admits cs = some (.string,n)) :
    unescape (cs.take n).tail.dropLast ≠ .error .pastEnd := by
  obtain ⟨-,ps,rest,hps,rfl,rfl⟩ := scan?_string.mp h
  have hbody : ((quoted ps ++ rest).take (quoted ps).length).tail.dropLast = ps.flatMap Piece.chars := by
    rw [List.take_left]
    simp [quoted]
  rw [hbody,unescape_pieces hps]
  cases ps.mapM Piece.read <;> nofun

theorem literal_quoted (h : ∀ p ∈ ps, p.isAllowed = true) {t : Token}
    (ht : t.text = String.ofList (quoted ps)) : Build.literal t =
      match ps.mapM Piece.read with
      | .ok cs => .ok (String.ofList cs)
      | .error l => .error ⟨.unknownEscape l, t.pos, some t.text, []⟩ := by
  have hbody : t.text.toList.tail.dropLast = ps.flatMap Piece.chars := by simp [ht, quoted]
  cases hps : ps.mapM Piece.read with
  | ok cs =>
    have hread : unescape (ps.flatMap Piece.chars) = .ok cs := by
      rw [unescape_pieces h,hps]
      rfl
    simp only [Build.literal, hbody, hread]
  | error l =>
    have hread : unescape (ps.flatMap Piece.chars) = .error (.letter l) := by
      rw [unescape_pieces h,hps]
      rfl
    simp only [Build.literal, hbody, hread]

theorem Piece.read_eq_ok {p : Piece} (h : ∀ l, p = .escape l → l ∈ escapeLetters) :
    ∃ c, p.read = .ok c ∧ p.value? = some c := by
  cases p with
  | plain c => exact ⟨c,rfl,rfl⟩
  | escape l =>
    obtain ⟨c,hc⟩ := Option.isSome_iff_exists.mp ((escaped?_isSome l).mpr (h l rfl))
    have hread : (escape l).read = .ok c := by rw [read,hc]
    exact ⟨c,hread,by rw [value?,hread]; rfl⟩

theorem Piece.read_eq_error {l : Char} (h : l ∉ escapeLetters) : (escape l).read = .error l := by
  have hnone : escaped? l = none := by
    rw [← Option.not_isSome_iff_eq_none,escaped?_isSome]
    exact h
  rw [read,hnone]

theorem mapM_read_ok (h : ∀ l, .escape l ∈ ps → l ∈ escapeLetters) :
    ps.mapM Piece.read = .ok (ps.filterMap Piece.value?) := by
  induction ps with
  | nil => rfl
  | cons p ps ih =>
    obtain ⟨c,hread,hvalue⟩ := p.read_eq_ok fun l hl => h l (by simp [hl])
    rw [List.mapM_cons,hread,ih fun l hl => h l (List.mem_cons_of_mem p hl),List.filterMap_cons_some hvalue]
    rfl

theorem mapM_read_error {l : Char} (hl : .escape l ∈ ps) (h : l ∉ escapeLetters) :
    ∃ m, ps.mapM Piece.read = .error m := by
  induction ps with
  | nil => cases hl
  | cons p ps ih =>
    rw [List.mapM_cons]
    rcases List.mem_cons.mp hl with rfl | hl
    · exact ⟨l,by rw [Piece.read_eq_error h]; rfl⟩
    · obtain ⟨m,hm⟩ := ih hl
      cases hp : p.read with
      | error m => exact ⟨m,rfl⟩
      | ok c => exact ⟨m,by rw [hm]; rfl⟩

/-- A text written with escapes: always for a backslash, a quote and a newline, and at will for another character
that has an escape. -/
inductive Written : List Char → List Char → Prop
  | nil : Written [] []
  | plain {c : Char} {cs w : List Char} (hc : c ∉ ['\\', '"', '\n']) (h : Written cs w) :
    Written (c :: cs) (c :: w)
  | escape {c l : Char} {cs w : List Char} (hl : escaped? l = some c) (h : Written cs w) :
    Written (c :: cs) ('\\' :: l :: w)

theorem Written.pieces {w : List Char} (h : Written cs w) : ∃ ps : List Piece,
    (∀ p ∈ ps, p.isAllowed = true) ∧ w = ps.flatMap Piece.chars ∧ ps.mapM Piece.read = .ok cs := by
  induction h with
  | nil => exact ⟨[],by simp,rfl,rfl⟩
  | @plain c _ _ hc _ ih =>
    obtain ⟨ps,hps,rfl,hread⟩ := ih
    refine ⟨.plain c :: ps,List.forall_mem_cons.mpr ⟨?_,hps⟩,rfl,?_⟩
    · simp_all [Piece.isAllowed]
    · rw [List.mapM_cons,hread]
      rfl
  | @escape c l _ _ hl _ ih =>
    obtain ⟨ps,hps,rfl,hread⟩ := ih
    refine ⟨.escape l :: ps,List.forall_mem_cons.mpr ⟨?_,hps⟩,rfl,?_⟩
    · simp only [Piece.isAllowed, decide_eq_true_eq]
      rintro rfl
      cases hl
    · rw [List.mapM_cons,hread,Piece.read,hl]
      rfl

theorem exists_written (cs : List Char) : ∃ w, Written cs w := by
  induction cs with
  | nil => exact ⟨[],.nil⟩
  | cons c cs ih =>
    obtain ⟨w,hw⟩ := ih
    by_cases hc : c ∈ ['\\', '"', '\n']
    · have hl : ∃ l, escaped? l = some c := by
        simp only [List.mem_cons, List.not_mem_nil, or_false] at hc
        rcases hc with rfl | rfl | rfl
        · exact ⟨'\\',rfl⟩
        · exact ⟨'"',rfl⟩
        · exact ⟨'n',rfl⟩
      obtain ⟨l,hl⟩ := hl
      exact ⟨_,.escape hl hw⟩
    · exact ⟨_,.plain hc hw⟩

/-- A literal is made of whole pieces, so that no letter is looked for past its end. It cannot be read if and only if
one of them is a backslash with a letter that is no escape, and that is told; else it stands for its pieces one after
the other. However a text is written, it is one literal that stands for the text. -/
theorem literal_round_trip :
    (∀ (admits : Terminal → Bool) (cs : List Char) (n : Nat), Lexeme.scan? admits cs = some (.string,n) ↔
      admits .string = true ∧ ∃ (ps : List Piece) (rest : List Char),
        (∀ p ∈ ps, p.isAllowed = true) ∧ cs = quoted ps ++ rest ∧ n = (quoted ps).length) ∧
    (∀ (admits : Terminal → Bool) (cs : List Char) (n : Nat), Lexeme.scan? admits cs = some (.string,n) →
      unescape (cs.take n).tail.dropLast ≠ .error .pastEnd) ∧
    (∀ (t : Token) (ps : List Piece), (∀ p ∈ ps, p.isAllowed = true) → t.text = String.ofList (quoted ps) →
      ((∃ l, Build.literal t = .error ⟨.unknownEscape l, t.pos, some t.text, []⟩) ↔
        ∃ l, .escape l ∈ ps ∧ l ∉ escapeLetters) ∧
      ((∀ l, .escape l ∈ ps → l ∈ escapeLetters) →
        Build.literal t = .ok (String.ofList (ps.filterMap Piece.value?)))) ∧
    ∀ s : String, (∃ w, Written s.toList w) ∧ ∀ w, Written s.toList w →
      ∀ (admits : Terminal → Bool) (pos : Pos) (rest : List Char), admits .string = true →
        let text := '"' :: (w ++ ['"'])
        let t : Token := ⟨.string, String.ofList text, pos⟩
        (⟨text ++ rest, pos⟩ : Input).token? admits = some (t,⟨rest, pos.advance text⟩) ∧
          Build.literal t = .ok s := by
  refine ⟨fun _ _ _ => scan?_string,fun _ _ _ => unescape_inside,fun t ps hps ht => ⟨⟨?_,?_⟩,?_⟩,fun s => ⟨exists_written _,?_⟩⟩
  · rintro ⟨e,he⟩
    refine Classical.byContradiction fun hno => ?_
    rw [literal_quoted hps ht,mapM_read_ok (by simpa using hno)] at he
    cases he
  · rintro ⟨l,hl,hbad⟩
    obtain ⟨m,hm⟩ := mapM_read_error hl hbad
    exact ⟨_,by rw [literal_quoted hps ht,hm]⟩
  · intro h
    rw [literal_quoted hps ht,mapM_read_ok h]
  · intro w hw admits pos rest hadmits text t
    obtain ⟨ps,hps,rfl,hread⟩ := hw.pieces
    have hscan : Lexeme.scan? admits (text ++ rest) = some (.string,text.length) :=
      scan?_string.mpr ⟨hadmits,ps,rest,hps,rfl,rfl⟩
    refine ⟨by simp [Input.token?, hscan, t],?_⟩
    rw [literal_quoted hps rfl,hread]
    simp

/-- A quoted word with a line break, and the same with a letter that is no escape. -/
theorem literal_round_trip_word :
    let ps : List Piece := [.escape '"', .plain 'a', .escape '"', .escape 'n']
    let bad : List Piece := [.escape '"', .plain 'a', .escape 'q']
    let t : Token := ⟨.string, "\"\\\"a\\\"\\n\"", ⟨3, 7⟩⟩
    (∀ p ∈ ps, p.isAllowed = true) ∧ t.text = String.ofList (quoted ps) ∧ Build.literal t = .ok "\"a\"\n" ∧
      (∀ p ∈ bad, p.isAllowed = true) ∧
      (∃ l, Build.literal ⟨.string, String.ofList (quoted bad), ⟨3, 7⟩⟩ =
        .error ⟨.unknownEscape l, ⟨3, 7⟩, some (String.ofList (quoted bad)), []⟩) ∧
      unescape ((quoted ps).take 9).tail.dropLast ≠ .error .pastEnd ∧
      Written "\"a\"\n".toList (ps.flatMap Piece.chars) ∧
      (⟨quoted ps ++ [';'], ⟨3, 7⟩⟩ : Input).token? (· = .string) = some (t,⟨[';'], ⟨3, 16⟩⟩) := by
  intro ps bad t
  have hps : ∀ p ∈ ps, p.isAllowed = true := by decide
  have hbad : ∀ p ∈ bad, p.isAllowed = true := by decide
  have ht : t.text = String.ofList (quoted ps) := by decide
  have hw : Written "\"a\"\n".toList (ps.flatMap Piece.chars) :=
    .escape rfl (.plain (by decide) (.escape rfl (.escape rfl .nil)))
  exact ⟨hps,ht,(literal_round_trip.2.2.1 t ps hps ht).2 (by simp [ps, escapeLetters]),hbad,
    (literal_round_trip.2.2.1 _ bad hbad rfl).1.mpr ⟨'q',by decide,by decide⟩,
    literal_round_trip.2.1 (· = .string) (quoted ps) 9 (by decide),hw,
    ((literal_round_trip.2.2.2 "\"a\"\n").2 _ hw (· = .string) ⟨3, 7⟩ [';'] rfl).1⟩

end Covenant.Text
