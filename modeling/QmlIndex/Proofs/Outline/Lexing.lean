import QmlIndex.Proofs.Outline.Text

/-! # The tokens of an outline

The text of an outline is cut into its lexemes again: each of them is one token or a blank, since no two words or
numerals touch and no lexeme opens what another closes.
-/

namespace QmlIndex

open Text

namespace Outline

/-! ## Classes of characters -/

/-- The code points of white space. -/
def blankPoints : List Nat :=
  [0x9, 0xa, 0xb, 0xc, 0xd, 0x20, 0x85, 0xa0, 0x1680, 0x2000, 0x2001, 0x2002, 0x2003, 0x2004, 0x2005, 0x2006, 0x2007,
    0x2008, 0x2009, 0x200a, 0x2028, 0x2029, 0x202f, 0x205f, 0x3000]

theorem mem_blankPoints {c : Char} (h : isBlank c = true) : c.toNat ∈ blankPoints := by
  simp only [isBlank, inRanges, blankRanges, List.any_cons, List.any_nil, Bool.or_false, Bool.or_eq_true,
    Bool.and_eq_true, decide_eq_true_eq] at h
  simp only [blankPoints, List.mem_cons, List.not_mem_nil, or_false]
  omega

/-- White space starts no word. -/
theorem isBlank_of_isIdentStart {c : Char} (h : isIdentStart c = true) : isBlank c = false := by
  have none : ∀ n ∈ blankPoints, isIdentStart (Char.ofNat n) = false := by decide +kernel
  cases blank : isBlank c with
  | false => rfl
  | true =>
      have point := none c.toNat (mem_blankPoints blank)
      rw [Char.ofNat_toNat, h] at point
      cases point

theorem isIdentStart_of_isDigit {c : Char} (h : c.isDigit = true) : isIdentStart c = false ∧ isBlank c = false := by
  have digits : ∀ n ∈ [48, 49, 50, 51, 52, 53, 54, 55, 56, 57],
      isIdentStart (Char.ofNat n) = false ∧ isBlank (Char.ofNat n) = false := by decide
  have point : c.toNat ∈ [48, 49, 50, 51, 52, 53, 54, 55, 56, 57] := by
    simp only [Char.isDigit, Bool.and_eq_true, decide_eq_true_eq, ge_iff_le, UInt32.le_iff_toNat_le] at h
    simp only [List.mem_cons, List.not_mem_nil, or_false]
    change 48 ≤ c.toNat ∧ c.toNat ≤ 57 at h
    omega
  have found := digits c.toNat point
  rwa [Char.ofNat_toNat] at found

/-- The punctuation of an outline. -/
def marks : List Char := [':', '.', ',', '(', ')', '[', ']', '<', '>', '\x7b', '\x7d']

/-! ## One lexeme -/

namespace Lexeme

def kind : Lexeme → Option TokenKind
  | word text => some (.ident text)
  | number text => some (.number text)
  | quoted text => some (.str text)
  | mark c => some (.punct c)
  | space => none
  | newline => some .newline

def piece (l : Lexeme) : Piece := ⟨l.kind, l.text⟩

/-- A lexeme that is what it seems to be. -/
def Proper : Lexeme → Prop
  | word text => isWord text = true
  | number text => (match text.toList with | [] => false | c :: rest => c.isDigit && rest.all isNumberContinue) = true
  | quoted text => ∀ c ∈ text.toList, c ≠ '"' ∧ c ≠ '\\' ∧ c ≠ '\n'
  | mark c => c ∈ marks
  | space | newline => True

/-- A lexeme that is one token whatever stands before it. -/
def isLoose : Lexeme → Bool
  | word _ | number _ => false
  | _ => true

/-- The two lexemes do not run into one another. -/
def Parts : Lexeme → Lexeme → Prop
  | word _, next => next.isLoose = true
  | number _, next => next = space ∨ next = newline
  | _, _ => True

theorem Proper.text_ne_nil {l : Lexeme} (proper : l.Proper) : l.text ≠ [] := by
  cases l with
  | word text | number text =>
      intro nothing
      simp [Proper, isWord, show text.toList = [] from nothing] at proper
  | quoted | mark | space | newline => simp [text]

/-- The character that a word ends before. -/
theorem not_isIdentContinue {l : Lexeme} (proper : l.Proper) (loose : l.isLoose = true) :
    ∀ c ∈ l.text.head?, isIdentContinue c = false := by
  have punctuation : ∀ c ∈ marks, isIdentContinue c = false := by
    have checked : (marks.all fun c => !isIdentContinue c) = true := by decide
    simpa using checked
  cases l with
  | word | number => cases loose
  | mark c =>
      intro d front
      cases front
      exact punctuation c proper
  | quoted | space | newline =>
      intro d front
      cases front
      decide

end Lexeme

theorem takeWhile_append_of_stops {α : Type} {p : α → Bool} {l rest : List α} (inside : ∀ a ∈ l, p a = true)
    (stops : ∀ a ∈ rest.head?, p a = false) : (l ++ rest).takeWhile p = l ∧ (l ++ rest).dropWhile p = rest := by
  rw [List.takeWhile_append_of_pos inside, List.dropWhile_append_of_pos inside]
  cases rest with
  | nil => simp
  | cons a rest => simp [stops a rfl]

theorem closeString_append {l : List Char} (plain : ∀ c ∈ l, c ≠ '"' ∧ c ≠ '\\' ∧ c ≠ '\n') (rest : List Char) :
    Piece.closeString '"' (l ++ '"' :: rest) = some (l, rest) := by
  induction l with
  | nil =>
      rw [List.nil_append, Piece.closeString.eq_def]
      simp
  | cons c l ih =>
      obtain ⟨quote, backslash, newline⟩ := plain c List.mem_cons_self
      rw [List.cons_append, Piece.closeString.eq_def]
      simp [quote, backslash, newline, ih fun d member => plain d (List.mem_cons_of_mem c member)]

open Lexeme in
/-- The first piece of a text that starts with a lexeme is the lexeme. -/
theorem next_lexeme {l : Lexeme} (proper : l.Proper) {rest : List Char}
    (apart : match l with
      | word _ => ∀ c ∈ rest.head?, isIdentContinue c = false
      | number _ => ∀ c ∈ rest.head?, isNumberContinue c = false
      | _ => True) :
    ∃ c more, l.text = c :: more ∧ Piece.next c (more ++ rest) = .ok (l.piece, rest) := by
  cases l with
  | word text =>
      cases spelled : text.toList with
      | nil => simp [Proper, isWord, spelled] at proper
      | cons c more =>
          refine ⟨c, more, spelled, ?_⟩
          obtain ⟨start, continues⟩ : isIdentStart c = true ∧ ∀ d ∈ more, isIdentContinue d = true := by
            simpa [Proper, isWord, spelled] using proper
          have other : ∀ d, isIdentStart d = false → c ≠ d := by
            rintro d none rfl
            rw [start] at none
            cases none
          obtain ⟨taken, dropped⟩ := takeWhile_append_of_stops continues apart
          have body : String.ofList (c :: more) = text := by rw [← spelled, String.ofList_toList]
          simp [Piece.next, other '\n' (by decide), isBlank_of_isIdentStart start, other '/' (by decide),
            other '"' (by decide), other '\'' (by decide), other '\x60' (by decide), start, Piece.run, taken, dropped,
            body, piece, kind, Lexeme.text, spelled]
  | number text =>
      cases spelled : text.toList with
      | nil => simp [Proper, spelled] at proper
      | cons c more =>
          refine ⟨c, more, spelled, ?_⟩
          obtain ⟨digit, continues⟩ : c.isDigit = true ∧ ∀ d ∈ more, isNumberContinue d = true := by
            simpa [Proper, spelled] using proper
          have other : ∀ d, Char.isDigit d = false → c ≠ d := by
            rintro d none rfl
            rw [digit] at none
            cases none
          obtain ⟨start, blank⟩ := isIdentStart_of_isDigit digit
          obtain ⟨taken, dropped⟩ := takeWhile_append_of_stops continues apart
          have body : String.ofList (c :: more) = text := by rw [← spelled, String.ofList_toList]
          simp [Piece.next, other '\n' (by decide), blank, other '/' (by decide), other '"' (by decide),
            other '\'' (by decide), other '\x60' (by decide), start, digit, Piece.run, taken, dropped, body, piece, kind,
            Lexeme.text, spelled]
  | quoted text =>
      refine ⟨'"', text.toList ++ ['"'], rfl, ?_⟩
      have closed := closeString_append proper rest
      have blank : isBlank '"' = false := by decide
      simp [Piece.next, blank, closed, piece, kind, Lexeme.text]
  | mark c =>
      refine ⟨c, [], rfl, ?_⟩
      have checked : (marks.all fun c => decide (c ≠ '\n' ∧ isBlank c = false ∧ c ≠ '/' ∧ c ≠ '"' ∧ c ≠ '\'' ∧
          c ≠ '\x60' ∧ isIdentStart c = false ∧ c.isDigit = false)) = true := by decide
      obtain ⟨newline, blank, slash, double, quote, back, start, digit⟩ :=
        of_decide_eq_true (List.all_eq_true.mp checked c proper)
      simp [Piece.next, newline, blank, slash, double, quote, back, start, digit, piece, kind, Lexeme.text]
  | space => exact ⟨' ', [], rfl, rfl⟩
  | newline => exact ⟨'\n', [], rfl, rfl⟩

/-! ## Many lexemes -/

/-- Proper lexemes of which none runs into the next. -/
def Spelled : List Lexeme → Prop
  | [] => True
  | l :: rest => l.Proper ∧ (∀ next ∈ rest.head?, l.Parts next) ∧ Spelled rest

theorem head?_flatMap_text {next : Lexeme} {rest : List Lexeme} (proper : next.Proper) :
    ((next :: rest).flatMap Lexeme.text).head? = next.text.head? := by
  rw [List.flatMap_cons, List.head?_append]
  cases same : next.text with
  | nil => exact absurd same proper.text_ne_nil
  | cons => rfl

theorem ofText_spelled {l : List Lexeme} (spelled : Spelled l) :
    Cut.ofText (l.flatMap Lexeme.text) = ⟨l.map Lexeme.piece, none⟩ := by
  induction l with
  | nil => rw [List.flatMap_nil, Cut.ofText]; rfl
  | cons first rest ih =>
      obtain ⟨proper, parts, further⟩ := spelled
      have stops : ∀ p : Char → Bool, (∀ next ∈ rest.head?, ∀ c ∈ next.text.head?, p c = false) →
          ∀ c ∈ (rest.flatMap Lexeme.text).head?, p c = false := by
        intro p ends c front
        cases rest with
        | nil => cases front
        | cons next rest =>
            rw [head?_flatMap_text further.1] at front
            exact ends next rfl c front
      obtain ⟨c, more, start, cut⟩ : ∃ c more, first.text = c :: more ∧
          Piece.next c (more ++ rest.flatMap Lexeme.text) = .ok (first.piece, rest.flatMap Lexeme.text) := by
        apply next_lexeme proper
        split
        · apply stops
          intro next front
          cases rest with
          | nil => cases front
          | cons _ rest =>
              cases front
              exact Lexeme.not_isIdentContinue further.1 (parts _ rfl)
        · apply stops
          intro next front d head
          rcases parts next front with rfl | rfl <;> cases head <;> decide
        · trivial
      rw [List.flatMap_cons, start, List.cons_append, Cut.ofText]
      split
      · rename_i failed
        rw [cut] at failed
        cases failed
      · rename_i piece after found
        rw [cut] at found
        cases found
        rw [ih further, List.map_cons]

theorem kinds_place (p : Position) (pieces : List Piece) :
    (Token.place p pieces).map Token.kind = pieces.filterMap Piece.kind := by
  induction pieces generalizing p with
  | nil => rfl
  | cons piece rest ih =>
      rw [Token.place, List.filterMap_cons]
      cases piece.kind with
      | none => exact ih _
      | some kind => rw [List.map_cons, ih]

/-- The kinds of the tokens of a text are those of its lexemes. -/
theorem scan_spelled {l : List Lexeme} (spelled : Spelled l) :
    ∃ tokens, Token.scan (l.flatMap Lexeme.text) = .ok tokens ∧ tokens.map Token.kind = l.filterMap Lexeme.kind := by
  refine ⟨Token.place .origin (l.map Lexeme.piece), ?_, ?_⟩
  · simp [Token.scan, ofText_spelled spelled]
  · rw [kinds_place, List.filterMap_map]
    rfl

/-! ## The lexemes of an outline -/

section

open Lexeme

variable {rest : List Lexeme}

/-- Lexemes that a word may stand before. -/
structure Follow (rest : List Lexeme) : Prop where
  spelled : Spelled rest
  loose : ∀ next ∈ rest.head?, next.isLoose = true

@[simp]
theorem spelled_nil : Spelled [] := trivial

@[simp]
theorem spelled_word {w : String} : Spelled (word w :: rest) ↔ isWord w = true ∧ Follow rest :=
  and_congr_right fun _ => ⟨fun ⟨loose, spelled⟩ => ⟨spelled, loose⟩, fun follow => ⟨follow.loose, follow.spelled⟩⟩

@[simp]
theorem spelled_quoted {t : String} : Spelled (quoted t :: rest) ↔
    (∀ c ∈ t.toList, c ≠ '"' ∧ c ≠ '\\' ∧ c ≠ '\n') ∧ Spelled rest := by simp [Spelled, Proper, Parts]

@[simp]
theorem spelled_mark {c : Char} : Spelled (mark c :: rest) ↔ c ∈ marks ∧ Spelled rest := by
  simp [Spelled, Proper, Parts]

@[simp]
theorem spelled_space : Spelled (space :: rest) ↔ Spelled rest := by simp [Spelled, Proper, Parts]

@[simp]
theorem spelled_newline : Spelled (newline :: rest) ↔ Spelled rest := by simp [Spelled, Proper, Parts]

@[simp]
theorem follow_cons {l : Lexeme} : Follow (l :: rest) ↔ l.isLoose = true ∧ Spelled (l :: rest) :=
  ⟨fun follow => ⟨follow.loose l rfl, follow.spelled⟩, fun ⟨loose, spelled⟩ => ⟨spelled, by simpa using loose⟩⟩

theorem isWord_of_reserved : ∀ w ∈ reserved, isWord w = true := by decide

theorem spelled_dotted (q : Dotted) (follow : Follow rest) : Spelled (q.lexemes ++ rest) := by
  have segments : ∀ names : List Name, Follow ((names.flatMap fun n => [mark '.', word n.text]) ++ rest) := by
    intro names
    induction names with
    | nil => exact follow
    | cons n names ih => simpa [isLoose, marks, n.lexical] using ih
  exact spelled_word.mpr ⟨q.first.lexical, segments q.rest⟩

theorem spelled_propertyType (type : PropertyType) (follow : Follow rest) : Spelled (type.lexemes ++ rest) := by
  cases type with
  | plain name => exact spelled_dotted name follow
  | list element =>
      have inner : Spelled (element.lexemes ++ mark '>' :: rest) :=
        spelled_dotted element (by simp [isLoose, marks, follow.spelled])
      have list : isWord "list" = true := by decide
      simpa [PropertyType.lexemes, isLoose, marks, list] using inner

theorem spelled_target (target : Target) (follow : Follow rest) : Spelled (target.lexemes ++ rest) := by
  cases target with
  | module name => exact spelled_dotted name follow
  | path reference => simpa [Target.lexemes] using ⟨reference.plain, follow.spelled⟩

theorem spelled_enumerated (names : List Name) (follow : Follow rest) : Spelled (enumerated names ++ rest) := by
  fun_induction enumerated names with
  | case1 => exact follow.spelled
  | case2 n => exact spelled_word.mpr ⟨n.lexical, follow⟩
  | case3 n names _ ih => simp [isLoose, marks, n.lexical, ih]

theorem spelled_line (line : Line) (spelled : Spelled rest) : Spelled (line.lexemes ++ newline :: rest) := by
  have ended : Follow (newline :: rest) := by simp [isLoose, spelled]
  cases line with
  | pragma name value =>
      have keyword : isWord "pragma" = true := isWord_of_reserved _ (by decide)
      cases value with
      | none => simp [Line.lexemes, pragmaValue, isLoose, keyword, name.lexical, spelled]
      | some names =>
          have values := spelled_enumerated names ended
          simpa [Line.lexemes, pragmaValue, isLoose, marks, keyword, name.lexical] using values
  | importing target version qualifier =>
      have qualified : Follow (importQualifier qualifier ++ newline :: rest) := by
        have keyword : isWord "as" = true := isWord_of_reserved _ (by decide)
        cases qualifier with
        | none => exact ended
        | some name => simp [importQualifier, isLoose, keyword, name.lexical, spelled]
      have versioned : Follow (importVersion version ++ (importQualifier qualifier ++ newline :: rest)) := by
        cases version with
        | none => exact qualified
        | some version =>
            -- A numeral swallows the letters behind it, but a blank or the end of the line stands there.
            have parts : ∀ next ∈ (importQualifier qualifier ++ newline :: rest).head?,
                (number version.text).Parts next := by
              cases qualifier <;> simp [importQualifier, Parts]
            have numeral : Spelled (number version.text :: (importQualifier qualifier ++ newline :: rest)) :=
              ⟨version.lexical, parts, qualified.spelled⟩
            simpa [importVersion, isLoose] using numeral
      have keyword : isWord "import" = true := isWord_of_reserved _ (by decide)
      simpa [Line.lexemes, isLoose, keyword] using spelled_target target versioned

theorem spelled_modifiers (modifiers : List Modifier) (spelled : Spelled rest) :
    Spelled (modifierLexemes modifiers ++ rest) := by
  induction modifiers with
  | nil => exact spelled
  | cons m modifiers ih =>
      have keyword : isWord m.word = true := isWord_of_reserved _ (List.mem_append_right _ m.known)
      simpa [modifierLexemes, isLoose, keyword] using ih

theorem follow_onTarget (target : Option Dotted) (spelled : Spelled rest) :
    Follow (onTarget target ++ space :: rest) := by
  have ended : Follow (space :: rest) := by simp [isLoose, spelled]
  cases target with
  | none => exact ended
  | some name =>
      have keyword : isWord "on" = true := isWord_of_reserved _ (by decide)
      simpa [onTarget, isLoose, keyword] using spelled_dotted name ended

mutual

theorem spelled_object (o : Object) {rest : List Lexeme} (spelled : Spelled rest) : Spelled (o.lexemes ++ rest) := by
  cases o with
  | mk type target members =>
      have closed : Spelled (mark '\x7d' :: rest) := by simp [marks, spelled]
      have body : Spelled (mark '\x7b' :: newline :: (memberLexemes members ++ mark '\x7d' :: rest)) := by
        simpa [marks] using spelled_members members closed
      simpa [Object.lexemes] using spelled_dotted type.toDotted (follow_onTarget target body)

theorem spelled_members (members : List Declaration) {rest : List Lexeme} (spelled : Spelled rest) :
    Spelled (memberLexemes members ++ rest) := by
  cases members with
  | nil => exact spelled
  | cons m members => simpa [memberLexemes] using spelled_declaration m (spelled_members members spelled)

theorem spelled_declaration (d : Declaration) {rest : List Lexeme} (spelled : Spelled rest) :
    Spelled (d.lexemes ++ newline :: rest) := by
  have keyword : ∀ w ∈ ["id", "property", "signal", "function", "enum", "component"], isWord w = true := by
    decide
  cases d with
  | id name | signal name | function name | enum name =>
      simp [Declaration.lexemes, isLoose, marks, keyword, name.lexical, spelled]
  | property modifiers type name value =>
      have declared {more : List Lexeme} (follow : Follow more) :
          Spelled (modifierLexemes modifiers ++ word "property" :: space ::
            (type.lexemes ++ space :: word name.text :: more)) := by
        have named : Follow (space :: word name.text :: more) := by simp [isLoose, name.lexical, follow]
        apply spelled_modifiers
        simpa [isLoose, keyword] using spelled_propertyType type named
      cases value with
      | none =>
          have ended : Follow (newline :: rest) := by simp [isLoose, spelled]
          simpa [Declaration.lexemes] using declared ended
      | some value =>
          have bound : Follow (mark ':' :: space :: (value.lexemes ++ newline :: rest)) := by
            simpa [isLoose, marks] using spelled_value value spelled
          simpa [Declaration.lexemes] using declared bound
  | component name object =>
      have base := spelled_object object (spelled_newline.mpr spelled)
      simpa [Declaration.lexemes, isLoose, marks, keyword, name.lexical] using base
  | binding name value =>
      have bound : Follow (mark ':' :: space :: (value.lexemes ++ newline :: rest)) := by
        simpa [isLoose, marks] using spelled_value value spelled
      simpa [Declaration.lexemes] using spelled_dotted name bound
  | object object => exact spelled_object object (spelled_newline.mpr spelled)

/-- A value stands at the end of a line, where a numeral may stand. -/
theorem spelled_value (v : Value) {rest : List Lexeme} (spelled : Spelled rest) :
    Spelled (v.lexemes ++ newline :: rest) := by
  cases v with
  | plain => exact ⟨by simp [Proper], by simp [Parts], spelled_newline.mpr spelled⟩
  | object object => exact spelled_object object (spelled_newline.mpr spelled)
  | list objects =>
      have closed : Spelled (mark ']' :: newline :: rest) := by simp [marks, spelled]
      simpa [Value.lexemes, marks] using spelled_elements objects closed

theorem spelled_elements (objects : List Object) {rest : List Lexeme} (spelled : Spelled rest) :
    Spelled (elementLexemes objects ++ rest) := by
  cases objects with
  | nil => exact spelled
  | cons o objects =>
      cases objects with
      | nil => exact spelled_object o spelled
      | cons next objects =>
          have tail : Spelled (mark ',' :: space :: (elementLexemes (next :: objects) ++ rest)) := by
            simpa [marks] using spelled_elements (next :: objects) spelled
          simpa [elementLexemes] using spelled_object o tail

end

/-- Nothing in the text of an outline runs into what follows it. -/
theorem spelled_lexemes (d : Outline) : Spelled d.lexemes := by
  have header : ∀ lines : List Line, Spelled (headerLexemes lines ++ (d.root.lexemes ++ [newline])) := by
    intro lines
    induction lines with
    | nil => exact spelled_object d.root (by simp)
    | cons line lines ih => simpa [headerLexemes] using spelled_line line ih
  simpa [lexemes] using header d.header

end

end Outline

end QmlIndex
