import Mathlib.Data.List.TakeWhile
import QmlIndex.Proofs.Json.RoundTrip
import QmlIndex.Proofs.Toml.Strings

/-! # Settings are read back as they were written

A document is written as lines, each of which gives a value to a key of its own. The value is read back from its text up
to the end of the line, so the lines are read one after the other, and each enters its pair into the table behind the
pairs before it.
-/

namespace QmlIndex.Toml

variable {rest : List Char}

/-! ## Values -/

theorem value_string (levels : Nat) (text : String) (unquoted : Unquoted rest) :
    value levels (string text ++ rest) = some (.string text, rest) := by
  have read := quoted?_string text unquoted
  obtain ⟨q, more, written, rfl | rfl⟩ := string_starts text
  · rw [written, List.cons_append] at read ⊢
    simp only [value, read, Option.map_some, String.ofList_toList]
  · rw [written, List.cons_append] at read ⊢
    simp only [value, read, Option.map_some, String.ofList_toList]

/-! ## Space -/

/-- A character that is neither space nor the beginning of a comment. -/
structure Solid (c : Char) : Prop where
  blank : isBlank c = false
  comment : c ≠ '#'
  line : c ≠ '\n'
  feed : c ≠ '\r'

theorem dropBlanks_solid (blanks : List Char) (all : ∀ c ∈ blanks, isBlank c = true) {c : Char} (solid : isBlank c = false)
    (rest : List Char) : dropBlanks (blanks ++ c :: rest) = c :: rest := by
  rw [dropBlanks, List.dropWhile_append_of_pos all, List.dropWhile_cons_of_neg (by simp [solid])]

theorem dropSpace_solid (blanks : List Char) (all : ∀ c ∈ blanks, isBlank c = true) {c : Char} (solid : Solid c)
    (rest : List Char) : dropSpace (blanks ++ c :: rest) = some (c :: rest) := by
  have ends : afterLineEnd? (c :: rest) = none := by
    rw [afterLineEnd?.eq_def]
    split <;> simp_all [solid.line, solid.feed]
  rw [dropSpace, dropBlanks_solid blanks all solid.blank]
  split
  · rename_i here
    exact absurd (List.cons.inj here).1 solid.comment
  · rw [ends]

theorem dropSpace_first {c : Char} (solid : Solid c) (rest : List Char) : dropSpace (c :: rest) = some (c :: rest) :=
  dropSpace_solid [] nofun solid rest

theorem dropSpace_line (rest : List Char) : dropSpace ('\n' :: rest) = dropSpace rest := by
  rw [dropSpace]
  exact if_pos (Nat.lt_succ_self _)

theorem solid_of_quote {q : Char} (quote : q = '"' ∨ q = '\'') : Solid q := by
  rcases quote with rfl | rfl <;> exact ⟨by decide, by decide, by decide, by decide⟩

/-! ## Lists -/

section Items

variable {value : Scan Item} {s start behind more : List Char} {item : Item}

theorem items_none (space : dropSpace s = some (']' :: more)) : items value s = some ([], more) := by
  rw [items, space]
  rfl

theorem items_last (space : dropSpace s = some start) (further : ∀ more, start ≠ ']' :: more)
    (read : value start = some (item, behind)) (closes : dropSpace behind = some (']' :: more)) :
    items value s = some ([item], more) := by
  rw [items, space]
  simp only [Option.bind_eq_bind, Option.bind_some, read, closes]
  rfl

theorem items_step (space : dropSpace s = some start) (further : ∀ more, start ≠ ']' :: more)
    (read : value start = some (item, behind)) (comma : dropSpace behind = some (',' :: more))
    (shorter : more.length < s.length) :
    items value s = (items value more).map fun (l, rest) => (item :: l, rest) := by
  rw [items, space]
  simp only [Option.bind_eq_bind, Option.bind_some, read, comma, if_pos shorter]
  cases items value more <;> rfl

end Items

theorem solid_closing : Solid ']' := ⟨by decide, by decide, by decide, by decide⟩

theorem solid_comma : Solid ',' := ⟨by decide, by decide, by decide, by decide⟩

/-- A string in a list is the next item, whatever blanks stand in front of it. -/
theorem dropSpace_string (blanks : List Char) (all : ∀ c ∈ blanks, isBlank c = true) (text : String) (rest : List Char) :
    dropSpace (blanks ++ (string text ++ rest)) = some (string text ++ rest) ∧
      ∀ more, string text ++ rest ≠ ']' :: more := by
  obtain ⟨q, more, written, quote⟩ := string_starts text
  rw [written, List.cons_append]
  refine ⟨dropSpace_solid blanks all (solid_of_quote quote) _, fun tail same => ?_⟩
  obtain ⟨rfl, _⟩ := List.cons.inj same
  rcases quote with quote | quote <;> cases quote

/-- Items that stand each on a line of its own, with a comma behind it. -/
theorem items_lines (levels : Nat) (l : List String) (rest : List Char) :
    items (value levels) ('\n' :: (l.flatMap fun s => "    ".toList ++ string s ++ ",\n".toList) ++ ']' :: rest) =
      some (l.map Item.string, rest) := by
  induction l with
  | nil => exact items_none ((dropSpace_line _).trans (dropSpace_first solid_closing rest))
  | cons text l ih =>
      generalize later : '\n' :: (l.flatMap fun s => "    ".toList ++ string s ++ ",\n".toList) ++ ']' :: rest = more at ih
      have cut : '\n' :: ((text :: l).flatMap fun s => "    ".toList ++ string s ++ ",\n".toList) ++ ']' :: rest =
          '\n' :: ("    ".toList ++ (string text ++ ',' :: more)) := by
        simp [← later]
      obtain ⟨space, further⟩ := dropSpace_string "    ".toList (List.all_eq_true.mp (by decide)) text (',' :: more)
      have read := value_string levels text (unquoted_cons (c := ',') (by decide) (by decide) more)
      rw [cut, items_step ((dropSpace_line _).trans space) further read
        (dropSpace_first solid_comma more) (by simp; omega), ih]
      rfl

theorem value_strings (levels : Nat) (l : List String) (rest : List Char) :
    value (levels + 1) (strings l ++ rest) = some (.array (l.map Item.string), rest) := by
  have list (text : List Char) : value (levels + 1) ('[' :: text) =
      (items (value levels) text).map fun (l, rest) => (.array l, rest) := by
    rw [value]
  match l with
  | [] =>
      rw [strings, List.cons_append, list, List.singleton_append,
        items_none (dropSpace_first solid_closing rest)]
      rfl
  | [text] =>
      obtain ⟨space, further⟩ := dropSpace_string [] nofun text (']' :: rest)
      have read := value_string levels text (unquoted_cons (c := ']') (by decide) (by decide) rest)
      have one : items (value levels) (string text ++ ']' :: rest) = some ([.string text], rest) :=
        items_last space further read (dropSpace_first solid_closing rest)
      rw [strings, List.cons_append, List.cons_append, list, List.append_assoc, List.singleton_append, one]
      rfl
  | first :: second :: l =>
      have cut : strings (first :: second :: l) ++ rest = '[' ::
          ('\n' :: ((first :: second :: l).flatMap fun s => "    ".toList ++ string s ++ ",\n".toList) ++ ']' :: rest) := by
        simp [strings]
      rw [cut, list, items_lines]
      rfl

/-! ## Numbers and words -/

/-- A run is read up to the end of its line. -/
theorem value_run (levels : Nat) {c : Char} {more : List Char} {item : Item}
    (run : ∀ d ∈ c :: more, isRunChar d = true) (spells : run? (c :: more) = some item) (rest : List Char) :
    value levels (c :: more ++ '\n' :: rest) = some (item, '\n' :: rest) := by
  have stops : isRunChar '\n' = false := by decide
  have taken : (c :: more ++ '\n' :: rest).takeWhile isRunChar = c :: more := by
    rw [List.takeWhile_append_of_pos run, List.takeWhile_cons_of_neg (by simp [stops]), List.append_nil]
  have left : (c :: more ++ '\n' :: rest).dropWhile isRunChar = '\n' :: rest := by
    rw [List.dropWhile_append_of_pos run, List.dropWhile_cons_of_neg (by simp [stops])]
  have first := run c List.mem_cons_self
  have read : runValue? (c :: more ++ '\n' :: rest) = some (item, '\n' :: rest) := by
    rw [runValue?, taken, left, spells]
    rfl
  rw [← read, List.cons_append, value.eq_def]
  dsimp only
  split
  case h_5 => rfl
  all_goals
    rename_i here
    obtain ⟨rfl, _⟩ := List.cons.inj here
    exact absurd first (by decide)

theorem isRunChar_of_isDigit {c : Char} (digit : c.isDigit = true) : isRunChar c = true := by
  simp [isRunChar, Char.isAlphanum, digit]

theorem digit?_ten {c : Char} (digit : c.isDigit = true) : digit? 10 c = some (c.toNat - 48) := by
  have range := digit
  simp only [Char.isDigit, Bool.and_eq_true, decide_eq_true_eq, UInt32.le_iff_toNat_le] at range
  have small : c.toNat - 48 < 10 := by
    have := range.2
    simp at this
    omega
  rw [digit?, if_pos digit]
  simp [small]

theorem digits?_ten {ds : List Char} (digits : ∀ c ∈ ds, c.isDigit = true) : digits? 10 ds = some (Json.digitsValue ds) := by
  have further : ∀ n, ds.foldlM (fun n c => do return n * 10 + (← digit? 10 c)) n =
      some (ds.foldl (fun n d => n * 10 + (d.toNat - 48)) n) := by
    induction ds with
    | nil => exact fun n => rfl
    | cons d ds ih =>
        intro n
        rw [List.foldlM_cons, digit?_ten (digits d List.mem_cons_self)]
        exact ih (fun c member => digits c (List.mem_cons_of_mem d member)) _
  exact further 0

theorem ungrouped?_ten {ds : List Char} (digits : ∀ c ∈ ds, c.isDigit = true) (some : ds ≠ []) :
    ungrouped? 10 ds = Option.some ds := by
  induction ds with
  | nil => exact absurd rfl some
  | cons d ds ih =>
      have digit : (digit? 10 d).isSome = true := by rw [digit?_ten (digits d List.mem_cons_self)]; rfl
      have others : ∀ c ∈ ds, c.isDigit = true := fun c member => digits c (List.mem_cons_of_mem d member)
      rw [ungrouped?.eq_def]
      split
      case h_1 here => cases here
      case h_2 here =>
          obtain ⟨rfl, rfl⟩ := List.cons.inj here
          rw [if_pos digit]
      case h_3 here =>
          obtain ⟨rfl, rfl⟩ := List.cons.inj here
          exact absurd (others '_' List.mem_cons_self) (by decide)
      case h_4 several _ here =>
          obtain ⟨rfl, rfl⟩ := List.cons.inj here
          rw [if_pos digit, ih others several]
          rfl

section Digits

variable {ds : List Char}

theorem absent_of_digits (digits : ∀ c ∈ ds, c.isDigit = true) {c : Char} (other : c.isDigit = false) : c ∉ ds := by
  intro member
  rw [digits c member] at other
  cases other

theorem splitSign_of_digits (digits : ∀ c ∈ ds, c.isDigit = true) : splitSign ds = (false, ds) := by
  rw [splitSign.eq_def]
  split
  · exact absurd List.mem_cons_self (absent_of_digits digits (c := '-') (by decide))
  · exact absurd List.mem_cons_self (absent_of_digits digits (c := '+') (by decide))
  · rfl

theorem isMoment_of_digits (digits : ∀ c ∈ ds, c.isDigit = true) : isMoment ds = false := by
  have time : afterTime? ds = none := by
    rw [afterTime?.eq_def]
    split
    · exact absurd (by simp) (absent_of_digits digits (c := ':') (by decide))
    · rfl
  have date : afterDate? ds = none := by
    rw [afterDate?.eq_def]
    split
    · exact absurd (by simp) (absent_of_digits digits (c := '-') (by decide))
    · rfl
  rw [isMoment, time, date]
  rfl

/-- Digits alone have neither a fraction nor an exponent. -/
theorem float?_of_digits (digits : ∀ c ∈ ds, c.isDigit = true) : float? ds = none := by
  have other {c d : Char} (member : c ∈ ds) (mark : d.isDigit = false) : c ≠ d := by
    rintro rfl
    exact absent_of_digits digits mark member
  have unscaled : ∀ c ∈ ds, (!(c == 'e' || c == 'E')) = true := fun c member => by
    simp [other member (d := 'e') (by decide), other member (d := 'E') (by decide)]
  have unbroken : ∀ c ∈ ds, (c != '.') = true := fun c member => by simp [other member (d := '.') (by decide)]
  have exponent : ds.any (fun c => c == 'e' || c == 'E') = false :=
    List.any_eq_false.mpr fun c member => by simpa using unscaled c member
  simp only [float?, splitSign_of_digits digits, List.takeWhile_eq_self_iff.mpr unscaled,
    List.dropWhile_eq_nil_iff.mpr unscaled, List.takeWhile_eq_self_iff.mpr unbroken,
    List.dropWhile_eq_nil_iff.mpr unbroken, exponent]
  cases decimalDigits? ds <;> rfl

/-- A run of digits is no word and no date. -/
theorem run?_of_digits (digits : ∀ c ∈ ds, c.isDigit = true) : run? ds = integer? ds := by
  have word {w : String} {c : Char} (other : c.isDigit = false) (member : c ∈ w.toList) : ds ≠ w.toList := by
    rintro rfl
    exact absent_of_digits digits other member
  have infinite : ds ≠ "inf".toList := word (c := 'i') (by decide) (by decide)
  have undefined : ds ≠ "nan".toList := word (c := 'n') (by decide) (by decide)
  have special : isSpecial ds = false := by
    simp only [isSpecial, splitSign_of_digits digits, infinite, undefined, decide_false, Bool.or_self]
  rw [run?, if_neg (word (c := 't') (by decide) (by decide)), if_neg (word (c := 'f') (by decide) (by decide)), special,
    isMoment_of_digits digits, float?_of_digits digits]
  rfl

end Digits

theorem decimalDigits?_toDigits (n : Nat) : decimalDigits? (Nat.toDigits 10 n) = some (Nat.toDigits 10 n) := by
  have leading : ¬((Nat.toDigits 10 n).head? = some '0' ∧ (Nat.toDigits 10 n).length > 1) := by
    by_cases zero : n = 0
    · subst zero
      simp
    · exact fun ⟨head, _⟩ => Json.head?_toDigits zero head
  rw [decimalDigits?, if_neg (by simpa using leading)]
  exact ungrouped?_ten (fun c => Json.isDigit_toDigits) Nat.toDigits_ne_nil

/-- A number below the bound of words is read back from its digits. -/
theorem run?_toDigits {n : Nat} (small : n < Word.bound) : run? (Nat.toDigits 10 n) = some (.integer n) := by
  have digits : ∀ c ∈ Nat.toDigits 10 n, c.isDigit = true := fun c => Json.isDigit_toDigits
  have fits : Word.fits n = true := decide_eq_true (by omega)
  have value : digits? 10 (Nat.toDigits 10 n) = some n := by rw [digits?_ten digits, Json.digitsValue_toDigits]
  rw [run?_of_digits digits, integer?.eq_def]
  split
  · rename_i here
    exact absurd (by rw [here]; simp) (absent_of_digits digits (c := 'x') (by decide))
  · rename_i here
    exact absurd (by rw [here]; simp) (absent_of_digits digits (c := 'o') (by decide))
  · rename_i here
    exact absurd (by rw [here]; simp) (absent_of_digits digits (c := 'b') (by decide))
  · rw [splitSign_of_digits digits]
    dsimp only
    rw [decimalDigits?_toDigits]
    dsimp only [Option.bind_eq_bind, Option.bind_some]
    rw [value, Option.bind_some, if_neg (by decide), fit?, if_pos fits]

theorem value_number (levels : Nat) {n : Nat} (small : n < Word.bound) (rest : List Char) :
    value levels (Nat.toDigits 10 n ++ '\n' :: rest) = some (.integer n, '\n' :: rest) := by
  obtain ⟨c, more, written⟩ := List.exists_cons_of_ne_nil (Nat.toDigits_ne_nil (n := n) (b := 10))
  have spells := run?_toDigits small
  have digits : ∀ c ∈ Nat.toDigits 10 n, c.isDigit = true := fun c => Json.isDigit_toDigits
  rw [written] at spells digits ⊢
  exact value_run levels (fun d member => isRunChar_of_isDigit (digits d member)) spells rest

theorem value_boolean (levels : Nat) (b : Bool) (rest : List Char) :
    value levels ((if b then "true".toList else "false".toList) ++ '\n' :: rest) = some (.boolean b, '\n' :: rest) := by
  cases b with
  | true => exact value_run levels (List.all_eq_true.mp (by decide)) rfl rest
  | false => exact value_run levels (List.all_eq_true.mp (by decide)) rfl rest

/-! ## Lines -/

/-- A key that is written without quotes. -/
structure Bare (key : String) : Prop where
  some : key.toList ≠ []
  plain : ∀ c ∈ key.toList, isKeyChar c = true

theorem bare_of_all {key : String} (plain : (!key.toList.isEmpty && key.toList.all isKeyChar) = true) : Bare key := by
  rw [Bool.and_eq_true, Bool.not_eq_true', List.isEmpty_eq_false_iff, List.all_eq_true] at plain
  exact ⟨plain.1, plain.2⟩

theorem solid_of_isKeyChar {c : Char} (plain : isKeyChar c = true) :
    isBlank c = false ∧ c ≠ '"' ∧ c ≠ '\'' ∧ c ≠ '#' ∧ c ≠ '\n' ∧ c ≠ '\r' ∧ c ≠ '[' ∧ c ≠ '\ufeff' := by
  refine ⟨?_, ?_, ?_, ?_, ?_, ?_, ?_, ?_⟩
  · cases blank : isBlank c with
    | false => rfl
    | true =>
        have known : c = ' ' ∨ c = '\t' := by simpa [isBlank] using blank
        rcases known with rfl | rfl <;> exact absurd plain (by decide)
  all_goals
    rintro rfl
    exact absurd plain (by decide)

theorem keyPart?_bare {key : String} (bare : Bare key) (rest : List Char) :
    keyPart? (key.toList ++ ' ' :: rest) = some (key, ' ' :: rest) := by
  have stops : isKeyChar ' ' = false := by decide
  have taken : (key.toList ++ ' ' :: rest).takeWhile isKeyChar = key.toList := by
    rw [List.takeWhile_append_of_pos bare.plain, List.takeWhile_cons_of_neg (by simp [stops]), List.append_nil]
  have left : (key.toList ++ ' ' :: rest).dropWhile isKeyChar = ' ' :: rest := by
    rw [List.dropWhile_append_of_pos bare.plain, List.dropWhile_cons_of_neg (by simp [stops])]
  obtain ⟨c, more, spelled⟩ := List.exists_cons_of_ne_nil bare.some
  obtain ⟨_, double, single, _⟩ := solid_of_isKeyChar (bare.plain c (by rw [spelled]; exact List.mem_cons_self))
  rw [keyPart?.eq_def]
  split
  · rename_i here
    rw [spelled] at here
    exact absurd (List.cons.inj here).1 double
  · rename_i here
    rw [spelled] at here
    exact absurd (List.cons.inj here).1 single
  · dsimp only
    rw [taken, left, if_neg (by simpa using bare.some), String.ofList_toList]

theorem key?_bare {key : String} (bare : Bare key) (rest : List Char) :
    key? (key.toList ++ ' ' :: '=' :: rest) = some (([], key), '=' :: rest) := by
  obtain ⟨c, more, spelled⟩ := List.exists_cons_of_ne_nil bare.some
  have solid := (solid_of_isKeyChar (bare.plain c (by rw [spelled]; exact List.mem_cons_self))).1
  have start : dropBlanks (key.toList ++ ' ' :: '=' :: rest) = key.toList ++ ' ' :: '=' :: rest := by
    rw [spelled, List.cons_append]
    exact dropBlanks_solid [] nofun solid _
  have sign : dropBlanks (' ' :: '=' :: rest) = '=' :: rest := dropBlanks_solid [' '] (List.all_eq_true.mp (by decide)) rfl rest
  have parts : keyParts (key.toList ++ ' ' :: '=' :: rest) = some ([key], '=' :: rest) := by
    rw [keyParts, start, keyPart?_bare bare]
    simp [sign]
  rw [key?, parts]
  rfl

/-- A key, the text of its value, and the value. -/
structure Row where
  key : String
  text : List Char
  item : Item

namespace Row

/-- The value is read back from its text, up to the end of the line. -/
structure Reads (r : Row) : Prop where
  bare : Bare r.key
  starts : ∃ c more, r.text = c :: more ∧ isBlank c = false
  value : ∀ rest, value (depthLimit - 1) (r.text ++ '\n' :: rest) = some (r.item, '\n' :: rest)

variable {r : Row}

theorem line_append (r : Row) (rest : List Char) :
    line r.key r.text ++ rest = r.key.toList ++ ' ' :: '=' :: ' ' :: (r.text ++ '\n' :: rest) := by
  simp [line]

theorem Reads.statement_line (reads : r.Reads) (p : Progress) (rest : List Char) :
    statement p (line r.key r.text ++ rest) = (p.enter [] r.key r.item).map fun p => (p, rest) := by
  obtain ⟨c, more, spelled⟩ := List.exists_cons_of_ne_nil reads.bare.some
  obtain ⟨_, _, _, comment, line, feed, bracket, _⟩ :=
    solid_of_isKeyChar (reads.bare.plain c (by rw [spelled]; exact List.mem_cons_self))
  have sign : dropBlanks (' ' :: (r.text ++ '\n' :: rest)) = r.text ++ '\n' :: rest := by
    obtain ⟨d, tail, text, solid⟩ := reads.starts
    rw [text]
    exact dropBlanks_solid [' '] (List.all_eq_true.mp (by decide)) solid _
  have ends : afterLine? ('\n' :: rest) = some rest := rfl
  rw [line_append]
  have pair := key?_bare reads.bare (' ' :: (r.text ++ '\n' :: rest))
  rw [statement.eq_def]
  split
  case h_6 =>
    simp only [pair, Option.bind_eq_bind, Option.bind_some, sign, reads.value, ends]
    cases p.enter [] r.key r.item <;> rfl
  all_goals
    rename_i here
    rw [spelled] at here
    have first := (List.cons.inj here).1
    contradiction

theorem Reads.statements_line (reads : r.Reads) (p : Progress) (rest : List Char) :
    statements p (line r.key r.text ++ rest) = (p.enter [] r.key r.item).bind fun p => statements p rest := by
  obtain ⟨c, more, spelled⟩ := List.exists_cons_of_ne_nil reads.bare.some
  have solid := (solid_of_isKeyChar (reads.bare.plain c (by rw [spelled]; exact List.mem_cons_self))).1
  have start : dropBlanks (line r.key r.text ++ rest) = line r.key r.text ++ rest := by
    rw [line_append, spelled, List.cons_append]
    exact dropBlanks_solid [] nofun solid _
  have shorter : rest.length < (line r.key r.text ++ rest).length := by
    simp only [line, List.length_append, List.length_singleton]
    omega
  rw [statements, start]
  split
  · rename_i nothing
    rw [nothing] at shorter
    cases shorter
  · rw [reads.statement_line]
    cases p.enter [] r.key r.item with
    | none => rfl
    | some next => exact if_pos shorter

end Row

/-! ## Documents -/

namespace Fields

variable {t : Fields} {key : String}

theorem get?_eq_none : t.get? key = none ↔ key ∉ t.map Prod.fst := by
  rw [get?, Option.map_eq_none_iff, List.find?_eq_none, List.mem_map]
  constructor
  · rintro others ⟨f, member, same⟩
    exact others f member (beq_iff_eq.mpr same)
  · exact fun absent f member same => absent ⟨f, member, beq_iff_eq.mp same⟩

/-- An item is put behind the others under a key that is not there. -/
theorem set_of_fresh (fresh : key ∉ t.map Prod.fst) (item : Item) : t.set key item = t ++ [(key, item)] := by
  induction t with
  | nil => rfl
  | cons f t ih =>
      rw [List.map_cons, List.mem_cons, not_or] at fresh
      rw [set, if_neg (Ne.symm fresh.1), ih fresh.2, List.cons_append]

theorem enter_fresh (fresh : key ∉ t.map Prod.fst) (item : Item) : t.enter [] key item = some (t ++ [(key, item)]) := by
  rw [enter, descend, if_neg (by decide), get?_eq_none.mpr fresh, ← set_of_fresh fresh]
  rfl

end Fields

/-- The pairs that rows give. -/
def pairsOf (rows : List Row) : Fields := rows.map fun r => (r.key, r.item)

theorem keys_pairsOf (rows : List Row) : (pairsOf rows).map Prod.fst = rows.map Row.key := by
  rw [pairsOf, List.map_map]
  rfl

theorem get?_pairsOf {rows : List Row} (apart : (rows.map Row.key).Nodup) {r : Row} (member : r ∈ rows) :
    (pairsOf rows).get? r.key = some r.item := by
  induction rows with
  | nil => cases member
  | cons s rows ih =>
      rw [List.map_cons, List.nodup_cons] at apart
      rw [pairsOf, List.map_cons, Fields.get?, List.find?_cons]
      rcases List.mem_cons.mp member with rfl | later
      · rw [beq_self_eq_true]
        rfl
      · have other : s.key ≠ r.key := by
          intro same
          exact apart.1 (same ▸ List.mem_map_of_mem later)
        rw [beq_eq_false_iff_ne.mpr other]
        exact ih apart.2 later

/-- The lines of a document. -/
def linesOf (rows : List Row) : List Char := rows.flatMap fun r => line r.key r.text

theorem statements_lines {rows : List Row} (reads : ∀ r ∈ rows, r.Reads) {t : Fields}
    (apart : (t.map Prod.fst ++ rows.map Row.key).Nodup) :
    statements ⟨t, none⟩ (linesOf rows) = some (t ++ pairsOf rows) := by
  -- Each line enters its pair behind those before it, so the table so far varies.
  induction rows generalizing t with
  | nil =>
      rw [statements]
      simp [linesOf, pairsOf, dropBlanks]
  | cons r rows ih =>
      have fresh : r.key ∉ t.map Prod.fst := fun member =>
        (List.nodup_append.mp apart).2.2 r.key member r.key List.mem_cons_self rfl
      have entered : Progress.enter ⟨t, none⟩ [] r.key r.item = some ⟨t ++ [(r.key, r.item)], none⟩ := by
        rw [Progress.enter, Fields.enter_fresh fresh]
        rfl
      have later := ih (fun s member => reads s (List.mem_cons_of_mem r member)) (t := t ++ [(r.key, r.item)])
        (by simpa using apart)
      rw [linesOf, List.flatMap_cons, (reads r List.mem_cons_self).statements_line, entered, Option.bind_some]
      change statements _ (linesOf rows) = _
      rw [later, pairsOf, pairsOf, List.map_cons, List.append_assoc, List.singleton_append]

/-- A document is read back from its lines, if each value is read back from its line and no key is given twice. -/
theorem parse_lines {rows : List Row} (reads : ∀ r ∈ rows, r.Reads) (apart : (rows.map Row.key).Nodup) :
    parse (String.ofList (linesOf rows)) = some (pairsOf rows) := by
  have read : statements ⟨[], none⟩ (linesOf rows) = some (pairsOf rows) := statements_lines reads apart
  rw [parse, String.toList_ofList]
  split
  · rename_i more marked
    -- A line begins with a character of its key, and that is no mark.
    rcases rows with _ | ⟨r, rows⟩
    · cases marked
    · have bare := (reads r List.mem_cons_self).bare
      obtain ⟨c, tail, spelled⟩ := List.exists_cons_of_ne_nil bare.some
      rw [linesOf, List.flatMap_cons, Row.line_append, spelled] at marked
      obtain ⟨_, _, _, _, _, _, _, mark⟩ := solid_of_isKeyChar (bare.plain c (by rw [spelled]; exact List.mem_cons_self))
      exact absurd (List.cons.inj marked).1 mark
  · exact read

end QmlIndex.Toml
