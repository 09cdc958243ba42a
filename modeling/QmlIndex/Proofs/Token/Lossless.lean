import QmlIndex.Proofs.Token.Places
import QmlIndex.Proofs.Outline.Lexing

/-! # Tokenisation loses nothing

The tokens of a text, with the blanks and comments between them, put together are the text. A declarative account of
the lexical classes says how each kind of token is spelled, what may stand between tokens, and where a spelling ends;
the places of the tokens are those that counting lines and characters gives. This account leaves no choice: a text can
be tiled in one way only, and the scanner finds it.
-/

namespace QmlIndex

open Text

/-! ## Counted places -/

namespace Position

/-- The place behind a text: as many lines as the text has line feeds, and as many characters as stand behind the last
    of them. -/
structure Behind (p : Position) (before : List Char) : Prop where
  line : p.line.toNat = before.count '\n'
  character : p.character.toNat = (before.reverse.takeWhile (· != '\n')).length

variable {p q : Position} {before text : List Char}

theorem behind_origin : origin.Behind [] := ⟨rfl, rfl⟩

theorem Behind.eq (left : p.Behind before) (right : q.Behind before) : p = q := by
  obtain ⟨line, character⟩ := p
  obtain ⟨line', character'⟩ := q
  congr 1
  · exact UInt32.toNat_inj.mp (left.line.trans right.line.symm)
  · exact UInt32.toNat_inj.mp (left.character.trans right.character.symm)

theorem Behind.advance (behind : p.Behind before) {c : Char}
    (room : (if c = '\n' then p.line else p.character).toNat + 1 < 4294967296) :
    (p.advance c).Behind (before ++ [c]) := by
  unfold Position.advance
  by_cases newline : c = '\n'
  · rw [if_pos newline] at room ⊢
    exact ⟨by simp [toNat_count room, behind.line, newline], by simp [newline]⟩
  · rw [if_neg newline] at room ⊢
    refine ⟨by simp [behind.line, newline], ?_⟩
    simp [toNat_count room, behind.character, newline]

theorem Behind.after (behind : p.Behind before) (counts : p.Counts text) : (p.after text).Behind (before ++ text) := by
  induction text generalizing p before with
  | nil => simpa using behind
  | cons c text ih =>
      have further := ih (behind.advance counts.1) counts.2
      rwa [List.append_assoc, List.singleton_append] at further

end Position

namespace Token

/-! ## Lexical classes -/

/-- A character that starts a run and characters that continue it. -/
def IsRun (starts continues : Char → Bool) (s : List Char) : Prop :=
  ∃ c rest, s = c :: rest ∧ starts c = true ∧ ∀ d ∈ rest, continues d = true

def IsWord : List Char → Prop := IsRun isIdentStart isIdentContinue

def IsNumeral : List Char → Prop := IsRun Char.isDigit isNumberContinue

/-- The text is in the class, and no longer beginning of what stands there is. -/
def Longest (P : List Char → Prop) (s rest : List Char) : Prop :=
  P s ∧ ∀ longer, longer <+: s ++ rest → P longer → longer.length ≤ s.length

/-- From an opening mark to the first closing mark behind it. -/
def IsBlockComment (s : List Char) : Prop :=
  ∃ body, s = '/' :: '*' :: (body ++ ['*', '/']) ∧ ¬ ['*', '/'] <:+: body ++ ['*']

def quotes : List Char := ['"', '\'', '\x60']

/-- What stands between the quotes of a literal. -/
inductive Inside (quote : Char) : List Char → Prop where
  | nil : Inside quote []
  | escaped (c : Char) {rest : List Char} : Inside quote rest → Inside quote ('\\' :: c :: rest)
  /-- Only a backquoted literal has line breaks that are not escaped. -/
  | plain {c : Char} {rest : List Char} : c ≠ quote → c ≠ '\\' → (c = '\n' → quote = '\x60') →
      Inside quote rest → Inside quote (c :: rest)

/-- A character that belongs to no other class and opens no comment with what follows it. -/
structure IsMark (c : Char) (rest : List Char) : Prop where
  solid : isBlank c = false
  unquoted : c ∉ quotes
  noWord : isIdentStart c = false
  noNumeral : c.isDigit = false
  noComment : c = '/' → rest.head? ≠ some '/' ∧ rest.head? ≠ some '*'

/-- How a token of a kind is spelled, with the text behind it. -/
inductive Spells : TokenKind → List Char → List Char → Prop where
  | ident {s rest : List Char} : Longest IsWord s rest → Spells (.ident (String.ofList s)) s rest
  | number {s rest : List Char} : Longest IsNumeral s rest → Spells (.number (String.ofList s)) s rest
  | str {quote : Char} {value rest : List Char} : quote ∈ quotes → Inside quote value →
      Spells (.str (String.ofList value)) (quote :: (value ++ [quote])) rest
  | punct {c : Char} {rest : List Char} : IsMark c rest → Spells (.punct c) [c] rest
  | lineFeed {rest : List Char} : Spells .newline ['\n'] rest
  | comment {s rest : List Char} : IsBlockComment s → '\n' ∈ s → Spells .newline s rest

/-- What stands for no token, with the text behind it. -/
inductive Skipped : List Char → List Char → Prop where
  | blank {c : Char} {rest : List Char} : isBlank c = true → c ≠ '\n' → Skipped [c] rest
  | lineComment {body rest : List Char} : '\n' ∉ body → (∀ c ∈ rest.head?, c = '\n') →
      Skipped ('/' :: '/' :: body) rest
  | blockComment {s rest : List Char} : IsBlockComment s → '\n' ∉ s → Skipped s rest

/-- Behind the text `before`, the tokens in their places and what is skipped between them make up a text. -/
inductive Tiles : List Char → List Token → List Char → Prop where
  | done {before : List Char} : Tiles before [] []
  | skip {before s rest : List Char} {tokens : List Token} : Skipped s rest →
      Tiles (before ++ s) tokens rest → Tiles before tokens (s ++ rest)
  | token {before s rest : List Char} {t : Token} {tokens : List Token} : Spells t.kind s rest →
      t.range.start.Behind before → t.range.stop.Behind (before ++ s) →
      Tiles (before ++ s) tokens rest → Tiles before (t :: tokens) (s ++ rest)

/-! ## Where a spelling ends -/

section

variable {starts continues : Char → Bool} {c : Char} {body rest : List Char}

/-- A run is the longest one if what follows does not continue it. -/
theorem longest_run_iff : Longest (IsRun starts continues) (c :: body) rest ↔
    starts c = true ∧ (∀ d ∈ body, continues d = true) ∧ ∀ d ∈ rest.head?, continues d = false := by
  constructor
  · rintro ⟨⟨_, _, same, start, further⟩, longest⟩
    cases same
    refine ⟨start, further, fun d front => ?_⟩
    cases stops : continues d with
    | false => rfl
    | true =>
        -- Otherwise the run with one character more would be a run as well.
        obtain ⟨more, rfl⟩ : ∃ more, rest = d :: more := by
          cases rest with
          | nil => cases front
          | cons e more =>
              cases front
              exact ⟨more, rfl⟩
        have longer : IsRun starts continues (c :: body ++ [d]) := by
          refine ⟨c, body ++ [d], rfl, start, fun e member => ?_⟩
          rcases List.mem_append.mp member with inner | last
          · exact further e inner
          · rwa [List.mem_singleton.mp last]
        have bound := longest _ ⟨more, by simp⟩ longer
        simp only [List.length_append, List.length_singleton] at bound
        omega
  · rintro ⟨start, further, stops⟩
    refine ⟨⟨c, body, rfl, start, further⟩, ?_⟩
    rintro longer front ⟨_, tail, rfl, _, all⟩
    rw [List.cons_append, List.cons_prefix_cons] at front
    by_contra exceeds
    have short : body.length < tail.length := by simpa using exceeds
    -- The longer run would take in the character that stops it.
    have inside : body <+: tail := List.prefix_of_prefix_length_le (List.prefix_append body rest) front.2 (by omega)
    obtain ⟨more, rfl⟩ := inside
    cases more with
    | nil => simp at short
    | cons d more =>
        have next : [d] <+: rest := by
          have cut := (List.prefix_append_right_inj body).mp front.2
          exact (List.prefix_append [d] more).trans cut
        obtain ⟨_, rfl⟩ := next
        have stop := stops d rfl
        rw [all d (by simp)] at stop
        cases stop

end

end Token

namespace Piece

open Token

theorem closing_cons {c : Char} {body : List Char} : ['*', '/'] <:+: c :: body ++ ['*'] ↔
    (c = '*' ∧ body.head? = some '/') ∨ ['*', '/'] <:+: body ++ ['*'] := by
  rw [List.cons_append, List.infix_cons_iff, List.cons_prefix_cons]
  cases body with
  | nil => simp
  | cons d body => simp [eq_comm]

theorem closeComment_closes {text s after : List Char} (closed : closeComment text = some (s, after)) :
    ∃ body, s = body ++ ['*', '/'] ∧ ¬ ['*', '/'] <:+: body ++ ['*'] := by
  fun_induction closeComment text generalizing s after with
  | case1 rest =>
      cases closed
      exact ⟨[], rfl, by simp [List.infix_cons_iff]⟩
  | case2 c rest elsewhere ih =>
      obtain ⟨⟨inner, _⟩, found, same⟩ := Option.map_eq_some_iff.mp closed
      cases same
      obtain ⟨body, rfl, unclosed⟩ := ih found
      refine ⟨c :: body, rfl, fun closes => ?_⟩
      rcases closing_cons.mp closes with ⟨rfl, front⟩ | later
      · -- The closing mark would have been found here.
        have text := closeComment_eq_append found
        cases body with
        | nil => cases front
        | cons d body =>
            cases front
            exact elsewhere (body ++ ['*', '/'] ++ after) rfl (by simpa using text)
      · exact unclosed later
  | case3 => cases closed

theorem closeComment_append {body : List Char} (unclosed : ¬ ['*', '/'] <:+: body ++ ['*']) (rest : List Char) :
    closeComment (body ++ '*' :: '/' :: rest) = some (body ++ ['*', '/'], rest) := by
  induction body with
  | nil => simp [closeComment]
  | cons c body ih =>
      rw [closing_cons, not_or] at unclosed
      have further := ih unclosed.2
      rw [List.cons_append, closeComment]
      · rw [further]
        rfl
      · rintro more rfl shape
        apply unclosed.1
        cases body with
        | nil => cases shape
        | cons d body =>
            cases shape
            exact ⟨rfl, rfl⟩

theorem closeString_inside {quote : Char} {text value after : List Char}
    (closed : closeString quote text = some (value, after)) : Inside quote value := by
  fun_induction closeString quote text generalizing value after with
  | case1 | case3 | case5 => cases closed
  | case2 rest =>
      cases closed
      exact .nil
  | case4 escaped more _ ih =>
      obtain ⟨⟨inner, _⟩, found, same⟩ := Option.map_eq_some_iff.mp closed
      cases same
      exact .escaped escaped (ih found)
  | case6 c rest other unescaped unbroken ih =>
      obtain ⟨⟨inner, _⟩, found, same⟩ := Option.map_eq_some_iff.mp closed
      cases same
      exact .plain other unescaped (by simpa using unbroken) (ih found)

theorem closeString_append {quote : Char} {value : List Char} (inside : Inside quote value) (plain : quote ≠ '\\')
    (rest : List Char) : closeString quote (value ++ quote :: rest) = some (value, rest) := by
  induction inside with
  | nil => simp [closeString.eq_def]
  | escaped c _ ih =>
      rw [List.cons_append, List.cons_append, closeString.eq_def]
      simp [plain.symm, ih]
  | plain other unescaped unbroken _ ih =>
      rw [List.cons_append, closeString.eq_def]
      simpa [other, unescaped, ih] using unbroken

/-- The piece is what the text before `after` stands for. -/
def Sound (piece : Piece) (after : List Char) : Prop :=
  match piece.kind with
  | some kind => Spells kind piece.text after
  | none => Skipped piece.text after

theorem isBlockComment_of_close {text s after : List Char} (closed : closeComment text = some (s, after)) :
    IsBlockComment ('/' :: '*' :: s) := by
  obtain ⟨body, rfl, unclosed⟩ := closeComment_closes closed
  exact ⟨body, rfl, unclosed⟩

/-- A run is cut where it stops. -/
theorem longest_run {starts continues : Char → Bool} {c : Char} (start : starts c = true) (rest : List Char) :
    Longest (IsRun starts continues) (c :: rest.takeWhile continues) (rest.dropWhile continues) := by
  refine longest_run_iff.mpr ⟨start, List.all_eq_true.mp List.all_takeWhile, fun d front => ?_⟩
  have stops := List.head?_dropWhile_not continues rest
  rw [front] at stops
  simpa using stops

theorem next_sound {c : Char} {rest after : List Char} {piece : Piece} (cut : next c rest = .ok (piece, after)) :
    piece.Sound after := by
  unfold next at cut
  split at cut
  · rename_i newline
    cases cut
    rw [newline]
    exact .lineFeed
  rename_i newline
  split at cut
  · rename_i blank
    cases cut
    exact .blank blank newline
  rename_i solid
  split at cut
  · rename_i slashes
    cases cut
    obtain ⟨rfl, more, rfl⟩ : c = '/' ∧ ∃ more, rest = '/' :: more := by
      simpa [List.head?_eq_some_iff] using slashes
    have body : '\n' ∉ more.takeWhile (· != '\n') := fun member => by
      simpa using List.all_eq_true.mp List.all_takeWhile _ member
    refine .lineComment body fun d front => ?_
    have stops := List.head?_dropWhile_not (· != '\n') more
    rw [show ('/' :: more).dropWhile (· != '\n') = more.dropWhile (· != '\n') from rfl] at front
    rw [front] at stops
    simpa using stops
  rename_i noLineComment
  split at cut
  · rename_i slashStar
    split at cut
    · cases cut
    · rename_i body tail closed
      cases cut
      obtain rfl : c = '/' := by simp_all
      have comment := isBlockComment_of_close closed
      have breaks : '\n' ∈ '/' :: '*' :: body ↔ body.contains '\n' = true := by simp
      unfold Sound
      cases here : body.contains '\n' with
      | true => exact .comment comment (breaks.mpr here)
      | false => exact .blockComment comment (by rw [breaks, here]; simp)
  rename_i noBlockComment
  split at cut
  · rename_i quote
    split at cut
    · cases cut
    · rename_i body tail closed
      cases cut
      exact .str (by simpa [quotes, or_assoc] using quote) (closeString_inside closed)
  rename_i unquoted
  split at cut
  · rename_i start
    cases cut
    exact .ident (longest_run start rest)
  rename_i noWord
  split at cut
  · rename_i digit
    cases cut
    exact .number (longest_run digit rest)
  · rename_i noNumeral
    cases cut
    refine .punct ⟨by simpa using solid, by simpa [quotes, or_assoc] using unquoted, by simpa using noWord,
      by simpa using noNumeral, ?_⟩
    rintro rfl
    exact ⟨by simpa using noLineComment, by simpa using noBlockComment⟩

theorem next_blockComment {s : List Char} (comment : IsBlockComment s) (after : List Char) :
    ∃ rest, s = '/' :: rest ∧
      next '/' (rest ++ after) = .ok (⟨if '\n' ∈ s then some .newline else none, s⟩, after) := by
  obtain ⟨body, rfl, unclosed⟩ := comment
  have closed := closeComment_append unclosed after
  have solid : isBlank '/' = false := by decide
  exact ⟨'*' :: (body ++ ['*', '/']), rfl, by simp [next, solid, closed]⟩

theorem next_skipped {s after : List Char} (skipped : Skipped s after) :
    ∃ c rest, s = c :: rest ∧ next c (rest ++ after) = .ok (⟨none, s⟩, after) := by
  cases skipped with
  | @blank c rest blank other => exact ⟨c, [], rfl, by simp [next, other, blank]⟩
  | @lineComment body rest unbroken ends =>
      have inside : ∀ d ∈ '/' :: body, (d != '\n') = true := by
        intro d member
        rcases List.mem_cons.mp member with rfl | inner
        · rfl
        · exact bne_iff_ne.mpr fun same => unbroken (same ▸ inner)
      have stops : ∀ d ∈ after.head?, (d != '\n') = false := fun d front => by simp [ends d front]
      obtain ⟨taken, dropped⟩ := Outline.takeWhile_append_of_stops inside stops
      have solid : isBlank '/' = false := by decide
      refine ⟨'/', '/' :: body, rfl, ?_⟩
      unfold next
      rw [taken, dropped]
      simp [solid]
  | blockComment comment unbroken =>
      obtain ⟨rest, shape, cut⟩ := next_blockComment comment after
      rw [if_neg unbroken] at cut
      exact ⟨'/', rest, shape, cut⟩

theorem next_spelled {kind : TokenKind} {s after : List Char} (spelled : Spells kind s after) :
    ∃ c rest, s = c :: rest ∧ next c (rest ++ after) = .ok (⟨some kind, s⟩, after) := by
  cases spelled with
  | ident longest =>
      obtain ⟨c, body, rfl, _⟩ := longest.1
      obtain ⟨start, further, stops⟩ := longest_run_iff.mp longest
      obtain ⟨taken, dropped⟩ := Outline.takeWhile_append_of_stops further stops
      have other : ∀ d, isIdentStart d = false → c ≠ d := by
        rintro d no_start rfl
        rw [start] at no_start
        cases no_start
      refine ⟨c, body, rfl, ?_⟩
      simp [next, run, taken, dropped, start, Outline.isBlank_of_isIdentStart start, other '\n' (by decide),
        other '/' (by decide), other '"' (by decide), other '\'' (by decide), other '\x60' (by decide)]
  | number longest =>
      obtain ⟨c, body, rfl, _⟩ := longest.1
      obtain ⟨digit, further, stops⟩ := longest_run_iff.mp longest
      obtain ⟨taken, dropped⟩ := Outline.takeWhile_append_of_stops further stops
      obtain ⟨no_word, solid⟩ := Outline.isIdentStart_of_isDigit digit
      have other : ∀ d, Char.isDigit d = false → c ≠ d := by
        rintro d no_digit rfl
        rw [digit] at no_digit
        cases no_digit
      refine ⟨c, body, rfl, ?_⟩
      simp [next, run, taken, dropped, digit, no_word, solid, other '\n' (by decide), other '/' (by decide),
        other '"' (by decide), other '\'' (by decide), other '\x60' (by decide)]
  | @str quote value rest listed inside =>
      refine ⟨quote, value ++ [quote], rfl, ?_⟩
      have opens : quote = '"' ∨ quote = '\'' ∨ quote = '\x60' := by simpa [quotes] using listed
      obtain ⟨solid, no_break, no_comment, no_escape⟩ :
          isBlank quote = false ∧ quote ≠ '\n' ∧ quote ≠ '/' ∧ quote ≠ '\\' := by
        rcases opens with rfl | rfl | rfl <;> decide
      have closed := closeString_append inside no_escape after
      simp [next, solid, no_break, no_comment, closed, or_assoc, opens]
  | @punct c rest mark =>
      refine ⟨c, [], rfl, ?_⟩
      have no_break : c ≠ '\n' := by
        rintro rfl
        cases mark.solid
      have unquoted : c ≠ '"' ∧ c ≠ '\'' ∧ c ≠ '\x60' := by simpa [quotes] using mark.unquoted
      by_cases slash : c = '/'
      · simp [next, no_break, mark.solid, mark.noWord, mark.noNumeral, unquoted, mark.noComment slash]
      · simp [next, no_break, mark.solid, mark.noWord, mark.noNumeral, unquoted, slash]
  | lineFeed => exact ⟨'\n', [], rfl, rfl⟩
  | comment comment breaks =>
      obtain ⟨rest, shape, cut⟩ := next_blockComment comment after
      rw [if_pos breaks] at cut
      exact ⟨'/', rest, shape, cut⟩

end Piece

/-! ## Whole texts -/

namespace Cut

open Token

theorem ofText_cons {c : Char} {rest after : List Char} {piece : Piece} (cut : Piece.next c rest = .ok (piece, after)) :
    ofText (c :: rest) = ⟨piece :: (ofText after).pieces, (ofText after).fault⟩ := by
  rw [ofText]
  split
  · rename_i failed
    rw [cut] at failed
    cases failed
  · rename_i found
    rw [cut] at found
    cases found
    rfl

variable {p : Position} {before text : List Char} {tokens : List Token}

/-- A text that can be cut to its end is tiled by its tokens. -/
theorem tiles_of_whole (whole : (ofText text).fault = none) (behind : p.Behind before) (counts : p.Counts text) :
    Tiles before (place p (ofText text).pieces) text := by
  fun_induction ofText text generalizing p before with
  | case1 => exact .done
  | case2 => cases whole
  | case3 c rest piece after cut more =>
      rename_i ih
      have sound := Piece.next_sound cut
      rw [Piece.next_eq_append cut] at counts ⊢
      rw [Position.counts_append] at counts
      have stop := behind.after counts.1
      have further := ih whole stop counts.2
      unfold Piece.Sound at sound
      rw [place]
      cases kind : piece.kind with
      | none =>
          rw [kind] at sound
          exact .skip sound further
      | some k =>
          rw [kind] at sound
          exact .token sound behind stop further

/-- Tokens that tile a text are those that the text is cut into. -/
theorem whole_of_tiles (tiles : Tiles before tokens text) (behind : p.Behind before) (counts : p.Counts text) :
    (ofText text).fault = none ∧ place p (ofText text).pieces = tokens := by
  induction tiles generalizing p with
  | done => simp [ofText, place]
  | skip skipped _ ih =>
      obtain ⟨c, more, rfl, cut⟩ := Piece.next_skipped skipped
      rw [Position.counts_append] at counts
      rw [List.cons_append, ofText_cons cut]
      exact ih (behind.after counts.1) counts.2
  | @token before s rest t tokens spelled start stop _ ih =>
      obtain ⟨c, more, rfl, cut⟩ := Piece.next_spelled spelled
      rw [Position.counts_append] at counts
      have reached := behind.after counts.1
      obtain ⟨whole, same⟩ := ih reached counts.2
      rw [List.cons_append, ofText_cons cut]
      refine ⟨whole, ?_⟩
      rw [place, same, reached.eq stop, behind.eq start]

end Cut

namespace Token

variable {text : List Char} {tokens : List Token}

theorem scan_iff_tiles (counts : Position.origin.Counts text) : scan text = .ok tokens ↔ Tiles [] tokens text := by
  rw [scan_eq_ok]
  constructor
  · rintro ⟨whole, rfl⟩
    exact Cut.tiles_of_whole whole Position.behind_origin counts
  · exact fun tiles => Cut.whole_of_tiles tiles Position.behind_origin counts

/-- The tokens of a text stand one behind the other. -/
theorem pairwise_of_chain (proper : ∀ t ∈ tokens, t.range.start.lt t.range.stop = true) (chain : tokens.IsChain Precedes) :
    tokens.Pairwise fun t u => t.range.stop.le u.range.start = true := by
  induction tokens with
  | nil => exact .nil
  | cons t rest ih =>
      have later := ih (fun u member => proper u (List.mem_cons_of_mem t member)) chain.tail
      refine List.pairwise_cons.mpr ⟨fun v member => ?_, later⟩
      cases rest with
      | nil => cases member
      | cons u more =>
          have near := ((List.isChain_cons.mp chain).1 u rfl).1
          cases member with
          | head => exact near
          | tail _ inner =>
              have filled := proper u (by simp)
              have far := (List.pairwise_cons.mp later).1 v inner
              rw [Position.le_iff_rank] at near far ⊢
              rw [Position.lt_iff_rank] at filled
              omega

/-- Of a text that is not too long to count, the tokens are in order and apart, each of them is the text from its start
    to its stop, and between them there are only blanks and comments; no other tokens make up the text. -/
theorem scan_lossless (short : text.length < 4294967296) (scanned : scan text = .ok tokens) :
    (∀ t ∈ tokens, t.range.start.lt t.range.stop = true) ∧
      tokens.Pairwise (fun t u => t.range.stop.le u.range.start = true) ∧
      Tiles [] tokens text ∧ ∀ others, Tiles [] others text → others = tokens := by
  have counts : Position.origin.Counts text := Position.counts_of_length short
  obtain ⟨proper, chain⟩ := scan_places counts scanned
  refine ⟨proper, pairwise_of_chain proper chain, (scan_iff_tiles counts).mp scanned, fun others tiles => ?_⟩
  have again := (scan_iff_tiles counts).mpr tiles
  rw [scanned] at again
  exact (Except.ok.inj again).symm

/-- A text with every lexical class, in which words and numerals touch other tokens. -/
def mixedText : List Char :=
  "a1$.2.5e/* x */é²\t'it\\'s' // c /* d\r\n\x60two\nlines\x60/* three\n* / lines */\"\"/7_µ\n".toList

theorem scan_lossless_mixed : ∃ tokens, scan mixedText = .ok tokens ∧ tokens.length = 13 ∧
    (∀ t ∈ tokens, t.range.start.lt t.range.stop = true) ∧
    tokens.Pairwise (fun t u => t.range.stop.le u.range.start = true) ∧
    Tiles [] tokens mixedText ∧ ∀ others, Tiles [] others mixedText → others = tokens := by
  have whole : (scan mixedText).toOption.map List.length = some 13 := by decide +kernel
  cases scanned : scan mixedText with
  | error => simp [scanned, Except.toOption] at whole
  | ok tokens =>
      have size : tokens.length = 13 := by simpa [scanned, Except.toOption] using whole
      exact ⟨tokens, rfl, size, scan_lossless (by decide) scanned⟩

end Token

end QmlIndex
