import Mathlib.Data.List.Forall2
import QmlIndex.Proofs.Token.Lossless

/-! # Texts that follow one another on new lines

No piece that ends with a text would go on past a line break, so a text behind a line break is cut as if it stood
alone. Its tokens are the same, on lines that are counted on, and if it cannot be cut, the whole cannot for the same
reason.
-/

namespace QmlIndex

open Text

/-! ## A line break behind a piece -/

theorem head?_append_newline (rest more : List Char) :
    (rest ++ '\n' :: more).head? = some (rest.head?.getD '\n') := by
  cases rest <;> rfl

namespace Token

variable {s rest : List Char}

theorem Longest.before_newline {starts continues : Char → Bool} (longest : Longest (IsRun starts continues) s rest)
    (stops : continues '\n' = false) (more : List Char) : Longest (IsRun starts continues) s (rest ++ '\n' :: more) := by
  obtain ⟨c, body, rfl, _⟩ := longest.1
  obtain ⟨start, further, ends⟩ := longest_run_iff.mp longest
  refine longest_run_iff.mpr ⟨start, further, fun d front => ?_⟩
  rw [head?_append_newline] at front
  cases next : rest.head? with
  | none =>
      obtain rfl : '\n' = d := by simpa [next] using front
      exact stops
  | some e =>
      obtain rfl : e = d := by simpa [next] using front
      exact ends e next

theorem IsMark.before_newline {c : Char} (mark : IsMark c rest) (more : List Char) : IsMark c (rest ++ '\n' :: more) where
  solid := mark.solid
  unquoted := mark.unquoted
  noWord := mark.noWord
  noNumeral := mark.noNumeral
  noComment slash := by
    obtain ⟨line, block⟩ := mark.noComment slash
    rw [head?_append_newline]
    cases next : rest.head? with
    | none => simp
    | some e => exact ⟨by simpa [next] using line, by simpa [next] using block⟩

theorem Spells.before_newline {kind : TokenKind} (spelled : Spells kind s rest) (more : List Char) :
    Spells kind s (rest ++ '\n' :: more) := by
  cases spelled with
  | ident longest => exact .ident (longest.before_newline (by decide) more)
  | number longest => exact .number (longest.before_newline (by decide) more)
  | str listed inside => exact .str listed inside
  | punct mark => exact .punct (mark.before_newline more)
  | lineFeed => exact .lineFeed
  | comment comment breaks => exact .comment comment breaks

theorem Skipped.before_newline (skipped : Skipped s rest) (more : List Char) : Skipped s (rest ++ '\n' :: more) := by
  cases skipped with
  | blank blank other => exact .blank blank other
  | lineComment unbroken ends =>
      refine .lineComment unbroken fun d front => ?_
      rw [head?_append_newline] at front
      cases next : rest.head? with
      | none => simpa [next, eq_comm] using front
      | some e =>
          obtain rfl : e = d := by simpa [next] using front
          exact ends e next
  | blockComment comment unbroken => exact .blockComment comment unbroken

end Token

namespace Piece

theorem Sound.before_newline {piece : Piece} {after : List Char} (sound : piece.Sound after) (more : List Char) :
    piece.Sound (after ++ '\n' :: more) := by
  unfold Sound at sound ⊢
  cases kind : piece.kind with
  | none =>
      rw [kind] at sound
      exact Token.Skipped.before_newline sound more
  | some k =>
      rw [kind] at sound
      exact Token.Spells.before_newline sound more

/-- What a piece stands for is cut off as that piece. -/
theorem next_of_sound {piece : Piece} {after : List Char} (sound : piece.Sound after) :
    ∃ c rest, piece.text = c :: rest ∧ next c (rest ++ after) = .ok (piece, after) := by
  obtain ⟨kind, text⟩ := piece
  cases kind with
  | none => exact next_skipped sound
  | some k => exact next_spelled sound

/-- A piece is cut off in the same way if a line break follows the text. -/
theorem next_before_newline {c : Char} {rest after : List Char} {piece : Piece} (cut : next c rest = .ok (piece, after))
    (more : List Char) : next c (rest ++ '\n' :: more) = .ok (piece, after ++ '\n' :: more) := by
  obtain ⟨d, body, text, again⟩ := next_of_sound ((next_sound cut).before_newline more)
  have whole := next_eq_append cut
  rw [text, List.cons_append] at whole
  obtain ⟨rfl, rfl⟩ := List.cons.inj whole
  rwa [List.append_assoc]

end Piece

namespace Cut

variable {a b : List Char}

theorem ofText_newline (b : List Char) :
    ofText ('\n' :: b) = ⟨⟨some .newline, ['\n']⟩ :: (ofText b).pieces, (ofText b).fault⟩ :=
  ofText_cons rfl

/-- Behind a line break a text is cut as if it stood alone. -/
theorem ofText_lines (whole : (ofText a).fault = none) (b : List Char) :
    ofText (a ++ '\n' :: b) =
      ⟨(ofText a).pieces ++ ⟨some .newline, ['\n']⟩ :: (ofText b).pieces, (ofText b).fault⟩ := by
  fun_induction ofText a with
  | case1 => exact ofText_newline b
  | case2 => cases whole
  | case3 c rest piece after cut more =>
      rename_i ih
      rw [List.cons_append, ofText_cons (Piece.next_before_newline cut b), ih whole]
      rfl

/-- The pieces of a text are the text as far as it could be cut. -/
theorem ofText_prefix (text : List Char) : (ofText text).pieces.flatMap Piece.text <+: text := by
  fun_induction ofText text with
  | case1 => exact List.prefix_refl []
  | case2 => exact List.nil_prefix
  | case3 c rest piece after cut more ih =>
      rw [List.flatMap_cons, Piece.next_eq_append cut]
      exact (List.prefix_append_right_inj _).mpr ih

end Cut

/-! ## Places further down -/

/-- The place is so many lines below the other one. -/
structure Position.Below (lines : Nat) (p q : Position) : Prop where
  line : q.line.toNat = p.line.toNat + lines
  character : q.character = p.character

/-- The token is the other one, so many lines further down. -/
structure Token.Below (lines : Nat) (t u : Token) : Prop where
  kind : u.kind = t.kind
  start : Position.Below lines t.range.start u.range.start
  stop : Position.Below lines t.range.stop u.range.stop

namespace Position

variable {lines : Nat} {p q : Position}

theorem Below.advance (below : Below lines p q) {c : Char}
    (room : (if c = '\n' then q.line else q.character).toNat + 1 < 4294967296) :
    Below lines (p.advance c) (q.advance c) := by
  unfold Position.advance
  by_cases newline : c = '\n'
  · rw [if_pos newline] at room
    rw [if_pos newline, if_pos newline]
    have line := below.line
    have least : p.line.toNat + 1 < 4294967296 := by omega
    refine ⟨?_, rfl⟩
    rw [toNat_count room, toNat_count least]
    omega
  · rw [if_neg newline, if_neg newline]
    exact ⟨below.line, by rw [below.character]⟩

theorem Below.after (below : Below lines p q) {text : List Char} (counts : q.Counts text) :
    Below lines (p.after text) (q.after text) := by
  induction text generalizing p q with
  | nil => exact below
  | cons c text ih => exact ih (below.advance counts.1) counts.2

end Position

namespace Token

variable {lines : Nat} {p q : Position} {pieces : List Piece}

theorem placeAfter_eq (p : Position) (pieces : List Piece) :
    placeAfter p pieces = p.after (pieces.flatMap Piece.text) := by
  induction pieces generalizing p with
  | nil => rfl
  | cons piece rest ih => rw [List.flatMap_cons, Position.after_append, ← ih, placeAfter, List.foldl_cons]; rfl

theorem place_append (p : Position) (pieces more : List Piece) :
    place p (pieces ++ more) = place p pieces ++ place (placeAfter p pieces) more := by
  induction pieces generalizing p with
  | nil => rfl
  | cons piece rest ih =>
      rw [List.cons_append, place, place, ih, placeAfter, placeAfter, List.foldl_cons]
      cases piece.kind <;> rfl

theorem place_below (below : Position.Below lines p q) (counts : q.Counts (pieces.flatMap Piece.text)) :
    List.Forall₂ (Below lines) (place p pieces) (place q pieces) := by
  induction pieces generalizing p q with
  | nil => exact .nil
  | cons piece rest ih =>
      rw [List.flatMap_cons, Position.counts_append] at counts
      have stop := below.after counts.1
      have later := ih stop counts.2
      rw [place, place]
      cases piece.kind with
      | none => exact later
      | some k => exact .cons ⟨rfl, below, stop⟩ later

/-! ## Blanks in front of a text -/

theorem place_blanks (p : Position) (n : Nat) (pieces : List Piece) :
    place p (List.replicate n ⟨none, [' ']⟩ ++ pieces) = place ⟨p.line, p.character + UInt32.ofNat n⟩ pieces := by
  induction n generalizing p with
  | zero => simp
  | succ n ih =>
      have count : p.character + 1 + UInt32.ofNat n = p.character + UInt32.ofNat (n + 1) := by
        rw [UInt32.ofNat_add, UInt32.add_assoc, UInt32.add_comm 1]
        rfl
      rw [List.replicate_succ, List.cons_append, place, ih]
      simp [Position.advance, count]

/-- Blanks in front of a text move its tokens to the right, round to the start of the line again if they have to. -/
theorem scan_blanks (n : Nat) {text : List Char} (whole : (Cut.ofText text).fault = none) :
    scan (List.replicate n ' ' ++ text) = .ok (place ⟨0, UInt32.ofNat n⟩ (Cut.ofText text).pieces) := by
  have cut : Cut.ofText (List.replicate n ' ' ++ text) =
      ⟨List.replicate n ⟨none, [' ']⟩ ++ (Cut.ofText text).pieces, none⟩ := by
    induction n with
    | zero => simp [← whole]
    | succ n ih =>
        rw [List.replicate_succ, List.cons_append, Cut.ofText_cons rfl, ih]
        rfl
  simp only [scan, cut, place_blanks, Position.origin, UInt32.zero_add]

/-! ## One text below another -/

theorem scan_eq_error {text : List Char} {fault : LexicalFault} {p : Position} :
    scan text = .error (fault, p) ↔
      (Cut.ofText text).fault = some fault ∧ placeAfter .origin (Cut.ofText text).pieces = p := by
  rw [scan]
  cases (Cut.ofText text).fault <;> simp

/-- The place behind a line break, seen from the start of a text. -/
theorem below_newline {a : List Char} {p : Position} (behind : p.Behind a) (room : p.line.toNat + 1 < 4294967296) :
    Position.Below (a.count '\n' + 1) .origin (p.advance '\n') where
  line := by
    have next := (behind.advance (c := '\n') room).line
    rw [next, List.count_append]
    simp [Position.origin]
  character := rfl

/-- If a text can be cut into tokens, then the tokens of it and of a text that follows on a new line are its own, the
    line break, and those of the other text, as many lines further down as there are line breaks before; and the two
    texts together cannot be cut if the other text cannot, for the same reason and at the place that is as much further
    down. -/
theorem scan_lines {a b : List Char} {tokens : List Token} (scanned : scan a = .ok tokens)
    (short : (a ++ '\n' :: b).length < 4294967296) :
    ∃ newline : Token, newline.kind = .newline ∧ newline.range.start.Behind a ∧
      newline.range.stop.Behind (a ++ ['\n']) ∧
      (∀ more, scan b = .ok more → ∃ lowered, scan (a ++ '\n' :: b) = .ok (tokens ++ newline :: lowered) ∧
        List.Forall₂ (Below (a.count '\n' + 1)) more lowered) ∧
      ∀ fault p, scan b = .error (fault, p) → ∃ q, scan (a ++ '\n' :: b) = .error (fault, q) ∧
        Position.Below (a.count '\n' + 1) p q := by
  obtain ⟨whole, rfl⟩ := scan_eq_ok.mp scanned
  obtain ⟨first, room, counts⟩ := Position.counts_append.mp (Position.counts_of_length short)
  have behind : (Position.origin.after a).Behind a := Position.behind_origin.after first
  have start : placeAfter .origin (Cut.ofText a).pieces = Position.origin.after a := by
    rw [placeAfter_eq, Cut.ofText_whole whole]
  have below := below_newline behind room
  have cut := Cut.ofText_lines whole b
  -- What could be cut of the second text fits in behind the line break.
  have fits : ((Position.origin.after a).advance '\n').Counts ((Cut.ofText b).pieces.flatMap Piece.text) := by
    obtain ⟨rest, same⟩ := Cut.ofText_prefix b
    rw [← same, Position.counts_append] at counts
    exact counts.1
  refine ⟨⟨.newline, ⟨Position.origin.after a, (Position.origin.after a).advance '\n'⟩⟩, rfl, behind,
    behind.advance room, ?_, ?_⟩
  · intro more scannedMore
    obtain ⟨wholeMore, rfl⟩ := scan_eq_ok.mp scannedMore
    refine ⟨_, scan_eq_ok.mpr ?_, place_below below fits⟩
    rw [cut]
    refine ⟨wholeMore, ?_⟩
    rw [place_append, start]
    rfl
  · intro fault p failed
    obtain ⟨faulty, rfl⟩ := scan_eq_error.mp failed
    refine ⟨_, scan_eq_error.mpr ⟨by rw [cut]; exact faulty, rfl⟩, ?_⟩
    have further := below.after fits
    rw [cut]
    simp only [placeAfter_eq] at start ⊢
    rw [List.flatMap_append, Position.after_append, start]
    exact further

/-- The tokens of a text that ends in a slash. -/
def slashTokens : List Token :=
  [⟨.ident "a", ⟨⟨0, 0⟩, ⟨0, 1⟩⟩⟩, ⟨.newline, ⟨⟨0, 1⟩, ⟨1, 2⟩⟩⟩, ⟨.ident "b", ⟨⟨1, 2⟩, ⟨1, 3⟩⟩⟩,
    ⟨.punct '/', ⟨⟨1, 3⟩, ⟨1, 4⟩⟩⟩]

/-- The tokens of a text that starts with an asterisk. -/
def starTokens : List Token := [⟨.punct '*', ⟨⟨0, 0⟩, ⟨0, 1⟩⟩⟩, ⟨.ident "c", ⟨⟨0, 1⟩, ⟨0, 2⟩⟩⟩]

/-- The slash and the asterisk are no comment together, and a string behind them may be open. -/
theorem scan_lines_slash : ∃ newline lowered q,
    scan "a/*\n*/b/\n*c//d".toList = .ok (slashTokens ++ newline :: lowered) ∧ newline.kind = .newline ∧
      List.Forall₂ (Below 2) starTokens lowered ∧
      scan "a/*\n*/b/\n é\"open".toList = .error (.openString, q) ∧ q.line.toNat = 2 ∧ q.character = 2 := by
  have scanned : scan "a/*\n*/b/".toList = .ok slashTokens := scan_eq_ok.mpr ⟨by decide +kernel, by decide +kernel⟩
  have more : scan "*c//d".toList = .ok starTokens := scan_eq_ok.mpr ⟨by decide +kernel, by decide +kernel⟩
  have failed : scan " é\"open".toList = .error (.openString, ⟨0, 2⟩) :=
    scan_eq_error.mpr ⟨by decide +kernel, by decide +kernel⟩
  obtain ⟨newline, kind, _, _, above, _⟩ := scan_lines scanned (b := "*c//d".toList) (by decide)
  obtain ⟨_, _, _, _, _, fails⟩ := scan_lines scanned (b := " é\"open".toList) (by decide)
  obtain ⟨lowered, together, below⟩ := above _ more
  obtain ⟨q, apart, further⟩ := fails _ _ failed
  exact ⟨newline, lowered, q, together, kind, below, apart, further.line, further.character⟩

end Token

end QmlIndex
