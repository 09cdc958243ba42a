import Mathlib.Data.List.Chain
import QmlIndex.Token.Lexer

/-! # The places of tokens

As long as no counter of lines or characters comes to its end, each token of a text ends behind its start and before
the start of the next one, and two words that follow one another do not touch.
-/

namespace QmlIndex

open Text

/-! ## Document order -/

namespace Position

variable {p q : Position}

/-- Document order as an order of numbers. -/
def rank (p : Position) : Nat := p.line.toNat * 4294967296 + p.character.toNat

theorem le_iff_rank : p.le q = true ↔ p.rank ≤ q.rank := by
  have left := p.character.toNat_lt
  have right := q.character.toNat_lt
  simp only [le, rank, Bool.or_eq_true, Bool.and_eq_true, decide_eq_true_eq, beq_iff_eq, UInt32.lt_iff_toNat_lt,
    UInt32.le_iff_toNat_le, ← UInt32.toNat_inj]
  omega

theorem lt_iff_rank : p.lt q = true ↔ p.rank < q.rank := by
  have left := p.character.toNat_lt
  have right := q.character.toNat_lt
  simp only [lt, rank, Bool.or_eq_true, Bool.and_eq_true, decide_eq_true_eq, beq_iff_eq, UInt32.lt_iff_toNat_lt,
    ← UInt32.toNat_inj]
  omega

theorem rank_origin : origin.rank = 0 := rfl

/-- Reading the text from here brings no counter past its end. -/
def Counts (p : Position) : List Char → Prop
  | [] => True
  | c :: rest => (if c = '\n' then p.line else p.character).toNat + 1 < 4294967296 ∧ (p.advance c).Counts rest

theorem counts_append {a b : List Char} : p.Counts (a ++ b) ↔ p.Counts a ∧ (p.after a).Counts b := by
  induction a generalizing p with
  | nil => simp [Counts]
  | cons c a ih => simp only [List.cons_append, Counts, after_cons, ih, and_assoc]

/-- A counter that has not come to its end counts one more. -/
theorem toNat_count {n : UInt32} (room : n.toNat + 1 < 4294967296) : (n + 1).toNat = n.toNat + 1 := by
  rw [UInt32.toNat_add, UInt32.toNat_one]
  omega

theorem rank_advance {c : Char} (room : (if c = '\n' then p.line else p.character).toNat + 1 < 4294967296) :
    p.rank < (p.advance c).rank := by
  have small := p.character.toNat_lt
  rw [advance]
  split at room
  · rename_i newline
    simp only [newline, if_true, rank, toNat_count room, UInt32.toNat_zero]
    omega
  · rename_i inside
    simp only [inside, if_false, rank, toNat_count room]
    omega

theorem rank_after_le {text : List Char} (counts : p.Counts text) : p.rank ≤ (p.after text).rank := by
  induction text generalizing p with
  | nil => exact Nat.le_refl _
  | cons c text ih =>
      have step := rank_advance counts.1
      have rest := ih counts.2
      rw [after_cons]
      omega

theorem rank_after_lt {text : List Char} (counts : p.Counts text) (filled : text ≠ []) :
    p.rank < (p.after text).rank := by
  cases text with
  | nil => exact absurd rfl filled
  | cons c text => exact Nat.lt_of_lt_of_le (rank_advance counts.1) (rank_after_le counts.2)

theorem counts_of_length_add {text : List Char} (lines : p.line.toNat + text.length < 4294967296)
    (characters : p.character.toNat + text.length < 4294967296) : p.Counts text := by
  induction text generalizing p with
  | nil => trivial
  | cons c text ih =>
      rw [List.length_cons] at lines characters
      have line : (p.line + 1).toNat ≤ p.line.toNat + 1 := by
        rw [UInt32.toNat_add, UInt32.toNat_one]
        omega
      have character : (p.character + 1).toNat ≤ p.character.toNat + 1 := by
        rw [UInt32.toNat_add, UInt32.toNat_one]
        omega
      by_cases newline : c = '\n'
      · refine ⟨by rw [if_pos newline]; omega, ih ?_ ?_⟩
        · simp only [advance, newline, if_true]
          omega
        · simp only [advance, newline, if_true, UInt32.toNat_zero]
          omega
      · refine ⟨by rw [if_neg newline]; omega, ih ?_ ?_⟩
        · simp only [advance, newline, if_false]
          omega
        · simp only [advance, newline, if_false]
          omega

/-- A text with fewer characters than a counter can count. -/
theorem counts_of_length {text : List Char} (short : text.length < 4294967296) : origin.Counts text := by
  apply counts_of_length_add
  · simpa [origin] using short
  · simpa [origin] using short

end Position

/-! ## Pieces -/

namespace Piece

/-- A piece that is a word. -/
def isWord (piece : Piece) : Bool :=
  match piece.kind with
  | some (.ident _) => true
  | _ => false

theorem next_of_word {c : Char} {rest after : List Char} {piece : Piece} (cut : next c rest = .ok (piece, after))
    (word : piece.isWord = true) : isIdentStart c = true ∧ after = rest.dropWhile isIdentContinue := by
  unfold next at cut
  split at cut
  · cases cut
    cases word
  split at cut
  · cases cut
    cases word
  split at cut
  · cases cut
    cases word
  split at cut
  · split at cut
    · cases cut
    · cases cut
      rw [isWord] at word
      split at word
      · rename_i kind
        split at kind <;> cases kind
      · cases word
  split at cut
  · split at cut
    · cases cut
    · cases cut
      cases word
  split at cut
  · rename_i start
    cases cut
    exact ⟨start, rfl⟩
  split at cut
  · cases cut
    cases word
  · cases cut
    cases word

theorem isIdentContinue_of_isIdentStart {c : Char} (h : isIdentStart c = true) : isIdentContinue c = true := by
  simp only [isIdentStart, isIdentContinue, Bool.or_eq_true] at h ⊢
  rcases h with (letter | underscore) | dollar
  · exact .inl (.inl (.inl letter))
  · exact .inl (.inr underscore)
  · exact .inr dollar

end Piece

namespace Cut

/-- No piece is empty, and no word follows a word. -/
structure Clean (pieces : List Piece) : Prop where
  filled : ∀ piece ∈ pieces, piece.text ≠ []
  apart : pieces.IsChain fun a b => a.isWord = true → b.isWord = false

theorem ofText_whole {text : List Char} (whole : (ofText text).fault = none) :
    (ofText text).pieces.flatMap Piece.text = text := by
  fun_induction ofText text with
  | case1 => rfl
  | case2 c rest fault failed => cases whole
  | case3 c rest piece after cut more ih =>
      rw [List.flatMap_cons, ih whole, Piece.next_eq_append cut]

theorem head_of_word {text : List Char} {piece : Piece} (front : (ofText text).pieces.head? = some piece)
    (word : piece.isWord = true) : ∃ c rest, text = c :: rest ∧ isIdentStart c = true := by
  fun_induction ofText text with
  | case1 | case2 => cases front
  | case3 c rest piece after cut more ih =>
      cases front
      exact ⟨c, rest, rfl, (Piece.next_of_word cut word).1⟩

/-- A word ends where no letter follows it. -/
theorem ofText_clean (text : List Char) : Clean (ofText text).pieces := by
  fun_induction ofText text with
  | case1 => exact ⟨nofun, .nil⟩
  | case2 => exact ⟨nofun, .nil⟩
  | case3 c rest piece after cut more ih =>
      refine ⟨?_, ?_⟩
      · intro other member
        cases member with
        | head => exact Piece.next_text_ne_nil cut
        | tail _ inner => exact ih.filled other inner
      · rw [List.isChain_cons]
        refine ⟨fun other front word => ?_, ih.apart⟩
        obtain ⟨_, left⟩ := Piece.next_of_word cut word
        have stops := List.head?_dropWhile_not isIdentContinue rest
        rw [← left] at stops
        cases second : other.isWord with
        | false => rfl
        | true =>
            obtain ⟨d, further, rfl, start⟩ := head_of_word front second
            simp [Piece.isIdentContinue_of_isIdentStart start] at stops

end Cut

namespace Token

/-- One token ends before the next one starts, with a gap between two words. -/
def Precedes (t u : Token) : Prop :=
  t.range.stop.le u.range.start = true ∧
    (t.ident?.isSome = true → u.ident?.isSome = true → t.range.stop.lt u.range.start = true)

theorem isWord_of_kind {piece : Piece} {t : Token} (same : piece.kind = some t.kind) (word : t.ident?.isSome = true) :
    piece.isWord = true := by
  rw [Piece.isWord, same]
  rw [ident?] at word
  cases kind : t.kind <;> simp_all

/-- The first token starts here, or behind a piece that is none. -/
theorem place_head {p : Position} {pieces : List Piece} {u : Token} (counts : p.Counts (pieces.flatMap Piece.text))
    (filled : ∀ piece ∈ pieces, piece.text ≠ []) (front : (place p pieces).head? = some u) :
    p.rank < u.range.start.rank ∨
      u.range.start = p ∧ ∃ piece, pieces.head? = some piece ∧ piece.kind = some u.kind := by
  induction pieces generalizing p with
  | nil => cases front
  | cons piece rest ih =>
      rw [List.flatMap_cons, Position.counts_append] at counts
      rw [place] at front
      cases kind : piece.kind with
      | some k =>
          rw [kind] at front
          cases front
          exact .inr ⟨rfl, piece, rfl, kind⟩
      | none =>
          rw [kind] at front
          have passed := Position.rank_after_lt counts.1 (filled piece List.mem_cons_self)
          have later := ih counts.2 (fun other member => filled other (List.mem_cons_of_mem _ member)) front
          rcases later with later | ⟨here, _⟩
          · exact .inl (by omega)
          · exact .inl (by rw [here]; exact passed)

theorem place_proper {p : Position} {pieces : List Piece} (counts : p.Counts (pieces.flatMap Piece.text))
    (filled : ∀ piece ∈ pieces, piece.text ≠ []) :
    ∀ t ∈ place p pieces, t.range.start.lt t.range.stop = true := by
  induction pieces generalizing p with
  | nil => nofun
  | cons piece rest ih =>
      rw [List.flatMap_cons, Position.counts_append] at counts
      have later := ih counts.2 fun other member => filled other (List.mem_cons_of_mem _ member)
      intro t member
      rw [place] at member
      cases kind : piece.kind with
      | none =>
          rw [kind] at member
          exact later t member
      | some k =>
          rw [kind] at member
          cases member with
          | head => exact Position.lt_iff_rank.mpr (Position.rank_after_lt counts.1 (filled piece List.mem_cons_self))
          | tail _ inner => exact later t inner

theorem place_precedes {p : Position} {pieces : List Piece} (counts : p.Counts (pieces.flatMap Piece.text))
    (clean : Cut.Clean pieces) : (place p pieces).IsChain Precedes := by
  induction pieces generalizing p with
  | nil => exact .nil
  | cons piece rest ih =>
      rw [List.flatMap_cons, Position.counts_append] at counts
      have tail : Cut.Clean rest :=
        ⟨fun other member => clean.filled other (List.mem_cons_of_mem _ member), clean.apart.tail⟩
      have later := ih counts.2 tail
      rw [place]
      cases kind : piece.kind with
      | none => exact later
      | some k =>
          refine List.isChain_cons.mpr ⟨fun u front => ?_, later⟩
          have placed := place_head counts.2 tail.filled front
          refine ⟨Position.le_iff_rank.mpr ?_, fun word other => ?_⟩
          · rcases placed with behind | ⟨here, _⟩
            · exact Nat.le_of_lt behind
            · rw [here]
          · rcases placed with behind | ⟨_, next, head, same⟩
            · exact Position.lt_iff_rank.mpr behind
            · -- The next piece would be a word as well.
              have first : piece.isWord = true := isWord_of_kind kind word
              have second : next.isWord = true := isWord_of_kind same other
              have apart := (List.isChain_cons.mp clean.apart).1 next head first
              rw [apart] at second
              cases second

theorem scan_eq_ok {text : List Char} {tokens : List Token} :
    scan text = .ok tokens ↔ (Cut.ofText text).fault = none ∧ place .origin (Cut.ofText text).pieces = tokens := by
  rw [scan]
  cases (Cut.ofText text).fault <;> simp

/-- The tokens of a text that is not too long to count. -/
theorem scan_places {text : List Char} {tokens : List Token} (counts : Position.origin.Counts text)
    (scanned : scan text = .ok tokens) :
    (∀ t ∈ tokens, t.range.start.lt t.range.stop = true) ∧ tokens.IsChain Precedes := by
  obtain ⟨whole, rfl⟩ := scan_eq_ok.mp scanned
  have clean := Cut.ofText_clean text
  rw [← Cut.ofText_whole whole] at counts
  exact ⟨place_proper counts clean.filled, place_precedes counts clean⟩

end Token

end QmlIndex
