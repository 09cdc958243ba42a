import QmlIndex.Text.Alphabetic
import QmlIndex.Text.Numeric
import QmlIndex.Text.Blank
import QmlIndex.Token

/-! # From text to tokens

The text is first cut into pieces. A piece keeps its characters whether it becomes a token or not, so
the pieces of a text put together are the text again, and the place of a token is the place after
everything before it. Cutting stops early only at a string or a block comment that is never closed.
-/

namespace QmlIndex

open Text

/-- A stretch of text that is one token, or that no token stands for. -/
structure Piece where
  /-- The token; `none` for white space and for comments within a line. -/
  kind : Option TokenKind
  text : List Char
  deriving DecidableEq, Repr, Inhabited

/-- Why a text cannot be cut into pieces. -/
inductive LexicalFault where
  | openComment
  | openString
  deriving DecidableEq, Repr, Inhabited

namespace LexicalFault

/-- The complaint, without the place where the open piece starts. -/
def text : LexicalFault → String
  | openComment => "unterminated block comment starting"
  | openString => "unterminated string starting"

end LexicalFault

/-- The first character of a word. -/
def isIdentStart (c : Char) : Bool := isAlphabetic c || c == '_' || c == '$'

/-- The further characters of a word. -/
def isIdentContinue (c : Char) : Bool := isAlphabetic c || isNumeric c || c == '_' || c == '$'

/-- The further characters of a numeral; it swallows suffixes, exponents and dots alike. -/
def isNumberContinue (c : Char) : Bool := c.isAlphanum || c == '.' || c == '_'

namespace Piece

/-- The characters up to and including the first `*/`, and the rest. -/
def closeComment : List Char → Option (List Char × List Char)
  | '*' :: '/' :: rest => some (['*', '/'], rest)
  | c :: rest => (closeComment rest).map fun (body, after) => (c :: body, after)
  | [] => none

/-- The inside of a literal opened by `quote`, and the rest after its closing quote. A backslash keeps
the character after it, whatever it is; only a backquoted literal may span lines. -/
def closeString (quote : Char) : List Char → Option (List Char × List Char)
  | [] => none
  | c :: rest =>
    if c = quote then some ([], rest)
    else if c = '\\' then
      match rest with
      | [] => none
      | escaped :: more =>
        (closeString quote more).map fun (body, after) => (c :: escaped :: body, after)
    else if c = '\n' && quote != '\x60' then none
    else (closeString quote rest).map fun (body, after) => (c :: body, after)

/-- The run of characters of a class that starts with `c`. -/
def run (kind : String → TokenKind) (continues : Char → Bool) (c : Char) (rest : List Char) :
    Piece × List Char :=
  let body := rest.takeWhile continues
  (⟨some (kind (String.ofList (c :: body))), c :: body⟩, rest.dropWhile continues)

/-- The first piece of `c :: rest`, and what follows it. -/
def next (c : Char) (rest : List Char) : Except LexicalFault (Piece × List Char) :=
  if c = '\n' then .ok (⟨some .newline, [c]⟩, rest)
  else if isBlank c then .ok (⟨none, [c]⟩, rest)
  else if c = '/' && rest.head? == some '/' then
    .ok (⟨none, c :: rest.takeWhile (· != '\n')⟩, rest.dropWhile (· != '\n'))
  else if c = '/' && rest.head? == some '*' then
    match closeComment rest.tail with
    | none => .error .openComment
    | some (body, after) =>
      .ok (⟨if body.contains '\n' then some .newline else none, c :: '*' :: body⟩, after)
  else if c = '"' || c = '\'' || c = '\x60' then
    match closeString c rest with
    | none => .error .openString
    | some (body, after) => .ok (⟨some (.str (String.ofList body)), c :: body ++ [c]⟩, after)
  else if isIdentStart c then .ok (run .ident isIdentContinue c rest)
  else if c.isDigit then .ok (run .number isNumberContinue c rest)
  else .ok (⟨some (.punct c), [c]⟩, rest)

theorem closeComment_eq_append {text body after : List Char}
    (h : closeComment text = some (body, after)) : text = body ++ after := by
  fun_induction closeComment text generalizing body after with
  | case1 rest => simp at h; obtain ⟨rfl, rfl⟩ := h; rfl
  | case2 c rest _ ih =>
    simp only [Option.map_eq_some_iff, Prod.mk.injEq, Prod.exists] at h
    obtain ⟨b, a, hb, rfl, rfl⟩ := h
    simp [ih hb]
  | case3 => simp at h

theorem closeString_eq_append {quote : Char} {text body after : List Char}
    (h : closeString quote text = some (body, after)) : text = body ++ quote :: after := by
  fun_induction closeString quote text generalizing body after with
  | case1 => simp at h
  | case2 rest => simp at h; obtain ⟨rfl, rfl⟩ := h; rfl
  | case3 => simp at h
  | case4 escaped more _ ih =>
    simp only [Option.map_eq_some_iff, Prod.mk.injEq, Prod.exists] at h
    obtain ⟨b, a, hb, rfl, rfl⟩ := h
    simp [ih hb]
  | case5 => simp at h
  | case6 c rest _ _ _ ih =>
    simp only [Option.map_eq_some_iff, Prod.mk.injEq, Prod.exists] at h
    obtain ⟨b, a, hb, rfl, rfl⟩ := h
    simp [ih hb]

/-- A piece holds exactly the characters it was cut from. -/
theorem next_eq_append {c : Char} {rest after : List Char} {piece : Piece}
    (h : next c rest = .ok (piece, after)) : c :: rest = piece.text ++ after := by
  unfold next at h
  split at h
  · cases h; rfl
  split at h
  · cases h; rfl
  split at h
  · cases h; simp [List.takeWhile_append_dropWhile]
  split at h
  · rename_i star
    split at h
    · cases h
    · rename_i body tail closed
      cases h
      cases rest with
      | nil => simp at star
      | cons d more =>
        have same := closeComment_eq_append closed
        simp at star same
        simp [star, same]
  split at h
  · split at h
    · cases h
    · rename_i body tail closed
      cases h
      simp [closeString_eq_append closed]
  split at h
  · cases h; simp [List.takeWhile_append_dropWhile]
  split at h
  · cases h; simp [List.takeWhile_append_dropWhile]
  · cases h; rfl

/-- No piece is empty. -/
theorem next_text_ne_nil {c : Char} {rest after : List Char} {piece : Piece}
    (h : next c rest = .ok (piece, after)) : piece.text ≠ [] := by
  unfold next at h
  repeat' split at h
  all_goals cases h
  all_goals simp

theorem next_length_lt {c : Char} {rest after : List Char} {piece : Piece}
    (h : next c rest = .ok (piece, after)) : after.length < (c :: rest).length := by
  have split := next_eq_append h
  have filled := List.length_pos_iff.mpr (next_text_ne_nil h)
  rw [split, List.length_append]
  omega

end Piece

/-- A text cut as far as possible. -/
structure Cut where
  pieces : List Piece
  /-- Why the rest could not be cut; `none` when nothing is left. -/
  fault : Option LexicalFault
  deriving DecidableEq, Repr, Inhabited

namespace Cut

/-- Cut a text into pieces from left to right. -/
def ofText : List Char → Cut
  | [] => ⟨[], none⟩
  | c :: rest =>
    match _h : Piece.next c rest with
    | .error fault => ⟨[], some fault⟩
    | .ok (piece, after) =>
      let more := ofText after
      ⟨piece :: more.pieces, more.fault⟩
termination_by text => text.length
decreasing_by exact Piece.next_length_lt _h

end Cut

namespace Token

/-- The tokens among the pieces, each at the place its characters have. -/
def place : Position → List Piece → List Token
  | _, [] => []
  | p, piece :: rest =>
    let stop := p.after piece.text
    match piece.kind with
    | some kind => ⟨kind, ⟨p, stop⟩⟩ :: place stop rest
    | none => place stop rest

/-- The place after a list of pieces. -/
def placeAfter (p : Position) (pieces : List Piece) : Position :=
  pieces.foldl (fun q piece => q.after piece.text) p

/-- The tokens of a text, or the fault and the place where the open piece starts. -/
def scan (text : List Char) : Except (LexicalFault × Position) (List Token) :=
  let cut := Cut.ofText text
  match cut.fault with
  | some fault => .error (fault, placeAfter .origin cut.pieces)
  | none => .ok (place .origin cut.pieces)

end Token

end QmlIndex
