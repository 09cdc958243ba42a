import QmlIndex.Text.Ranges

/-! # White space

`isBlank` decides the Unicode property *White_Space*. It is wider than the ASCII blanks: the next-line
control, the non-breaking spaces and the typographic spaces all count.
-/

namespace QmlIndex.Text

/-- The blank code points, as increasing closed ranges. -/
def blankRanges : List (Nat × Nat) := [
  (0x9, 0xd), (0x20, 0x20), (0x85, 0x85), (0xa0, 0xa0), (0x1680, 0x1680), (0x2000, 0x200a),
  (0x2028, 0x2029), (0x202f, 0x202f), (0x205f, 0x205f), (0x3000, 0x3000)]

/-- White space of every script, line breaks included. -/
def isBlank (c : Char) : Bool := inRanges blankRanges c

/-- Split at runs of white space; no word is empty. -/
def words (s : List Char) : List (List Char) :=
  match s with
  | [] => []
  | c :: rest =>
    if isBlank c then words rest
    else
      match rest with
      | [] => [[c]]
      | d :: _ =>
        if isBlank d then [c] :: words rest
        else
          match words rest with
          | [] => [[c]]
          | word :: more => (c :: word) :: more

/-- Drop white space at both ends. -/
def trim (s : List Char) : List Char :=
  ((s.dropWhile isBlank).reverse.dropWhile isBlank).reverse

end QmlIndex.Text
