/-! # Places in a document

Lines and characters are counted from zero, characters in Unicode scalars, in words of 32 bits. A position
is advanced one character at a time, so the place of every piece of a text follows from the text before it.
-/

namespace QmlIndex

-- A word is written where its number is meant, and a number where the word of that number is.
instance numberOfWord : CoeOut UInt32 Nat := ⟨UInt32.toNat⟩

instance wordOfNumber : Coe Nat UInt32 := ⟨UInt32.ofNat⟩

/-- A place between two characters of a document. -/
structure Position where
  line : UInt32
  character : UInt32
  deriving DecidableEq, Repr, Inhabited

namespace Position

/-- The place before the first character. -/
def origin : Position := ⟨0, 0⟩

/-- The place after reading `c`: a line feed starts a new line. -/
def advance (p : Position) (c : Char) : Position :=
  if c = '\n' then ⟨p.line + 1, 0⟩ else ⟨p.line, p.character + 1⟩

/-- The place after reading a whole text. -/
def after (p : Position) (text : List Char) : Position := text.foldl advance p

/-- Document order: by line, then by character. -/
def le (p q : Position) : Bool :=
  p.line < q.line || (p.line == q.line && p.character ≤ q.character)

/-- Strict document order. -/
def lt (p q : Position) : Bool :=
  p.line < q.line || (p.line == q.line && p.character < q.character)

def min (p q : Position) : Position := if p.le q then p else q

def max (p q : Position) : Position := if p.le q then q else p

/-- The place as people write it, counted from one. -/
def display (p : Position) : String := s!"{p.line + 1}:{p.character + 1}"

@[simp] theorem after_nil (p : Position) : p.after [] = p := rfl

@[simp] theorem after_cons (p : Position) (c : Char) (text : List Char) :
    p.after (c :: text) = (p.advance c).after text := rfl

theorem after_append (p : Position) (a b : List Char) : p.after (a ++ b) = (p.after a).after b := by
  simp [after]

end Position

/-- A half-open stretch of a document. -/
structure TextRange where
  start : Position
  stop : Position
  deriving DecidableEq, Repr, Inhabited

namespace TextRange

/-- The smallest range that covers both. -/
def cover (a b : TextRange) : TextRange := ⟨a.start.min b.start, a.stop.max b.stop⟩

end TextRange

end QmlIndex
