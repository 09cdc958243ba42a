import QmlIndex.Position

/-! # Tokens

A document is read as a flat list of tokens. Line breaks are tokens too, because they end bindings.
-/

namespace QmlIndex

/-- What a token is, without its place. -/
inductive TokenKind where
  /-- A word: a letter, `_` or `$`, then letters, numerals, `_` or `$`. -/
  | ident (name : String)
  /-- A numeral with everything glued to it, such as `2.15` or `0xff`. -/
  | number (text : String)
  /-- The inside of a string literal, escapes left as written. -/
  | str (value : String)
  /-- Any other single character. -/
  | punct (c : Char)
  /-- A line break, or a block comment that contains one. -/
  | newline
  deriving DecidableEq, Repr, Inhabited

/-- A token and the stretch of text it was read from. -/
structure Token where
  kind : TokenKind
  range : TextRange
  deriving DecidableEq, Repr, Inhabited

namespace Token

def isPunct (t : Token) (c : Char) : Bool := t.kind == .punct c

def isNewline (t : Token) : Bool := t.kind == .newline

/-- The word, if the token is one. -/
def ident? (t : Token) : Option String :=
  match t.kind with
  | .ident name => some name
  | _ => none

end Token

end QmlIndex
