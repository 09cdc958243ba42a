import QmlIndex.Document.Fault

/-! # Reading a list of tokens

A reader looks at the tokens that are left and either takes some of them and gives a value, or fails, or
is *stuck*: a repetition whose step takes nothing would be repeated for ever, and is given up as such.
`Reader.iterate` is the one place where that is decided, so every reader is a total function.
-/

namespace QmlIndex.Document

/-- The tokens that are left, and where the last one taken ends. -/
structure Cursor where
  tokens : List Token
  lastEnd : Position := .origin
  deriving DecidableEq, Repr, Inhabited

namespace Cursor

def peek (c : Cursor) : Option Token := c.tokens.head?

/-- The next token's word, if it is one. -/
def word? (c : Cursor) : Option String := c.peek.bind Token.ident?

def atWord (c : Cursor) (word : String) : Bool := c.word? == some word

def atPunct (c : Cursor) (p : Char) : Bool := c.peek.any (·.isPunct p)

/-- Pass the longest run of tokens of a class. -/
def skipWhile (p : Token → Bool) : List Token → Position → Cursor
  | t :: rest, lastEnd => if p t then skipWhile p rest t.range.stop else ⟨t :: rest, lastEnd⟩
  | [], lastEnd => ⟨[], lastEnd⟩

end Cursor

/-- How a reader ends. -/
inductive Outcome (α : Type) where
  | done (value : α) (rest : Cursor)
  | failed (fault : Fault)
  /-- The reader would go on for ever. -/
  | stuck
  deriving Repr

/-- A function of the tokens that are left. -/
def Reader (α : Type) : Type := Cursor → Outcome α

/-- What a repeated step asks for. -/
inductive Turn (σ α : Type) where
  | again (state : σ)
  | stop (value : α)
  deriving Repr

namespace Reader

variable {α β σ : Type}

protected def pure (a : α) : Reader α := fun c => .done a c

protected def bind (r : Reader α) (f : α → Reader β) : Reader β := fun c =>
  match r c with
  | .done a rest => f a rest
  | .failed fault => .failed fault
  | .stuck => .stuck

instance : Monad Reader where
  pure := Reader.pure
  bind := Reader.bind

/-- The cursor itself, for looking ahead. -/
def cursor : Reader Cursor := fun c => .done c c

def fail (fault : Fault) : Reader α := fun _ => .failed fault

/-- A complaint about the next token. -/
def complain (complaint : Complaint) : Reader α := fun c =>
  match c.peek with
  | some t => .failed (.found complaint t.range.start)
  | none => .failed (.ended complaint)

/-- A complaint about a given token. -/
def complainAt (token : Token) (complaint : Complaint) : Reader α :=
  fail (.found complaint token.range.start)

/-- Take the next token, if there is one. -/
def next : Reader (Option Token) := fun c =>
  match c.tokens with
  | t :: rest => .done (some t) ⟨rest, t.range.stop⟩
  | [] => .done none c

/-- Where the last token taken ends. -/
def lastEnd : Reader Position := fun c => .done c.lastEnd c

/-- Pass the longest run of tokens of a class. -/
def skipWhile (p : Token → Bool) : Reader Unit := fun c => .done () (Cursor.skipWhile p c.tokens c.lastEnd)

/-- Pass line breaks. -/
def skipNewlines : Reader Unit := skipWhile Token.isNewline

/-- Pass line breaks and semicolons. -/
def skipSeparators : Reader Unit := skipWhile fun t => t.isNewline || t.isPunct ';'

/-- Take a token that `f` gives a value for. -/
def accept (f : Token → Option α) (complaint : Complaint) : Reader α := fun c =>
  match c.tokens with
  | t :: rest =>
    match f t with
    | some a => .done a ⟨rest, t.range.stop⟩
    | none => complain complaint c
  | [] => complain complaint c

/-- Take the given word. -/
def word (w : String) : Reader TextRange :=
  accept (fun t => if t.ident? == some w then some t.range else none) (.expectedWord w)

/-- Take any word. -/
def ident : Reader (String × TextRange) := accept (fun t => t.ident?.map (·, t.range)) .expectedIdentifier

/-- Take the given punctuation character. -/
def punct (p : Char) : Reader Unit :=
  accept (fun t => if t.isPunct p then some () else none) (.expectedPunct p)

/-- Repeat a step until it asks to stop. A step that asks for another turn must have taken a token;
if it has not, the next turn would find what this one found. -/
def iterate (step : σ → Reader (Turn σ α)) (state : σ) : Reader α := fun c =>
  match step state c with
  | .done (.stop a) rest => .done a rest
  | .done (.again next) rest =>
    if rest.tokens.length < c.tokens.length then iterate step next rest else .stuck
  | .failed fault => .failed fault
  | .stuck => .stuck
termination_by c => c.tokens.length

end Reader

end QmlIndex.Document
