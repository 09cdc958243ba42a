import QmlIndex.Toml.Scalar

/-! # Reading settings files

Values nest to a fixed depth, and each level reads its items with the reader of the level below. Lines
are entered into the document's table one after the other.
-/

namespace QmlIndex.Toml

/-- Read something from the beginning of a text. -/
abbrev Scan (α : Type) := List Char → Option (α × List Char)

/-- Lists and tables nest less deep than this, and keys have fewer parts. -/
def depthLimit : Nat := 80

/-! ## Keys -/

def isKeyChar (c : Char) : Bool := c.isAlphanum || c == '_' || c == '-'

/-- One part of a key. -/
def keyPart? : Scan String
  | '"' :: rest => (basicText rest).map fun (s, rest) => (String.ofList s, rest)
  | '\'' :: rest => (literalText rest).map fun (s, rest) => (String.ofList s, rest)
  | s =>
    let name := s.takeWhile isKeyChar
    if name.isEmpty then none else some (String.ofList name, s.dropWhile isKeyChar)

/-- The parts of a key, with blanks around each of them. -/
def keyParts (s : List Char) : Option (List String × List Char) := do
  let (part, rest) ← keyPart? (dropBlanks s)
  match dropBlanks rest with
  | '.' :: rest =>
    if rest.length < s.length then
      let (more, rest) ← keyParts rest
      return (part :: more, rest)
    else none
  | rest => return ([part], rest)
termination_by s.length

/-- A key, as the path to a table and the name in it. -/
def key? (s : List Char) : Option ((List String × String) × List Char) := do
  let (parts, rest) ← keyParts s
  let name ← parts.getLast?
  if parts.length < depthLimit then some ((parts.dropLast, name), rest) else none

/-! ## Comments and line ends -/

/-- What follows the printable rest of a line. -/
def afterComment (s : List Char) : List Char := s.dropWhile isPrintable

/-- What follows the end of a line, before which only blanks and a comment may stand. -/
def afterLine? (s : List Char) : Option (List Char) :=
  let rest := match dropBlanks s with
    | '#' :: comment => afterComment comment
    | rest => rest
  if rest.isEmpty then some [] else afterLineEnd? rest

/-- Drop blanks, line ends and whole comments. -/
def dropSpace (s : List Char) : Option (List Char) :=
  match dropBlanks s with
  | '#' :: comment =>
    match afterLineEnd? (afterComment comment) with
    | some rest => if rest.length < s.length then dropSpace rest else none
    | none => none
  | rest =>
    match afterLineEnd? rest with
    | some rest => if rest.length < s.length then dropSpace rest else none
    | none => some rest
termination_by s.length

/-! ## Values -/

/-- The items of a list after its opening bracket. -/
def items (value : Scan Item) (s : List Char) : Option (List Item × List Char) := do
  match ← dropSpace s with
  | ']' :: rest => return ([], rest)
  | start =>
    let (item, rest) ← value start
    match ← dropSpace rest with
    | ']' :: rest => return ([item], rest)
    | ',' :: rest =>
      if rest.length < s.length then
        let (more, rest) ← items value rest
        return (item :: more, rest)
      else none
    | _ => none
termination_by s.length

/-- A key with its value. -/
abbrev Pair := (List String × String) × Item

/-- The pairs of an inline table; there is at least one. -/
def pairs (value : Scan Item) (s : List Char) : Option (List Pair × List Char) := do
  let (key, rest) ← key? s
  match rest with
  | '=' :: rest =>
    let (item, rest) ← value (dropBlanks rest)
    match dropBlanks rest with
    | '\x7d' :: rest => return ([(key, item)], rest)
    | ',' :: rest =>
      if rest.length < s.length then
        let (more, rest) ← pairs value rest
        return ((key, item) :: more, rest)
      else none
    | _ => none
  | _ => none
termination_by s.length

/-- An inline table after its opening brace. -/
def inlineTable? (value : Scan Item) (s : List Char) : Option (Item × List Char) :=
  match dropBlanks s with
  | '\x7d' :: rest => some (.inline [], rest)
  | _ => do
    let (entries, rest) ← pairs value s
    let fields ← entries.foldlM (fun t ((path, key), item) => Fields.enter t path key item) []
    return (.inline fields, rest)

/-- A value inside of which lists and tables may nest `levels` deep. -/
def value : Nat → Scan Item
  | levels, s =>
    match s with
    | '"' :: _ => (quoted? s).map fun (text, rest) => (.string (String.ofList text), rest)
    | '\'' :: _ => (quoted? s).map fun (text, rest) => (.string (String.ofList text), rest)
    | '[' :: rest =>
      match levels with
      | 0 => none
      | levels + 1 => (items (value levels) rest).map fun (l, rest) => (.array l, rest)
    | '\x7b' :: rest =>
      match levels with
      | 0 => none
      | levels + 1 => inlineTable? (value levels) rest
    | _ => runValue? s

/-! ## Documents -/

/-- The document read so far, and the header under which pairs are entered. -/
structure Progress where
  root : Fields
  header : Option (List String × String)
  deriving Inhabited

/-- Enter a pair under the current header. -/
def Progress.enter (p : Progress) (path : List String) (key : String) (item : Item) : Option Progress := do
  match p.header with
  | none => return { p with root := ← p.root.enter path key item }
  | some (above, name) =>
    let change (_ : Origin) (fields : Fields) : Option Fields := Fields.enter fields path key item
    return { p with root := ← p.root.descend false change .header (above ++ [name]) }

/-- Read one line, or a pair whose value takes several. -/
def statement (p : Progress) (s : List Char) : Option (Progress × List Char) := do
  match s with
  | '#' :: _ => return (p, ← afterLine? s)
  | '\n' :: rest => return (p, rest)
  | '\r' :: '\n' :: rest => return (p, rest)
  | '[' :: '[' :: rest =>
    let ((path, name), rest) ← key? rest
    match rest with
    | ']' :: ']' :: rest =>
      return ({ root := ← p.root.openRow path name, header := some (path, name) }, ← afterLine? rest)
    | _ => none
  | '[' :: rest =>
    let ((path, name), rest) ← key? rest
    match rest with
    | ']' :: rest =>
      return ({ root := ← p.root.openTable path name, header := some (path, name) }, ← afterLine? rest)
    | _ => none
  | _ =>
    let ((path, name), rest) ← key? s
    match rest with
    | '=' :: rest =>
      let (item, rest) ← value (depthLimit - 1) (dropBlanks rest)
      return (← p.enter path name item, ← afterLine? rest)
    | _ => none

/-- Read the rest of a document. -/
def statements (p : Progress) (s : List Char) : Option Fields :=
  match dropBlanks s with
  | [] => some p.root
  | start =>
    match statement p start with
    | some (p, rest) => if rest.length < s.length then statements p rest else none
    | none => none
termination_by s.length

/-- Read a document; a mark at the very beginning is no part of it. -/
def parse (text : String) : Option Fields :=
  match text.toList with
  | '\ufeff' :: rest => statements ⟨[], none⟩ rest
  | s => statements ⟨[], none⟩ s

end QmlIndex.Toml
