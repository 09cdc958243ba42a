import QmlIndex.Json.Reader
import QmlIndex.Json.Writer
import QmlIndex.Module

/-! # Rows

What the database holds. Lists and records are stored as JSON texts and paths as they are written, so a
row need not mean anything: it may have been written by someone else. Decoding a row fails with the number
of the first column that cannot be read. Bytes in a column for texts are kept apart from texts where every
text can be read; in a column for paths or JSON they are as good as a text that spells nothing, and a key of
bytes is as good as no key.
-/

namespace QmlIndex

/-! ## Cells -/

/-- A value that is offered to a column. -/
inductive Cell where
  | null
  | integer (i : Int64)
  | text (s : String)
  deriving DecidableEq, Repr, Inhabited

/-- What a column for integers holds: a text that spells no integer stays a text. -/
inductive IntegerCell where
  | integer (i : Int64)
  | text (s : String)
  deriving DecidableEq, Repr, Inhabited

namespace IntegerCell

/-- The blanks that may stand around a number. -/
def isSpace (c : Char) : Bool := c == ' ' || (9 ≤ c.toNat && c.toNat ≤ 13)

def digitsValue (ds : List Char) : Nat := ds.foldl (fun n d => n * 10 + (d.toNat - 48)) 0

/-- The exponent of a number, from the letter on. -/
def exponent? : List Char → Option Int
  | [] => some 0
  | e :: rest =>
    let (isNegative, ds) := match rest with
      | '-' :: ds => (true, ds)
      | '+' :: ds => (false, ds)
      | ds => (false, ds)
    if (e == 'e' || e == 'E') && !ds.isEmpty && ds.all Char.isDigit then
      some (if isNegative then -(digitsValue ds : Int) else digitsValue ds)
    else none

/-- The integer that a decimal number is equal to. -/
def wholeNumber? (m : Nat) (scale : Int) : Option Nat :=
  if m = 0 then some 0
  else if 0 ≤ scale then (if scale ≤ 19 then some (m * Nat.pow 10 scale.natAbs) else none)
  else if scale.natAbs ≤ (Nat.toDigits 10 m).length && m % Nat.pow 10 scale.natAbs = 0 then
    some (m / Nat.pow 10 scale.natAbs)
  else none

/-- The integer that a text spells, also with a fraction or an exponent. -/
def spelled? (s : List Char) : Option Int64 := do
  let s := ((s.dropWhile isSpace).reverse.dropWhile isSpace).reverse
  let (isNegative, body) := match s with
    | '-' :: rest => (true, rest)
    | '+' :: rest => (false, rest)
    | rest => (false, rest)
  let whole := body.takeWhile Char.isDigit
  let (fraction, rest) := match body.dropWhile Char.isDigit with
    | '.' :: rest => (rest.takeWhile Char.isDigit, rest.dropWhile Char.isDigit)
    | rest => ([], rest)
  if whole.isEmpty && fraction.isEmpty then none
  else
    let n ← wholeNumber? (digitsValue (whole ++ fraction)) ((← exponent? rest) - fraction.length)
    Word.ofInt? (if isNegative then -n else n)

/-- A text in a column for integers. -/
def ofText (s : String) : IntegerCell :=
  match spelled? s.toList with
  | some i => integer i
  | none => text s

def integer? : IntegerCell → Option Int64
  | integer i => some i
  | text _ => none

end IntegerCell

/-- What a column for texts holds: bytes stay bytes, and are no text. -/
inductive TextCell where
  | text (s : String)
  | bytes (b : List UInt8)
  deriving DecidableEq, Repr, Inhabited

namespace TextCell

def text? : TextCell → Option String
  | text s => some s
  | bytes _ => none

@[simp] theorem text?_text (s : String) : (text s).text? = some s := rfl

end TextCell

namespace Cell

/-- A cell in a column for texts. -/
def toText? : Cell → Option String
  | null => none
  | integer i => some (toString i.toInt)
  | text s => some s

/-- A cell in a column for integers. -/
def toInteger? : Cell → Option IntegerCell
  | null => none
  | integer i => some (.integer i)
  | text s => some (IntegerCell.ofText s)

/-- A cell in a column that must have a value. -/
def required {α : Type} (column : String) : Option α → Result α
  | some a => .ok a
  | none => .error (.storage (.missing column))

end Cell

/-- Whether a text counts as empty: only the characters before the first NUL count. -/
def isVoid (s : String) : Bool := s.toList.head?.all (· == Char.ofNat 0)

/-- Whether a value has the length zero. -/
def TextCell.isVoid : TextCell → Bool
  | text s => QmlIndex.isVoid s
  | bytes b => b.isEmpty

@[simp] theorem TextCell.isVoid_text (s : String) : (text s).isVoid = QmlIndex.isVoid s := rfl

/-- Fail unless a value has a length. -/
def requireText (column : String) (cell : TextCell) : Result Unit :=
  if cell.isVoid then .error (.storage (.violated s!"length({column}) > 0")) else .ok ()

/-- Decode a column, or fail with its number. -/
def decodeColumn {α : Type} (column : Nat) : Option α → Except Nat α
  | some a => .ok a
  | none => .error column

/-- A path in a column. -/
def pathColumn? (s : String) : Option FileUri :=
  match FileUri.parse s with
  | .ok u => some u
  | .error _ => none

/-! ## Source files -/

/-- A row of the table of source files. -/
structure SourceRow where
  path : Option String
  contentHash : TextCell
  lastModified : IntegerCell
  imports : String
  exports : String
  symbols : String
  dependsOn : String
  dependedBy : String
  deriving DecidableEq, Repr, Inhabited

namespace SourceRow

/-- The row that a list of offered values makes. -/
def ofCells (path contentHash lastModified imports exports symbols dependsOn dependedBy : Cell) :
    Result SourceRow := do
  return {
    path := path.toText?
    contentHash := .text (← Cell.required "source_files.content_hash" contentHash.toText?)
    lastModified := ← Cell.required "source_files.last_modified" lastModified.toInteger?
    imports := ← Cell.required "source_files.imports" imports.toText?
    exports := ← Cell.required "source_files.exports" exports.toText?
    symbols := ← Cell.required "source_files.symbols" symbols.toText?
    dependsOn := ← Cell.required "source_files.depends_on" dependsOn.toText?
    dependedBy := ← Cell.required "source_files.depended_by" dependedBy.toText? }

/-- The conditions of the table. -/
def check (r : SourceRow) : Result Unit := do
  if let some path := r.path then requireText "path" (.text path)
  requireText "content_hash" r.contentHash

/-- Write an entry as a row. -/
def ofEntry (e : SourceEntry) : SourceRow where
  path := some e.uri.toString
  contentHash := .text e.contentHash
  lastModified := .integer e.lastModified
  imports := (SourceEntry.importsToJson e.imports).render
  exports := e.exports.toJson.render
  symbols := (SourceEntry.symbolsToJson e.symbols).render
  dependsOn := (SourceEntry.urisToJson e.dependsOn).render
  dependedBy := (SourceEntry.urisToJson e.dependedBy).render

/-- Read a row as an entry. -/
def decode (r : SourceRow) : Except Nat SourceEntry := do
  let uri ← decodeColumn 0 (r.path.bind pathColumn?)
  let contentHash ← decodeColumn 1 r.contentHash.text?
  let lastModified ← decodeColumn 2 r.lastModified.integer?
  let imports ← decodeColumn 3 (Json.parse r.imports >>= SourceEntry.importsOfJson?)
  let exports ← decodeColumn 4 (Json.parse r.exports >>= Exports.ofJson?)
  let symbols ← decodeColumn 5 (Json.parse r.symbols >>= SourceEntry.symbolsOfJson?)
  let dependsOn ← decodeColumn 6 (Json.parse r.dependsOn >>= SourceEntry.urisOfJson?)
  let dependedBy ← decodeColumn 7 (Json.parse r.dependedBy >>= SourceEntry.urisOfJson?)
  return { uri, contentHash, lastModified, imports, exports, symbols, dependsOn, dependedBy }

end SourceRow

/-! ## Modules and components -/

/-- A row of the table of modules. -/
structure ModuleRow where
  name : Option String
  version : TextCell
  manifest : Option String
  lastModified : Option IntegerCell
  deriving DecidableEq, Repr, Inhabited

namespace ModuleRow

def ofCells (name version manifest lastModified : Cell) : Result ModuleRow := do
  return {
    name := name.toText?
    version := .text (← Cell.required "modules.version" version.toText?)
    manifest := manifest.toText?
    lastModified := lastModified.toInteger? }

def check (r : ModuleRow) : Result Unit := do
  if let some name := r.name then requireText "name" (.text name)

def ofModule (m : ModuleEntry) : ModuleRow where
  name := some m.name
  version := .text m.version
  manifest := m.manifest.map Path.toString
  lastModified := m.lastModified.map .integer

/-- Read a row as a module, its components apart. -/
def decode (r : ModuleRow) : Except Nat ModuleEntry := do
  let name ← decodeColumn 0 r.name
  let version ← decodeColumn 1 r.version.text?
  let manifest ← match r.manifest with
    | some path => (decodeColumn 2 (pathColumn? path)).map some
    | none => .ok none
  let lastModified ← match r.lastModified with
    | some cell => (decodeColumn 3 cell.integer?).map some
    | none => .ok none
  return { name, version, manifest, lastModified, components := .empty }

end ModuleRow

/-- A row of the table of components. -/
structure ComponentRow where
  moduleName : String
  name : TextCell
  file : Option String
  isBuiltin : IntegerCell
  isSingleton : IntegerCell
  version : Option TextCell
  deriving DecidableEq, Repr, Inhabited

namespace ComponentRow

/-- The flags are off where no value is given. -/
def ofCells (moduleName name file isBuiltin isSingleton version : Cell) : Result ComponentRow := do
  return {
    moduleName := ← Cell.required "components.module_name" moduleName.toText?
    name := .text (← Cell.required "components.name" name.toText?)
    file := file.toText?
    isBuiltin := isBuiltin.toInteger?.getD (.integer 0)
    isSingleton := isSingleton.toInteger?.getD (.integer 0)
    version := version.toText?.map .text }

def check (r : ComponentRow) : Result Unit := requireText "name" r.name

def ofComponent (moduleName : String) (c : Component) : ComponentRow where
  moduleName
  name := .text c.name
  file := c.file.map Path.toString
  isBuiltin := .integer (if c.isBuiltin then 1 else 0)
  isSingleton := .integer (if c.isSingleton then 1 else 0)
  version := c.version.map .text

def decode (r : ComponentRow) : Except Nat Component := do
  let name ← decodeColumn 0 r.name.text?
  let file ← match r.file with
    | some path => (decodeColumn 1 (pathColumn? path)).map some
    | none => .ok none
  let isBuiltin ← decodeColumn 2 r.isBuiltin.integer?
  let isSingleton ← decodeColumn 3 r.isSingleton.integer?
  let version ← match r.version with
    | some cell => (decodeColumn 4 cell.text?).map some
    | none => .ok none
  return { name, file, isBuiltin := isBuiltin != 0, isSingleton := isSingleton != 0, version }

end ComponentRow

end QmlIndex
