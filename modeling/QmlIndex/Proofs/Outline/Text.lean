import QmlIndex.Proofs.Document.Bare

/-! # Outlines of documents

An outline is a document without scripts, as a person would write it down: a header, and a tree of objects whose
members are declarations with plain values, objects or lists of objects. Names carry the proof that they are words and
stand for no keyword. An outline is written one declaration a line, and it denotes a document without places.
-/

namespace QmlIndex

open Text Document

namespace Outline

/-! ## Names and other leaves -/

/-- A letter, `_` or `$`, then letters, numerals, `_` or `$`. -/
def isWord (s : String) : Bool :=
  match s.toList with
  | [] => false
  | c :: rest => isIdentStart c && rest.all isIdentContinue

/-- The words that are no names. -/
def reserved : List String :=
  ["pragma", "import", "as", "on", "id", "property", "signal", "function", "component", "enum"] ++ modifiers

/-- A segment of a name. -/
structure Name where
  text : String
  lexical : isWord text = true
  free : text ∉ reserved
  deriving DecidableEq

/-- A dotted name. -/
structure Dotted where
  first : Name
  rest : List Name
  deriving DecidableEq

namespace Dotted

def text (q : Dotted) : String := ".".intercalate (q.first.text :: q.rest.map Name.text)

def last (q : Dotted) : Name := q.rest.getLast?.getD q.first

end Dotted

/-- The name of a type of objects: its last segment starts with a capital. -/
structure TypeName extends Dotted where
  capital : (toDotted.last.text.toList.head?).any isUppercase = true
  deriving DecidableEq

/-- A word that may stand before `property`. -/
structure Modifier where
  word : String
  known : word ∈ modifiers
  deriving DecidableEq

/-- The version of an import: a digit, and whatever is glued to it. -/
structure Numeral where
  text : String
  lexical : (match text.toList with | [] => false | c :: rest => c.isDigit && rest.all isNumberContinue) = true
  deriving DecidableEq

/-- A path in quotes. -/
structure Quoted where
  text : String
  plain : ∀ c ∈ text.toList, c ≠ '"' ∧ c ≠ '\\' ∧ c ≠ '\n'

/-- The type of a property. -/
inductive PropertyType where
  | plain (name : Dotted)
  /-- `list<T>` -/
  | list (element : Dotted)
  deriving DecidableEq

def PropertyType.text : PropertyType → String
  | plain name => name.text
  | list element => "list<" ++ element.text ++ ">"

/-! ## Lines and objects -/

/-- What an import points at. -/
inductive Target where
  | module (name : Dotted)
  | path (reference : Quoted)

/-- A line of the header. -/
inductive Line where
  /-- `pragma Name` or `pragma Name: Value, Value` -/
  | pragma (name : Name) (value : Option (List Name))
  /-- `import Target [version] [as qualifier]` -/
  | importing (target : Target) (version : Option Numeral) (qualifier : Option Name)

mutual

/-- `Type { ... }` or `Type on name { ... }` -/
inductive Object where
  | mk (type : TypeName) (target : Option Dotted) (members : List Declaration)

inductive Declaration where
  | id (name : Name)
  | property (modifiers : List Modifier) (type : PropertyType) (name : Name) (value : Option Value)
  | signal (name : Name)
  | function (name : Name)
  | enum (name : Name)
  | component (name : Name) (object : Object)
  | binding (name : Dotted) (value : Value)
  | object (object : Object)

inductive Value where
  /-- `0` -/
  | plain
  | object (object : Object)
  | list (objects : List Object)

end

end Outline

/-- A header and an object. -/
structure Outline where
  header : List Outline.Line
  root : Outline.Object

namespace Outline

/-! ## Depth -/

mutual

/-- How deep object bodies nest. -/
def Object.depth : Object → Nat
  | .mk _ _ members => depthOfMembers members + 1

def depthOfMembers : List Declaration → Nat
  | [] => 0
  | m :: rest => max m.depth (depthOfMembers rest)

def Declaration.depth : Declaration → Nat
  | .property _ _ _ (some value) => value.depth
  | .component _ object => object.depth
  | .binding _ value => value.depth
  | .object object => object.depth
  | _ => 0

def Value.depth : Value → Nat
  | .plain => 0
  | .object object => object.depth
  | .list objects => depthOfObjects objects

def depthOfObjects : List Object → Nat
  | [] => 0
  | o :: rest => max o.depth (depthOfObjects rest)

end

/-! ## As text -/

/-- A piece of the text of an outline. -/
inductive Lexeme where
  | word (text : String)
  | number (text : String)
  /-- A literal in double quotes. -/
  | quoted (text : String)
  /-- A punctuation character. -/
  | mark (c : Char)
  | space
  | newline
  deriving DecidableEq

namespace Lexeme

def text : Lexeme → List Char
  | word text => text.toList
  | number text => text.toList
  | quoted text => '"' :: text.toList ++ ['"']
  | mark c => [c]
  | space => [' ']
  | newline => ['\n']

end Lexeme

open Lexeme

def Dotted.lexemes (q : Dotted) : List Lexeme :=
  word q.first.text :: q.rest.flatMap fun n => [mark '.', word n.text]

def PropertyType.lexemes : PropertyType → List Lexeme
  | plain name => name.lexemes
  | list element => word "list" :: mark '<' :: element.lexemes ++ [mark '>']

def Target.lexemes : Target → List Lexeme
  | module name => name.lexemes
  | path reference => [quoted reference.text]

/-- Names with commas between them. -/
def enumerated : List Name → List Lexeme
  | [] => []
  | [n] => [word n.text]
  | n :: rest => word n.text :: mark ',' :: space :: enumerated rest

def pragmaValue : Option (List Name) → List Lexeme
  | none => []
  | some names => mark ':' :: space :: enumerated names

def importVersion : Option Numeral → List Lexeme
  | none => []
  | some version => [space, number version.text]

def importQualifier : Option Name → List Lexeme
  | none => []
  | some name => [space, word "as", space, word name.text]

def Line.lexemes : Line → List Lexeme
  | pragma name value => word "pragma" :: space :: word name.text :: pragmaValue value
  | importing target version qualifier =>
    word "import" :: space :: target.lexemes ++ importVersion version ++ importQualifier qualifier

def onTarget : Option Dotted → List Lexeme
  | none => []
  | some name => space :: word "on" :: space :: name.lexemes

def modifierLexemes (l : List Modifier) : List Lexeme := l.flatMap fun m => [word m.word, space]

mutual

def Object.lexemes : Object → List Lexeme
  | .mk type target members =>
    type.lexemes ++ onTarget target ++ space :: mark '\x7b' :: newline :: memberLexemes members ++ [mark '\x7d']

/-- Each member is a line of its own. -/
def memberLexemes : List Declaration → List Lexeme
  | [] => []
  | m :: rest => m.lexemes ++ newline :: memberLexemes rest

def Declaration.lexemes : Declaration → List Lexeme
  | .id name => [word "id", mark ':', space, word name.text]
  | .property modifiers type name value =>
    modifierLexemes modifiers ++ word "property" :: space :: type.lexemes ++ space :: word name.text ::
      match value with
      | none => []
      | some value => mark ':' :: space :: value.lexemes
  | .signal name => [word "signal", space, word name.text, mark '(', mark ')']
  | .function name =>
    [word "function", space, word name.text, mark '(', mark ')', space, mark '\x7b', mark '\x7d']
  | .enum name => [word "enum", space, word name.text, space, mark '\x7b', mark '\x7d']
  | .component name object => word "component" :: space :: word name.text :: mark ':' :: space :: object.lexemes
  | .binding name value => name.lexemes ++ mark ':' :: space :: value.lexemes
  | .object object => object.lexemes

def Value.lexemes : Value → List Lexeme
  | .plain => [number "0"]
  | .object object => object.lexemes
  | .list objects => mark '[' :: elementLexemes objects ++ [mark ']']

/-- Objects with commas between them. -/
def elementLexemes : List Object → List Lexeme
  | [] => []
  | [o] => o.lexemes
  | o :: rest => o.lexemes ++ mark ',' :: space :: elementLexemes rest

end

def headerLexemes (l : List Line) : List Lexeme := l.flatMap fun line => line.lexemes ++ [newline]

def lexemes (d : Outline) : List Lexeme := headerLexemes d.header ++ d.root.lexemes ++ [newline]

/-- The outline as it is written. -/
def text (d : Outline) : List Char := d.lexemes.flatMap Lexeme.text

/-! ## As a document -/

mutual

def Object.tree : Object → ObjectNode
  | .mk type _ members => .mk type.text .blank (memberTrees members)

def memberTrees : List Declaration → List Member
  | [] => []
  | m :: rest => m.tree :: memberTrees rest

def Declaration.tree : Declaration → Member
  | .id name => .id name.text .blank
  | .property _ type name none => .property name.text type.text .blank []
  | .property _ type name (some value) => .property name.text type.text .blank value.trees
  | .signal name => .signal name.text .blank
  | .function name => .function name.text .blank
  | .enum name => .enum name.text .blank
  | .component name object => .component name.text .blank object.tree
  | .binding name value => .binding name.text .blank value.trees
  | .object object => .object object.tree

/-- The objects in a value. -/
def Value.trees : Value → List ObjectNode
  | .plain => []
  | .object object => [object.tree]
  | .list objects => objectTrees objects

def objectTrees : List Object → List ObjectNode
  | [] => []
  | o :: rest => o.tree :: objectTrees rest

end

def Target.toImportTarget : Target → ImportTarget
  | module name => .module name.text
  | path reference => .path reference.text

def Line.pragma? : Line → Option Pragma
  | pragma name value => some ⟨name.text, value.map fun names => ", ".intercalate (names.map Name.text), .blank⟩
  | _ => none

def Line.import? : Line → Option ImportStatement
  | importing target version qualifier =>
    some ⟨target.toImportTarget, version.map Numeral.text, qualifier.map Name.text, .blank⟩
  | _ => none

/-- The document that an outline denotes. -/
def document (d : Outline) : Document where
  pragmas := d.header.filterMap Line.pragma?
  imports := d.header.filterMap Line.import?
  root := d.root.tree

end Outline

end QmlIndex
