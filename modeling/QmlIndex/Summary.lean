import QmlIndex.Text.Fields
import QmlIndex.Document
import QmlIndex.Symbol

/-! # What the index keeps of a document

A summary holds the imports of a document with their kind, what the document offers to its importers, and
the flat list of its symbols in document order.
-/

namespace QmlIndex

open Text

/-- What an import refers to. -/
inductive ImportKind where
  | module
  /-- A quoted directory or URL. -/
  | directory
  /-- A quoted source file. -/
  | file
  deriving DecidableEq, Repr, Inhabited

namespace ImportKind

def name : ImportKind → String
  | module => "module"
  | directory => "directory"
  | file => "file"

def ofName? (s : String) : Option ImportKind := [module, directory, file].find? (·.name == s)

def toJson (k : ImportKind) : Json := .str k.name

def ofJson? (j : Json) : Option ImportKind := j.variant? ofName?

/-- The extensions of source files. -/
def sourceExtensions : List String := ["qml", "js", "mjs"]

/-- Whether a reference starts with a URL scheme. One letter before the colon is a drive, not a scheme. -/
def hasScheme (path : List Char) : Bool :=
  match cutFirst ':' path with
  | some (scheme, _) =>
    scheme.length > 1 && scheme.all fun c => c.isAlphanum || c == '+' || c == '-'
  | none => false

/-- A quoted reference is a file if it has the extension of a source file and is no URL. -/
def ofTarget : ImportTarget → ImportKind
  | .module _ => module
  | .path text =>
    if hasScheme text.toList then directory
    else
      match afterLast '.' text.toList with
      | some extension =>
        if sourceExtensions.contains (String.ofList (extension.map Char.toLower)) then file else directory
      | none => directory

end ImportKind

/-- An import, as the index keeps it. -/
structure Import where
  kind : ImportKind
  /-- The reference as written, without quotes. -/
  source : String
  version : Option String
  qualifier : Option String
  range : TextRange
  deriving DecidableEq, Repr, Inhabited

namespace Import

def ofStatement (s : ImportStatement) : Import :=
  ⟨ImportKind.ofTarget s.target, s.target.text, s.version, s.qualifier, s.range⟩

def toJson (i : Import) : Json :=
  .obj [("kind", i.kind.toJson), ("source", .str i.source), ("version", Json.ofOption .str i.version),
    ("alias", Json.ofOption .str i.qualifier), ("range", i.range.toJson)]

def ofJson? (j : Json) : Option Import := do
  let [kind, source, version, qualifier, range] ←
    j.record? ["kind", "source", "version", "alias", "range"] | none
  return {
    kind := ← Json.required ImportKind.ofJson? kind
    source := ← Json.required Json.str? source
    version := ← Json.optional Json.str? version
    qualifier := ← Json.optional Json.str? qualifier
    range := ← Json.required TextRange.ofJson? range }

end Import

/-- What a document offers to its importers. -/
structure Exports where
  /-- The type of the root object. -/
  rootType : Option String := none
  /-- The inline components, in document order. -/
  inlineComponents : List String := []
  isSingleton : Bool := false
  deriving DecidableEq, Repr, Inhabited

namespace Exports

def toJson (e : Exports) : Json :=
  .obj [("root_component_type", Json.ofOption .str e.rootType),
    ("inline_component_names", .arr (e.inlineComponents.map .str)), ("is_singleton", .bool e.isSingleton)]

def ofJson? (j : Json) : Option Exports := do
  let [rootType, inlineComponents, isSingleton] ←
    j.record? ["root_component_type", "inline_component_names", "is_singleton"] | none
  return {
    rootType := ← Json.optional Json.str? rootType
    inlineComponents := ← Json.required (Json.list? Json.str?) inlineComponents
    isSingleton := ← Json.required Json.bool? isSingleton }

end Exports

/-- Imports, exports and symbols of one document. -/
structure Summary where
  imports : List Import
  exports : Exports
  symbols : List Symbol
  deriving DecidableEq, Repr, Inhabited

mutual

/-- The symbols of an object: itself, then those of its members in order. -/
def ObjectNode.symbols : ObjectNode → List Symbol
  | .mk typeName range members => ⟨typeName, typeName, .object, range⟩ :: memberSymbols typeName members

/-- The symbols of the members of an object of the given type. -/
def memberSymbols (owner : String) : List Member → List Symbol
  | [] => []
  | m :: rest => m.symbols owner ++ memberSymbols owner rest

/-- The symbols of one member: an id is typed by the object it stands in. -/
def Member.symbols (owner : String) : Member → List Symbol
  | .id name range => [⟨name, owner, .id, range⟩]
  | .property name typeName range objects => ⟨name, typeName, .property, range⟩ :: objectSymbols objects
  | .signal name range => [⟨name, "signal", .signal, range⟩]
  | .function name range => [⟨name, "function", .function, range⟩]
  | .component _ _ object => object.symbols
  | .enum _ _ => []
  | .binding _ _ objects => objectSymbols objects
  | .object object => object.symbols

/-- The symbols of the objects in a value. -/
def objectSymbols : List ObjectNode → List Symbol
  | [] => []
  | o :: rest => o.symbols ++ objectSymbols rest

end

mutual

/-- The inline components inside an object, in document order. -/
def ObjectNode.inlineComponents : ObjectNode → List String
  | .mk _ _ members => memberComponents members

def memberComponents : List Member → List String
  | [] => []
  | m :: rest => m.inlineComponents ++ memberComponents rest

def Member.inlineComponents : Member → List String
  | .property _ _ _ objects => objectComponents objects
  | .component name _ object => name :: object.inlineComponents
  | .binding _ _ objects => objectComponents objects
  | .object object => object.inlineComponents
  | _ => []

def objectComponents : List ObjectNode → List String
  | [] => []
  | o :: rest => o.inlineComponents ++ objectComponents rest

end

namespace Document

/-- What the index keeps of a document. -/
def summary (d : Document) : Summary where
  imports := d.imports.map Import.ofStatement
  exports :=
    { rootType := some d.root.typeName
      inlineComponents := d.root.inlineComponents
      isSingleton := d.isSingleton }
  symbols := d.root.symbols

end Document

end QmlIndex
