import QmlIndex.Json.Range
import QmlIndex.Error

/-! # Symbols

Every declaration that a document makes is of one of five kinds. A symbol is one declaration, with the
type it was declared at and its place.
-/

namespace QmlIndex

inductive SymbolKind where
  /-- `property T name` -/
  | property
  | signal
  | function
  /-- `id: name` -/
  | id
  /-- `Type { ... }` -/
  | object
  deriving DecidableEq, Repr, Inhabited

namespace SymbolKind

def name : SymbolKind → String
  | property => "property"
  | signal => "signal"
  | function => "function"
  | id => "id"
  | object => "object"

def all : List SymbolKind := [property, signal, function, id, object]

/-- The kind with exactly this name. -/
def ofName? (s : String) : Option SymbolKind := all.find? (·.name == s)

/-- The kind that a word asks for, in any case and under some other words in use. Only ASCII letters are
lowered: no other character has a lower case that occurs in one of the words. -/
def parse (s : String) : Result SymbolKind :=
  match String.ofList (s.toList.map Char.toLower) with
  | "property" | "prop" => .ok property
  | "signal" => .ok signal
  | "function" | "fn" | "method" => .ok function
  | "id" => .ok id
  | "object" | "obj" | "component" => .ok object
  | _ => .error (.parse s!"Unknown symbol kind: {s}")

def toJson (k : SymbolKind) : Json := .str k.name

def ofJson? (j : Json) : Option SymbolKind := j.variant? ofName?

end SymbolKind

/-- A declaration. -/
structure Symbol where
  name : String
  declaredType : String
  kind : SymbolKind
  range : TextRange
  deriving DecidableEq, Repr, Inhabited

namespace Symbol

/-- One line for people to read. -/
def shortDescription (s : Symbol) : String := s!"{s.kind.name} {s.name}: {s.declaredType}"

def toJson (s : Symbol) : Json :=
  .obj [("name", .str s.name), ("declared_type", .str s.declaredType), ("kind", s.kind.toJson),
    ("range", s.range.toJson)]

def ofJson? (j : Json) : Option Symbol := do
  let [name, declaredType, kind, range] ← j.record? ["name", "declared_type", "kind", "range"] | none
  return {
    name := ← Json.required Json.str? name
    declaredType := ← Json.required Json.str? declaredType
    kind := ← Json.required SymbolKind.ofJson? kind
    range := ← Json.required TextRange.ofJson? range }

end Symbol

end QmlIndex
