import QmlIndex.FileUri
import QmlIndex.Summary

/-! # Source entries

The record of one document: the state of the file it was made from, its summary, and its edges to other
documents. Both edge lists are increasing and without repetition.
-/

namespace QmlIndex

/-- Milliseconds since the start of 1970. -/
abbrev Timestamp := Int64

/-- Everything the index knows of one document. -/
structure SourceEntry where
  uri : FileUri
  /-- The digest of the file's bytes. -/
  contentHash : String
  lastModified : Timestamp
  imports : List Import
  exports : Exports
  symbols : List Symbol
  /-- The documents it imports as files. -/
  dependsOn : List FileUri
  /-- The entries that import it as a file. -/
  dependedBy : List FileUri
  deriving DecidableEq, Repr, Inhabited

/-- Put a path where it belongs in an increasing list, unless it is there. -/
def insertPath (p : Path) : List Path → List Path
  | [] => [p]
  | q :: rest =>
    match compare p q with
    | .lt => p :: q :: rest
    | .eq => q :: rest
    | .gt => q :: insertPath p rest

/-- The paths of a list, increasing and each once. -/
def sortPaths (l : List Path) : List Path := l.foldr insertPath []

namespace SourceEntry

/-- The files that the imports of a document name, itself excepted. -/
def fileDependencies (uri : FileUri) (imports : List Import) : List FileUri :=
  let targets := (imports.filter fun i => i.kind == .file).map fun i => FileUri.resolve uri i.source
  sortPaths (targets.filter (· != uri))

/-- The entry of a freshly read document. Who depends on it is not known from the document. -/
def ofDocument (uri : FileUri) (contentHash : String) (lastModified : Timestamp) (d : Document) :
    SourceEntry :=
  let s := d.summary
  { uri, contentHash, lastModified
    imports := s.imports
    exports := s.exports
    symbols := s.symbols
    dependsOn := fileDependencies uri s.imports
    dependedBy := [] }

/-- Whether the entry was made from these bytes at this time. -/
def isCurrent (e : SourceEntry) (contentHash : String) (lastModified : Timestamp) : Bool :=
  e.contentHash == contentHash && e.lastModified == lastModified

/-! ## As JSON -/

def uriToJson (u : FileUri) : Json := .str u.toString

def uriOfJson? (j : Json) : Option FileUri := do
  match FileUri.parse (← j.str?) with
  | .ok u => some u
  | .error _ => none

def importsToJson (l : List Import) : Json := .arr (l.map Import.toJson)

def importsOfJson? (j : Json) : Option (List Import) := j.list? Import.ofJson?

def symbolsToJson (l : List Symbol) : Json := .arr (l.map Symbol.toJson)

def symbolsOfJson? (j : Json) : Option (List Symbol) := j.list? Symbol.ofJson?

def urisToJson (l : List FileUri) : Json := .arr (l.map uriToJson)

def urisOfJson? (j : Json) : Option (List FileUri) := j.list? uriOfJson?

def toJson (e : SourceEntry) : Json :=
  .obj [("uri", uriToJson e.uri), ("content_hash", .str e.contentHash),
    ("last_modified", .int e.lastModified.toInt), ("imports", importsToJson e.imports),
    ("exports", e.exports.toJson), ("symbols", symbolsToJson e.symbols),
    ("depends_on", urisToJson e.dependsOn), ("depended_by", urisToJson e.dependedBy)]

def ofJson? (j : Json) : Option SourceEntry := do
  let [uri, contentHash, lastModified, imports, exports, symbols, dependsOn, dependedBy] ←
    j.record? ["uri", "content_hash", "last_modified", "imports", "exports", "symbols", "depends_on",
      "depended_by"] | none
  return {
    uri := ← Json.required uriOfJson? uri
    contentHash := ← Json.required Json.str? contentHash
    lastModified := ← Json.required Json.int64? lastModified
    imports := ← Json.required importsOfJson? imports
    exports := ← Json.required Exports.ofJson? exports
    symbols := ← Json.required symbolsOfJson? symbols
    dependsOn := ← Json.required urisOfJson? dependsOn
    dependedBy := ← Json.required urisOfJson? dependedBy }

end SourceEntry

end QmlIndex
