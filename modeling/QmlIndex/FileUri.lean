import QmlIndex.Path
import QmlIndex.Error

/-! # The identity of a document

A document is known by its absolute, normalised path. Written as a URI the path follows `file://`; the
bare path is accepted too, and is the key under which rows are stored.
-/

namespace QmlIndex

open Text

/-- The path that a document is known by. -/
abbrev FileUri := Path

namespace FileUri

def scheme : List Char := "file://".toList

/-- Read a URI or a bare absolute path. -/
def parse (uri : String) : Result FileUri :=
  let raw := (dropStart? scheme uri.toList).getD uri.toList
  if raw = [] then .error (.invalidUri s!"URI has no path: {uri}")
  else if raw.head? ≠ some '/' then .error (.invalidUri s!"URI path must be absolute: {uri}")
  else .ok (Path.ofChars raw).normalize

/-- The document at a path, seen from the directory `cwd`. -/
def ofPath (cwd : Path) (path : String) : Result FileUri :=
  if path = "" then .error (.invalidUri "path must not be empty")
  else .ok (cwd.join (Path.ofString path)).normalize

/-- The document as a URI. -/
def render (u : FileUri) : String := "file://" ++ u.toString

/-- What a reference in the document points at: relative references start at its directory. -/
def resolve (u : FileUri) (reference : String) : FileUri :=
  let r := Path.ofString reference
  match u.parent? with
  | some dir => (dir.join r).normalize
  | none => r.normalize

end FileUri

end QmlIndex
