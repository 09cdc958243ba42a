import QmlIndex.Glob
import QmlIndex.Ignore.Exclusion

/-! # Which files belong to an index

A matcher selects files by pattern and leaves out what is excluded. It answers for single paths, and it
lists the files of a workspace; the listing also heeds the ignore files of every directory it goes
through and of the directories above the workspace.
-/

namespace QmlIndex

open Ignore

/-- A pattern and an exclusion, relative to a workspace root. -/
structure Matcher where
  root : Path
  glob : Glob
  exclusion : Option Exclusion
  deriving Inhabited

namespace Matcher

def create (root : Path) (pattern : String) (exclusion : Option Exclusion) : Result Matcher := do
  return ⟨root, ← Glob.parse pattern, exclusion⟩

/-- Whether the matcher's exclusion covers a path below the root. -/
def leavesOut (m : Matcher) (fs : List (List Char)) (isDirectory : Bool) : Bool :=
  m.exclusion.any (·.covers fs isDirectory)

/-- Whether a file below the root belongs to the index; the file is given by the fields of its path. -/
def selects (m : Matcher) (fs : List (List Char)) : Bool :=
  m.glob.selects (PathText.unfields fs) && !m.leavesOut fs false

/-- Whether a path, as it is written, belongs to the index. -/
def accepts (m : Matcher) (path : String) : Bool := (PathText.below? m.root path).any m.selects

/-! ## Listing a workspace -/

/-- The ignore files of a directory, the ones that count most first. -/
def ignoreFiles : List (List String) := [[".ignore"], [".gitignore"], [".git", "info", "exclude"]]

/-- The fields of a list of parts. -/
def partFields (parts : List Part) : List (List Char) := parts.map fun p => p.text.toList

/-- What the files of one kind in a directory and the directories above it say of something that lies
`below` the directory, the nearest first. The directories above are given nearest first. -/
def verdictOfFiles (t : FileTree) (kind : List String) (isDirectory : Bool) :
    List Part → List Part → Verdict
  | [], below => verdictAt [] below
  | part :: above, below =>
    (verdictAt (part :: above) below).orElse (verdictOfFiles t kind isDirectory above (part :: below))
where
  /-- What the file in one directory says. -/
  verdictAt (dir below : List Part) : Verdict :=
    (Rules.ofFile t (kind.foldl Path.child ⟨.root :: dir.reverse⟩)).verdict
      (PathText.unfields (partFields below)) isDirectory

/-- What the ignore files of all directories above it say of something at a place. -/
def verdictOfPlace (t : FileTree) (place : Path) (isDirectory : Bool) : Verdict :=
  match place.parts.tail.reverse with
  | [] => .silent
  | last :: above =>
    ignoreFiles.foldl (fun v kind => v.orElse (verdictOfFiles t kind isDirectory above [last])) .silent

/-- Whether a listing does not enter or list something below the root. -/
def prunes (m : Matcher) (t : FileTree) (place : Path) (below : List Part) (isDirectory : Bool) : Bool :=
  verdictOfPlace t ⟨place.parts ++ below⟩ isDirectory == .ignored || m.leavesOut (partFields below) isDirectory

/-- Whether a listing that starts at `place` reaches the file that lies `below` it: nothing on the way is
pruned. -/
def reaches (m : Matcher) (t : FileTree) (place : Path) (below : List Part) : Bool :=
  (List.range below.length).all fun i =>
    !m.prunes t place (below.take (i + 1)) (decide (i + 1 < below.length))

/-- The files of the tree below a place, by the parts of their paths from there. -/
def filesBelow (t : FileTree) (place : Path) : List (List Part) :=
  t.nodes.entries.filterMap fun (path, node) =>
    match node with
    | .file _ => place.below? path
    | .directory _ => none

/-- The files that belong to the index, in order. -/
def walk (m : Matcher) (t : FileTree) : List Path :=
  match t.locate m.root with
  | .ok place =>
    ((filesBelow t place).filter fun below => m.selects (partFields below) && m.reaches t place below).map
      fun below => ⟨m.root.parts ++ below⟩
  | .error _ => []

end Matcher

end QmlIndex
