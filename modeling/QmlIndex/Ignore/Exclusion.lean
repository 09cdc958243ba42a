import QmlIndex.FileTree
import QmlIndex.Ignore.Rule
import QmlIndex.PathText

/-! # Exclusion

What is never indexed: what the ignore files at the workspace root name, build output and tool state, and
what the configuration names. Later rules win over earlier ones. A path is excluded with any directory it
lies in, unless a rule that is nearer to it takes it back.
-/

namespace QmlIndex.Ignore

open Text

/-- Split bytes after each line feed. -/
def byteLines : List UInt8 → List (List UInt8)
  | [] => []
  | b :: rest =>
    if b = 10 then [b] :: byteLines rest
    else
      match byteLines rest with
      | [] => [[b]]
      | line :: lines => (b :: line) :: lines

/-- The text of a file up to the first line that is no text. -/
def readableText (content : ByteArray) : List Char :=
  let lines := (byteLines content.toList).map fun line => String.fromUTF8? ⟨line.toArray⟩
  (lines.takeWhile Option.isSome).flatMap fun line => (line.map String.toList).getD []

/-- The rules of the file at a path; none if it cannot be read. -/
def Rules.ofFile (t : FileTree) (p : Path) : Rules :=
  match t.file p with
  | .ok f => Rules.ofText (readableText f.content)
  | .error _ => []

/-- Build output, tool state and databases. -/
def standardPatterns : List String :=
  ["build/", "build-*/", "out/", "dist/", "target/", "node_modules/", ".git/", ".qmlscope/", ".qt/",
    ".rcc/", ".vscode/", ".idea/", "CMakeFiles/", "*_autogen/", "*.db", "*.sqlite", "*.sqlite3", "*.db-wal",
    "*.db-shm"]

/-- The rules of a workspace, read once. -/
structure Exclusion where
  root : Path
  rules : Rules
  deriving Inhabited

namespace Exclusion

/-- Read the rules of a workspace; patterns that are not well formed are left out. -/
def load (t : FileTree) (root : Path) (patterns : List String) : Exclusion where
  root
  rules :=
    Rules.ofFile t (root.child ".gitignore") ++ Rules.ofFile t (root.child ".ignore") ++
      (standardPatterns ++ patterns).filterMap fun p => Rule.ofLine p.toList

/-- What the rules say of a path or else of the nearest directory above it that they speak of. The path
is given as the fields of its spelling below the root; the last directory asked is the root itself, whose
spelling is empty. -/
def verdictUpwards (rules : Rules) (fs : List (List Char)) : Verdict :=
  match _h : PathText.parent? fs with
  | none => .silent
  | some dir => (rules.verdict (PathText.unfields dir) true).orElse (verdictUpwards rules dir)
termination_by fs.length
decreasing_by exact PathText.parent?_length _h

/-- Whether a path below the root is excluded. The root itself is not. -/
def covers (e : Exclusion) (fs : List (List Char)) (isDirectory : Bool) : Bool :=
  !fs.isEmpty &&
    (e.rules.verdict (PathText.unfields fs) isDirectory).orElse (verdictUpwards e.rules fs)
      == .ignored

/-- Whether a path, as it is written, is excluded. What lies outside the root is not. -/
def excludes (e : Exclusion) (path : String) (isDirectory : Bool) : Bool :=
  (PathText.below? e.root path).any (e.covers · isDirectory)

end Exclusion

end QmlIndex.Ignore
