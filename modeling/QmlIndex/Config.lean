import QmlIndex.FileTree
import QmlIndex.PathText
import QmlIndex.Text.Blank
import QmlIndex.Toml.Reader
import QmlIndex.Toml.Writer

/-! # Configuration

The settings of an index. A settings file may leave out any of them and may hold others, which are
ignored; a setting of the wrong kind makes the file unreadable.
-/

namespace QmlIndex

/-- The settings of an index. -/
structure Config where
  /-- Where the database is, if not in the state directory. -/
  database : Option String := none
  /-- The documents, by their paths from the workspace root. -/
  sourcePattern : String := "**/*.qml"
  /-- The module manifests, by their paths from the workspace root. -/
  manifestPattern : String := "**/qmldir"
  /-- What is excluded besides the standard exclusions. -/
  exclude : List String := []
  /-- How many files are indexed at a time. -/
  batchSize : Nat := 50
  /-- Directories below which paths spell module names. -/
  moduleRootMarkers : List String := ["qml", "imports", "modules"]
  /-- Whether to follow changes of the files. -/
  watch : Bool := true
  deriving DecidableEq, Repr, Inhabited

namespace Config

/-- The name of the settings file in a workspace. -/
def fileName : String := "qmlscope.toml"

/-- The directory for the state of the index in a workspace. -/
def stateDirectory : String := ".qmlscope"

/-- A batch holds at least one file. -/
def effectiveBatchSize (c : Config) : Nat := max c.batchSize 1

/-- Where the database of a workspace is. -/
def databasePath (c : Config) (root : String) : String :=
  match c.database with
  | some path => PathText.join root path
  | none => PathText.join (PathText.join root stateDirectory) "index.db"

/-- Where the settings file of a workspace is. -/
def defaultPath (root : String) : String := PathText.join root fileName

/-! ## As a settings file -/

open Toml

def string? : Item → Option String
  | .string s => some s
  | _ => none

def strings? : Item → Option (List String)
  | .array items => items.mapM string?
  | _ => none

def boolean? : Item → Option Bool
  | .boolean b => some b
  | _ => none

def count? : Item → Option Nat
  | .integer i => if 0 ≤ i then some i.toNat else none
  | _ => none

/-- The value of a setting that may be left out. -/
def setting {α : Type} (t : Fields) (key : String) (read : Item → Option α) (default : α) : Option α :=
  match t.get? key with
  | some item => read item
  | none => some default

/-- The settings in a table. -/
def ofFields? (t : Fields) : Option Config := do
  let d : Config := {}
  return {
    database := ← setting t "database" (fun i => (string? i).map some) d.database
    sourcePattern := ← setting t "source_pattern" string? d.sourcePattern
    manifestPattern := ← setting t "manifest_pattern" string? d.manifestPattern
    exclude := ← setting t "exclude" strings? d.exclude
    batchSize := ← setting t "batch_size" count? d.batchSize
    moduleRootMarkers := ← setting t "module_root_markers" strings? d.moduleRootMarkers
    watch := ← setting t "watch" boolean? d.watch }

/-- Read the text of a settings file. -/
def parse (text : String) : Option Config := Toml.parse text >>= ofFields?

/-- Write a settings file. Numbers in it are signed 64-bit words. -/
def render (c : Config) : Option String :=
  if Word.fits c.batchSize then
    some (String.ofList (
      (match c.database with
        | some path => line "database" (string path)
        | none => []) ++
      line "source_pattern" (string c.sourcePattern) ++
      line "manifest_pattern" (string c.manifestPattern) ++
      line "exclude" (strings c.exclude) ++
      line "batch_size" (Nat.toDigits 10 c.batchSize) ++
      line "module_root_markers" (strings c.moduleRootMarkers) ++
      line "watch" (if c.watch then "true".toList else "false".toList)))
  else none

/-! ## On disk -/

/-- Read a settings file, if it is there. The path is seen from the directory `cwd`. -/
def load (t : FileTree) (cwd : Path) (path : String) : Result (Option Config) := do
  if t.containsGiven cwd path then
    match parse (← t.textGiven cwd path) with
    | some c => return some c
    | none => .error (.config .unreadable)
  else return none

/-- Write a settings file. One that is there is only replaced by force. -/
def save (c : Config) (t : FileTree) (cwd : Path) (path : String) (force : Bool) : Result FileTree := do
  if t.containsGiven cwd path && !force then .error (.config (.exists path))
  else
    match c.render with
    | some text => t.writeTextGiven cwd path text
    | none => .error (.config .unreadable)

/-- Make the directory in which a database is to be. When that was is not followed. -/
def ensureDatabaseDirectory (t : FileTree) (database : String) : Result FileTree :=
  match (Path.ofString database).parent? with
  | some dir => if dir.parts.isEmpty || t.contains dir then .ok t else t.makeDirectories dir 0
  | none => .ok t

/-- The line of an ignore file that names the state directory. -/
def ignoreLine : List Char := stateDirectory.toList ++ ['/']

/-- The text of an ignore file after the state directory was entered into it. -/
def withStateDirectory (text : List Char) : List Char :=
  if (Text.lines text).any fun line => Text.trim line == ignoreLine then text
  else
    let text := if text.isEmpty || text.getLast? = some '\n' then text else text ++ ['\n']
    text ++ ignoreLine ++ ['\n']

/-- Enter the state directory into the ignore file of a workspace. -/
def ensureIgnored (t : FileTree) (root : Path) : Result FileTree := do
  let p := root.child ".gitignore"
  if t.contains p then
    let text ← t.text p
    let new := withStateDirectory text.toList
    if new = text.toList then return t else t.writeText p (String.ofList new)
  else t.writeText p (String.ofList (withStateDirectory []))

end Config

end QmlIndex
