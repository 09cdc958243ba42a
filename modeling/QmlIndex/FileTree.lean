import QmlIndex.Error
import QmlIndex.OrdMap
import QmlIndex.SourceEntry

/-! # File trees

The files that a workspace is read from, as a map from absolute paths to what is there. Every operation
takes a path as it is written, goes through it part by part, and fails as a file system does: a directory
that is missing, or a file where a directory is needed.
-/

namespace QmlIndex

/-- A regular file. -/
structure File where
  content : ByteArray
  modified : Timestamp
  deriving Inhabited

instance : DecidableEq File := fun f g =>
  if h : f.content.data = g.content.data ∧ f.modified = g.modified then
    .isTrue (by
      obtain ⟨⟨a⟩, s⟩ := f
      obtain ⟨⟨b⟩, t⟩ := g
      obtain ⟨rfl, rfl⟩ := h
      rfl)
  else .isFalse (by
    rintro rfl
    exact h ⟨rfl, rfl⟩)

/-- The time of a file as it is read back: nothing is older than the start of 1970. -/
def File.time (f : File) : Timestamp := if f.modified < 0 then 0 else f.modified

/-- What a path leads to. A directory has a time as a file has; what happens inside of it is not followed
there. -/
inductive Node where
  | directory (modified : Timestamp)
  | file (f : File)
  deriving DecidableEq, Inhabited

/-- The time of what is at a path, as it is read back. -/
def Node.time : Node → Timestamp
  | .directory modified => if modified < 0 then 0 else modified
  | .file f => f.time

/-- Files and directories by their paths. The root directory is always there and not listed; the other
paths are absolute and consist of names. -/
structure FileTree where
  nodes : OrdMap Path Node
  /-- The time of the root directory. -/
  modified : Timestamp := 0
  deriving DecidableEq, Inhabited

namespace FileTree

def empty : FileTree where
  nodes := .empty

/-- What is at a place. -/
def at? (t : FileTree) (place : Path) : Option Node :=
  if place = .rootDir then some (.directory t.modified) else t.nodes.get? place

/-- Whether a path can go on from a place, and the error if not. -/
def enter (t : FileTree) (place : Path) : Result Unit :=
  match t.at? place with
  | some (.directory _) => .ok ()
  | some (.file _) => .error .notADirectory
  | none => .error .notFound

/-- Follow the parts of a path to the place that it names, which need not be there. -/
def follow (t : FileTree) (here : Path) : List Part → Result Path
  | [] => .ok here
  | .root :: rest => t.follow .rootDir rest
  | .current :: rest => do
    t.enter here
    t.follow here rest
  | .parent :: rest => do
    t.enter here
    t.follow (here.parent?.getD here) rest
  | .name n :: rest => do
    t.enter here
    t.follow (here.child n) rest

/-- The place that an absolute path names. -/
def locate (t : FileTree) (p : Path) : Result Path := t.follow .rootDir p.parts

/-- What is at a path. -/
def find (t : FileTree) (p : Path) : Result Node := do
  match t.at? (← t.locate p) with
  | some node => .ok node
  | none => .error .notFound

def contains (t : FileTree) (p : Path) : Bool :=
  match t.find p with
  | .ok _ => true
  | .error _ => false

def isFile (t : FileTree) (p : Path) : Bool :=
  match t.find p with
  | .ok (.file _) => true
  | _ => false

def isDirectory (t : FileTree) (p : Path) : Bool :=
  match t.find p with
  | .ok (.directory _) => true
  | _ => false

/-! ## Reading -/

/-- The file at a path. -/
def file (t : FileTree) (p : Path) : Result File := do
  match ← t.find p with
  | .file f => .ok f
  | .directory _ => .error .isADirectory

/-- The text of a file. -/
def text (t : FileTree) (p : Path) : Result String := do
  match String.fromUTF8? (← t.file p).content with
  | some s => .ok s
  | none => .error .notText

/-- The time of what is at a path, be it a file or a directory; a path that leads nowhere has none. -/
def time? (t : FileTree) (p : Path) : Option Timestamp :=
  match t.find p with
  | .ok node => some node.time
  | .error _ => none

/-- Whether what is at a path has the given time, or none where nothing is there. -/
def hasTime (t : FileTree) (p : Path) (time : Option Timestamp) : Bool := t.time? p == time

/-! ## Writing -/

/-- Put a file at a path; its directory must be there. -/
def write (t : FileTree) (p : Path) (f : File) : Result FileTree := do
  let place ← t.locate p
  match t.at? place with
  | some (.directory _) => .error .isADirectory
  | _ => .ok { t with nodes := t.nodes.insert place (.file f) }

/-- Write a text of the program's own. Nothing depends on when that was. -/
def writeText (t : FileTree) (p : Path) (text : String) : Result FileTree := t.write p ⟨text.toUTF8, 0⟩

/-! ## Paths as they are given

The text of a path says more than the path: a separator or a `.` at its end asks for a directory. -/

/-- The path that a file operation takes a text for, seen from the directory `cwd`. -/
def given (cwd : Path) (text : String) : Result Path :=
  let p := cwd.join (Path.ofString text)
  if text.isEmpty then .error .notFound
  else if text.toList.contains '\x00' then .error .nulInName
  else if Path.wantsDirectory text then .ok ⟨p.parts ++ [.current]⟩
  else .ok p

def containsGiven (t : FileTree) (cwd : Path) (path : String) : Bool :=
  match given cwd path with
  | .ok p => t.contains p
  | .error _ => false

/-- The text of a file. -/
def textGiven (t : FileTree) (cwd : Path) (path : String) : Result String := do
  t.text (← given cwd path)

/-- Write a text of the program's own. What has a separator behind its name is taken for a directory before
anyone looks whether it is there. -/
def writeTextGiven (t : FileTree) (cwd : Path) (path text : String) : Result FileTree := do
  let p ← given cwd path
  if Path.endsInSeparator path then
    let _ ← t.locate (cwd.join (Path.ofString path))
    .error .isADirectory
  else t.writeText p text

/-! ## Directories -/

/-- Make directories, each inside the one before. -/
def makeAll (t : FileTree) (modified : Timestamp) : List Path → Result FileTree
  | [] => .ok t
  | place :: rest =>
    match t.at? place with
    | some (.directory _) => t.makeAll modified rest
    | some (.file _) => .error .notADirectory
    | none => makeAll { t with nodes := t.nodes.insert place (.directory modified) } modified rest

/-- Make a directory and all directories above it, at a given time. -/
def makeDirectories (t : FileTree) (p : Path) (modified : Timestamp) : Result FileTree :=
  t.makeAll modified p.normalize.ancestry

/-- Remove a file. -/
def removeFile (t : FileTree) (p : Path) : Result FileTree := do
  let place ← t.locate p
  match t.at? place with
  | some (.file _) => .ok { t with nodes := t.nodes.erase place }
  | some (.directory _) => .error .isADirectory
  | none => .error .notFound

/-- Remove a directory and everything below it. -/
def removeDirectory (t : FileTree) (p : Path) : Result FileTree := do
  let place ← t.locate p
  match t.at? place with
  | some (.directory _) => .ok { t with nodes := t.nodes.filter fun q _ => !place.isAbove q }
  | some (.file _) => .error .notADirectory
  | none => .error .notFound

/-- Whether nothing lies below a place. -/
def isBare (t : FileTree) (place : Path) : Bool := t.nodes.keys.all fun q => q == place || !place.isAbove q

/-- Move a file or a directory to another place. A file may take the place of a file, and a directory
that of an empty directory. -/
def rename (t : FileTree) (p q : Path) : Result FileTree := do
  let source ← t.locate p
  let target ← t.locate q
  match t.at? source, t.at? target with
  | none, _ => .error .notFound
  | some (.file _), some (.directory _) => .error .isADirectory
  | some (.file f), _ => .ok { t with nodes := (t.nodes.erase source).insert target (.file f) }
  | some (.directory _), some (.file _) => .error .notADirectory
  | some (.directory _), there =>
    if source = target then .ok t
    else if source.isAbove target then .error .invalidArgument
    else if there.isSome && !t.isBare target then .error .notEmpty
    else
      let moved := t.nodes.entries.map fun (k, node) =>
        (if source.isAbove k then ⟨target.parts ++ k.parts.drop source.parts.length⟩ else k, node)
      .ok { t with nodes := OrdMap.ofList moved }

end FileTree

end QmlIndex
