import QmlIndex.CommandLine

/-! # The program

Reads from the disk what a command can look at, runs the command, and writes what it changed.
-/

namespace QmlIndex.Main

/-! ## From the disk -/

/-- A place as the disk knows it: a name in a directory. -/
def entryAt (place : Path) : IO.FS.DirEntry :=
  ⟨(place.parent?.getD .rootDir).toString, place.fileName?.getD ""⟩

/-- What a look at the disk gives, if it does not fail. -/
def attempt {α : Type} (look : IO α) : IO (Option α) := do
  try
    return some (← look)
  catch _ => return none

/-- The time that the disk gives to something, in milliseconds. -/
def timeOf (info : IO.FS.Metadata) : Timestamp :=
  .ofInt (info.modified.sec * 1000 + info.modified.nsec.toNat / 1000000)

/-- What is at a place, if it can be read. -/
def nodeAt? (place : Path) (info : IO.FS.Metadata) : IO (Option Node) := do
  match info.type with
  | .dir => return some (.directory (timeOf info))
  | .file =>
    let content ← attempt (IO.FS.readBinFile (entryAt place).path)
    return content.map fun content => .file ⟨content, timeOf info⟩
  | _ => return none

/-- Add what is at a place, if it can be read. -/
def seeAt (t : FileTree) (place : Path) (info : IO.FS.Metadata) : IO FileTree := do
  match ← nodeAt? place info with
  | some node => return { t with nodes := t.nodes.insert place node }
  | none => return t

/-- A tree in which nothing was looked at but the root directory. -/
def seeRoot : IO FileTree := do
  match ← attempt (entryAt .rootDir).path.metadata with
  | some info => return { FileTree.empty with modified := timeOf info }
  | none => return .empty

/-- Add what is at a path, with the directories that lead there. Links are followed. -/
def see (t : FileTree) (p : Path) : IO FileTree :=
  p.normalize.ancestry.foldlM (fun t place => do
    if (t.at? place).isSome then return t
    match ← attempt (entryAt place).path.metadata with
    | some info => seeAt t place info
    | none => return t) t

/-- Add the ignore files of a directory. -/
def seeIgnoreFiles (t : FileTree) (dir : Path) : IO FileTree :=
  Matcher.ignoreFiles.foldlM (fun t kind => see t (kind.foldl Path.child dir)) t

/-- Whether something below the root of a workspace matters to its index. -/
def matters (w : Workspace) (below : Path) : IO.FS.FileType → Bool
  | .dir => !w.sourceMatcher.leavesOut (Matcher.partFields below.parts) true
  | .file =>
    let fs := Matcher.partFields below.parts
    w.sourceMatcher.selects fs || w.manifestMatcher.selects fs
  | _ => false

/-- Add what matters in a directory of a workspace. Links are not followed. The last argument bounds how
deep directories lie in each other. -/
def seeBelow (w : Workspace) (place : Path) (t : FileTree) (below : Path) : Nat → IO FileTree
  | 0 => return t
  | depth + 1 => do
    let mut t ← seeIgnoreFiles t (place.join below)
    for e in (← attempt (entryAt (place.join below)).path.readDir).getD #[] do
      let inner := below.child e.fileName
      if let some info ← attempt e.path.symlinkMetadata then
        if matters w inner info.type then
          t ← seeAt t (place.join inner) info
          if info.type == .dir then t ← seeBelow w place t inner depth
    return t

/-- How deep directories can lie in each other: a path has at most 4096 bytes. -/
def deepest : Nat := 2048

/-- Add the files that a database speaks of. -/
def seeStored (t : FileTree) (database : Path) : IO FileTree := do
  match t.file database with
  | .error _ => return t
  | .ok f =>
    let store := (Store.ofContent? f.content).getD .empty
    let paths := store.sources.filterMap (·.path) ++ store.modules.filterMap (·.manifest)
    (paths.map Path.ofString).foldlM see t

/-- Everything that a command can look at. -/
def survey (cwd : String) (i : CommandLine.Invocation) : IO FileTree := do
  let here := Path.ofString cwd
  let root := PathText.absolute cwd i.path
  let place := (Path.ofString root).normalize
  let config := i.config.getD (Config.defaultPath root)
  let mut t ← see (← seeRoot) here
  t ← see t place
  for dir in .rootDir :: place.ancestry do
    t ← seeIgnoreFiles t dir
  t ← see t (here.join (Path.ofString config))
  if let .file path := i.command then
    t ← see t (here.join (Path.ofString path))
  match Config.load t here config with
  | .error _ => return t
  | .ok settings =>
    let settings := settings.getD {}
    let database := Path.ofString (settings.databasePath root)
    t ← seeStored (← see t database) database
    match Workspace.create t place .empty settings with
    | .error _ => return t
    | .ok w => seeBelow w place t ⟨[]⟩ deepest

/-! ## To the disk -/

/-- Write the files and directories that a command made or changed. -/
def writeBack (earlier now : FileTree) : IO Unit :=
  now.nodes.entries.forM fun (place, node) =>
    match node, earlier.nodes.get? place with
    | .directory _, some (.directory _) => pure ()
    | .directory _, _ => IO.FS.createDirAll place.toString
    | .file f, some (.file g) =>
      if f.content.data = g.content.data then pure () else IO.FS.writeBinFile place.toString f.content
    | .file f, _ => IO.FS.writeBinFile place.toString f.content

/-! ## Running -/

/-- Never return. -/
def hang {α : Type} [Inhabited α] : IO α := do
  repeat IO.sleep 1000
  return default

/-- Follow the files of a workspace, with a look at them every second, until the input ends. -/
def watch (cwd : String) (i : CommandLine.Invocation) (x : CommandLine.Watch) (t : FileTree) :
    IO CommandLine.Watch := do
  let stop ← IO.asTask (← IO.getStdin).getLine
  let mut x := x
  let mut t := t
  while !(← IO.hasFinished stop) do
    IO.sleep 1000
    let now ← survey cwd i
    let (next, after) ← match x.follow t now with
      | some followed => pure followed
      | none => hang
    writeBack now after
    x := next
    t := now
  return x

/-- Print to the end what a command has to say. -/
def conclude (ending : CommandLine.Ending) : IO UInt32 := do
  IO.print ending.stdout
  (← IO.getStdout).flush
  if let some m := ending.message then IO.eprintln ("Error: " ++ m)
  return ending.code.toUInt32

end QmlIndex.Main

open QmlIndex in
/-- Run the program. -/
def main (args : List String) : IO UInt32 := do
  let cwd := (← IO.currentDir).toString
  let go (t : FileTree) : IO CommandLine.Progress :=
    match CommandLine.start t cwd args with
    | some p => pure p
    | none => Main.hang
  match CommandLine.parse args with
  | .error _ => Main.conclude (← go .empty).ending
  | .ok i =>
    let t ← Main.survey cwd i
    let p ← go t
    Main.writeBack t p.files
    let code ← Main.conclude p.ending
    if let some x := p.watch then
      IO.print (← Main.watch cwd i x t).farewell
    return code
