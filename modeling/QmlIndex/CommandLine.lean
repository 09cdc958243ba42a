import QmlIndex.CommandLine.Arguments
import QmlIndex.Json.Writer
import QmlIndex.Workspace

/-! # The command line

Each command prints some text and may then fail. Running the program takes the files as they are and
answers with the files as they are afterwards, the database among them. A command that comes to a document
that is read for ever does not end, and gives `none`.
-/

namespace QmlIndex.CommandLine

/-- What a command printed, and why it failed if it did. -/
structure Printed where
  text : String := ""
  failure : Option String := none
  deriving DecidableEq, Repr, Inhabited

/-- How the program ends. -/
structure Ending where
  code : Nat
  stdout : String
  /-- The first line of the reason for a failure. -/
  message : Option String
  deriving DecidableEq, Repr, Inhabited

namespace Printed

/-- Print lines. -/
def lines (l : List String) : Printed := { text := String.join (l.map (· ++ "\n")) }

def fail (text message : String) : Printed := { text, failure := some message }

/-- Print in front of what is printed. -/
def after (p : Printed) (text : String) : Printed := { p with text := text ++ p.text }

/-- Print what a step that can fail gives. -/
def ofResult {α : Type} (r : Result α) (print : α → Printed) : Printed :=
  match r with
  | .ok a => print a
  | .error e => fail "" e.message

def ending (p : Printed) : Ending :=
  match p.failure with
  | none => { code := 0, stdout := p.text, message := none }
  | some m =>
    { code := 1, stdout := p.text, message := some (String.ofList (m.toList.takeWhile (· != '\n'))) }

end Printed

/-! ## Commands -/

/-- A failure of a scan, as it is listed. -/
def failureLine (f : ScanFailure) : String := "  ⚠️  " ++ f.path.toString ++ ": " ++ f.message

/-- A module, as it is listed. -/
def moduleLine (m : ModuleEntry) : String :=
  let origin := (m.manifest.map Path.toString).getD "builtin"
  s!"- {m.name} {m.version} ({m.components.size} components) [{origin}]"

/-- The lines that list modules. -/
def moduleLines (l : List ModuleEntry) : List String :=
  if l.isEmpty then ["❌ No modules indexed. Run \x60qmlscope index\x60 first."] else l.map moduleLine

/-- Run a command on an open index. `root` is the workspace as it is shown, `cwd` the directory from which
paths are seen. -/
def execute (w : Workspace) (t : FileTree) (cwd : Path) (root : String) : Command → Option (Printed × Workspace)
  | .index => do
    let (result, w) ← w.init t
    let print (scan : WorkspaceScan) : Printed :=
      .lines ([scan.text] ++ scan.sources.failures.map failureLine ++ ["\n" ++ w.store.stats.text])
    return ((Printed.ofResult result print).after ("🚀 Indexing workspace: " ++ root ++ "\n"), w)
  | .watch => do
    let (result, w) ← w.init t
    let print (scan : WorkspaceScan) : Printed :=
      .lines [scan.text, "👀 Watching " ++ root ++ " (Ctrl-C to stop)"]
    return (Printed.ofResult result print, w)
  | .file path =>
    match w.load t with
    | (.error e, w) => some (.fail "" e.message, w)
    | (.ok _, w) =>
      match FileUri.ofPath cwd path with
      | .error e => some (.fail "" e.message, w)
      | .ok u => do
        let (result, w) ← w.entry t u
        let print : Option SourceEntry → Printed
          | some e => .lines [e.toJson.pretty]
          | none => .fail "" ("no such document: " ++ u.toString)
        return (Printed.ofResult result print, w)
  | .resolve module component version =>
    let (result, w) := w.load t
    let print (_ : Nat × Nat) : Printed :=
      match component with
      | some component =>
        match w.registry.lookupComponent? module component version with
        | some c => .lines [c.toJson.pretty]
        | none => .fail "" ("component " ++ component ++ " not found in module " ++ module)
      | none =>
        match w.registry.lookup? module with
        | some m => .lines [m.toJson.pretty]
        | none => .fail "" ("module " ++ module ++ " not found")
    some (Printed.ofResult result print, w)
  | .modules builtins =>
    let (result, w) := w.load t
    let listed := w.registry.withBuiltins.filter fun m => builtins || !m.isBuiltin
    some (Printed.ofResult result fun _ => .lines (moduleLines listed), w)
  | .stats => some (.lines [w.store.stats.text], w)
  | .clear =>
    let (result, w) := w.clear
    some (Printed.ofResult result fun _ => .lines ["✅ Cache cleared"], w)
  | .initConfig _ => some ({}, w)

/-- Write a settings file with the default settings, and have the state directory ignored. -/
def writeSettings (t : FileTree) (cwd : Path) (root config : String) (force : Bool) : Printed × FileTree :=
  match ({} : Config).save t cwd config force with
  | .error e => (.fail "" e.message, t)
  | .ok t =>
    match Config.ensureIgnored t (Path.ofString root) with
    | .error e => (.fail "" e.message, t)
    | .ok t => (.lines ["✅ Wrote " ++ config], t)

/-! ## Running -/

/-- A watch that waits to be interrupted. -/
structure Watch where
  workspace : Workspace
  database : Path
  deriving Inhabited

/-- What the program has done so far. -/
structure Progress where
  ending : Ending
  files : FileTree
  /-- What the program is still about. -/
  watch : Option Watch := none
  deriving Inhabited

/-- Save the store of an index in its database. A database that cannot be written is left as it is. -/
def saved (w : Workspace) (t : FileTree) (database : Path) : FileTree :=
  match w.store.save t database with
  | .ok t => t
  | .error _ => t

namespace Watch

/-- Take notice of what became of the files meanwhile. -/
def follow (x : Watch) (earlier now : FileTree) : Option (Watch × FileTree) := do
  let note (w : Workspace) (change : FileEvent × Path) : Option Workspace :=
    w.notice now change.1 change.2.toString
  let workspace ← (FileEvent.between earlier now).foldlM note x.workspace
  return ({ x with workspace }, saved workspace now x.database)

/-- What is printed when a watch is interrupted. -/
def farewell (x : Watch) : String := "\n" ++ x.workspace.stopWatching.store.stats.text ++ "\n"

end Watch

/-- Run a command on the workspace it is for. A watch that did not fail goes on. -/
def startOn (t : FileTree) (cwd : Path) (root : String) (config : Config) (command : Command) : Option Progress :=
  let config := if command = .watch then config else { config with watch := false }
  match Workspace.openAt t root config with
  | (.error e, t) => some { ending := (Printed.fail "" e.message).ending, files := t }
  | (.ok w, t) => do
    let (printed, w) ← execute w t cwd root command
    let database := Path.ofString (config.databasePath root)
    let goesOn := command = .watch && printed.failure.isNone
    return { ending := printed.ending, files := saved w t database
             watch := if goesOn then some ⟨w, database⟩ else none }

/-- Run the program on files, from a directory, with its arguments, to where it ends or waits. -/
def start (t : FileTree) (cwd : String) (args : List String) : Option Progress :=
  match parse args with
  | .error .usage => some { ending := { code := 2, stdout := "", message := none }, files := t }
  | .error .help => some { ending := { code := 0, stdout := "", message := none }, files := t }
  | .error .version => some { ending := { code := 0, stdout := "qmlscope 0.0.1\n", message := none }, files := t }
  | .ok i =>
    let root := PathText.absolute cwd i.path
    let here := Path.ofString cwd
    let config := i.config.getD (Config.defaultPath root)
    match i.command with
    | .initConfig force =>
      let (printed, t) := writeSettings t here root config force
      some { ending := printed.ending, files := t }
    | command =>
      match Config.load t here config with
      | .error e => some { ending := (Printed.fail "" e.message).ending, files := t }
      | .ok settings => startOn t here root (settings.getD {}) command

/-- Run the program to its end, if it has one. A watch is interrupted at once. -/
def run (t : FileTree) (cwd : String) (args : List String) : Option (Ending × FileTree) :=
  (start t cwd args).map fun p =>
    match p.watch with
    | some x => ({ p.ending with stdout := p.ending.stdout ++ x.farewell }, p.files)
    | none => (p.ending, p.files)

end QmlIndex.CommandLine
