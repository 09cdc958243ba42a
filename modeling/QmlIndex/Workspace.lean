import QmlIndex.Config
import QmlIndex.ModuleIndex
import QmlIndex.Store.File

/-! # The workspace index

Documents and modules of a workspace together, on one store. An index is opened, loads what the store
still knows, scans the files, answers queries, and follows the files' changes while it is watching. What
has to read a document may never return, and then is `none`.
-/

namespace QmlIndex

/-- What a scan of a workspace did. -/
structure WorkspaceScan where
  sources : ScanStats
  modules : ManifestStats
  deriving DecidableEq, Repr, Inhabited

def WorkspaceScan.text (s : WorkspaceScan) : String :=
  "Sources: " ++ s.sources.text ++ "\nManifests: " ++ s.modules.text

/-- An open index. -/
structure Workspace where
  root : Path
  config : Config
  sourceMatcher : Matcher
  manifestMatcher : Matcher
  graph : Graph := .empty
  registry : Registry := .empty
  store : Store
  isWatching : Bool := false
  deriving Inhabited

namespace Workspace

/-- An index on a store, with nothing loaded. What is excluded is read from the files now. -/
def create (t : FileTree) (root : Path) (store : Store) (config : Config) : Result Workspace := do
  let root := root.normalize
  let exclusion := Ignore.Exclusion.load t root config.exclude
  let sourceMatcher ← Matcher.create root config.sourcePattern (some exclusion)
  let manifestMatcher ← Matcher.create root config.manifestPattern (some exclusion)
  return { root, config, sourceMatcher, manifestMatcher, store }

/-- Open the index of a workspace on its database, which is made if need be. The database stays even if
the index cannot be opened. -/
def openAt (t : FileTree) (root : String) (config : Config) : Result Workspace × FileTree :=
  let path := config.databasePath root
  match Config.ensureDatabaseDirectory t path with
  | .error e => (.error e, t)
  | .ok t =>
    match Store.openAt t path with
    | .error e => (.error e, t)
    | .ok (store, t) => (create t (Path.ofString root) store config, t)

/-! ## The two halves -/

def sources (w : Workspace) : SourceIndex := ⟨w.graph, w.store⟩

def modules (w : Workspace) : ModuleIndex := ⟨w.registry, w.store⟩

def naming (w : Workspace) : Naming := ⟨w.root, w.config.moduleRootMarkers⟩

/-- The workspace with another index of documents. -/
def withSources (w : Workspace) (x : SourceIndex) : Workspace := { w with graph := x.graph, store := x.store }

/-- Do something with the index of documents. -/
def onSources {α : Type} (w : Workspace) (f : SourceIndex → α × SourceIndex) : α × Workspace :=
  let (a, x) := f w.sources
  (a, w.withSources x)

/-- Do something with the index of documents that may never return. -/
def readSources {α : Type} (w : Workspace) (f : SourceIndex → Option (α × SourceIndex)) : Option (α × Workspace) :=
  (f w.sources).map fun (a, x) => (a, w.withSources x)

/-- Do something with the index of modules. -/
def onModules {α : Type} (w : Workspace) (f : ModuleIndex → α × ModuleIndex) : α × Workspace :=
  let (a, x) := f w.modules
  (a, { w with registry := x.registry, store := x.store })

/-! ## Life cycle -/

/-- Go on after a step that did not fail. -/
def andThen {α β : Type} (step : Result α × Workspace) (next : α → Workspace → Result β × Workspace) :
    Result β × Workspace :=
  match step with
  | (.ok a, w) => next a w
  | (.error e, w) => (.error e, w)

/-- Replace what is resident by what the store still knows. The answer counts documents and modules. -/
def load (w : Workspace) (t : FileTree) : Result (Nat × Nat) × Workspace :=
  andThen (w.onSources (·.load t)) fun files w =>
    andThen (w.onModules (·.load t)) fun modules w => (.ok (files, modules), w)

def scanSources (w : Workspace) (t : FileTree) : Option (ScanStats × Workspace) :=
  w.readSources (·.scan t w.sourceMatcher w.config.effectiveBatchSize)

def scanModules (w : Workspace) (t : FileTree) : ManifestStats × Workspace :=
  w.onModules (·.scan t w.naming w.manifestMatcher)

/-- Index all files of the workspace. -/
def scan (w : Workspace) (t : FileTree) : Option (WorkspaceScan × Workspace) := do
  let (sources, w) ← w.scanSources t
  let (modules, w) := w.scanModules t
  return (⟨sources, modules⟩, w)

/-- Follow the changes of the files. -/
def startWatching (w : Workspace) (t : FileTree) : Result Unit × Workspace :=
  if w.isWatching || t.contains w.root then (.ok (), { w with isWatching := true })
  else (.error .watch, w)

def stopWatching (w : Workspace) : Workspace := { w with isWatching := false }

/-- Load, start watching if the settings say so, and scan. -/
def init (w : Workspace) (t : FileTree) : Option (Result WorkspaceScan × Workspace) :=
  let (ready, w) := andThen (w.load t) fun _ w => if w.config.watch then w.startWatching t else (.ok (), w)
  match ready with
  | .ok () => (w.scan t).map fun (scan, w) => (.ok scan, w)
  | .error e => some (.error e, w)

/-- Forget everything, here and in the store. -/
def clear (w : Workspace) : Result Unit × Workspace :=
  andThen (w.onSources (·.clear)) fun _ w => w.onModules (·.clear)

/-! ## Queries -/

/-- The entry of a document; if it is not resident, the file is indexed now. -/
def entry (w : Workspace) (t : FileTree) (u : FileUri) : Option (Result (Option SourceEntry) × Workspace) :=
  w.readSources (·.getOrIndex t u)

/-- Index one file; the answer is its entry. -/
def indexFile (w : Workspace) (t : FileTree) (u : FileUri) (persist : Bool) :
    Option (Result SourceEntry × Workspace) :=
  w.readSources fun x => (x.indexFile t u persist).map fun (result, x) => (result.map Prod.fst, x)

/-- Index one manifest; the answer is its module. -/
def indexManifest (w : Workspace) (t : FileTree) (u : FileUri) : Result (Option ModuleEntry) × Workspace :=
  w.onModules fun x =>
    let (result, x) := x.indexManifest t w.naming u
    (result.map ManifestOutcome.module?, x)

/-! ## Events -/

/-- The two indexes that react to events. -/
inductive Target where
  | sources
  | modules
  deriving DecidableEq, Repr, Inhabited

def matcherOf (w : Workspace) : Target → Matcher
  | .sources => w.sourceMatcher
  | .modules => w.manifestMatcher

/-- Let one of the two indexes react to an event. -/
def handle (w : Workspace) (t : FileTree) (target : Target) (event : FileEvent) (path : String) :
    Option (Result Unit × Workspace) :=
  match FileUri.ofPath .rootDir path with
  | .error e => some (.error e, w)
  | .ok u =>
    match target with
    | .sources => w.readSources (·.handle t event u)
    | .modules => some (w.onModules (·.handle t w.naming event u))

/-- Pass an event to one of the two indexes, if the file belongs to it. -/
def dispatch (w : Workspace) (t : FileTree) (target : Target) (event : FileEvent) (path : String) :
    Option (Option (Result Unit) × Workspace) :=
  if (w.matcherOf target).accepts path then
    (w.handle t target event path).map fun (result, w) => (some result, w)
  else some (none, w)

/-- While watching, pass an event to both indexes. Failures are dropped. -/
def notice (w : Workspace) (t : FileTree) (event : FileEvent) (path : String) : Option Workspace :=
  if w.isWatching then do
    let (_, w) ← w.dispatch t .sources event path
    let (_, w) ← w.dispatch t .modules event path
    return w
  else some w

end Workspace

end QmlIndex
