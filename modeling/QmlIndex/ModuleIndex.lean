import QmlIndex.Builtins
import QmlIndex.Matcher
import QmlIndex.Module.OfManifest
import QmlIndex.SourceIndex
import QmlIndex.Store

/-! # The index of modules

The modules that the manifests of a workspace make, under their names; the store holds the same. A manifest
whose module is resident is not read again. If two manifests name one module, the one that was indexed
last has it.
-/

namespace QmlIndex

/-- What a scan of the manifests did. -/
structure ManifestStats where
  manifests : Nat := 0
  registered : Nat := 0
  skipped : Nat := 0
  empty : Nat := 0
  failures : List ScanFailure := []
  deriving DecidableEq, Repr, Inhabited

def ManifestStats.text (s : ManifestStats) : String :=
  s!"{s.manifests} manifests: {s.registered} registered, {s.skipped} already indexed, {s.empty} empty, {s.failures.length} failed"

/-- What became of a manifest. -/
inductive ManifestOutcome where
  | registered (m : ModuleEntry)
  | resident (m : ModuleEntry)
  /-- It makes no module. -/
  | empty
  deriving DecidableEq, Repr, Inhabited

def ManifestOutcome.module? : ManifestOutcome → Option ModuleEntry
  | registered m => some m
  | resident m => some m
  | empty => none

/-- How manifests without a name are named. -/
structure Naming where
  root : Path
  markers : List String
  deriving DecidableEq, Repr, Inhabited

/-- The resident modules and their store. -/
structure ModuleIndex where
  registry : Registry
  store : Store
  deriving DecidableEq, Repr, Inhabited

namespace ModuleIndex

/-- Make a module resident and write it. -/
def commit (x : ModuleIndex) (m : ModuleEntry) : ModuleIndex where
  registry := x.registry.insert m
  store := (x.store.saveModule m).2

/-- The module that a manifest makes as it is now. -/
def examine (t : FileTree) (naming : Naming) (manifest : FileUri) : Result (Option ModuleEntry) := do
  let text ← t.text manifest
  let f ← t.file manifest
  return ModuleEntry.ofManifest manifest (some f.time) (Manifest.parse text.toList) naming.root naming.markers

/-- Index one manifest. -/
def indexManifest (x : ModuleIndex) (t : FileTree) (naming : Naming) (manifest : FileUri) :
    Result ManifestOutcome × ModuleIndex :=
  match x.registry.findByManifest? manifest with
  | some m => (.ok (.resident m), x)
  | none =>
    match examine t naming manifest with
    | .ok (some m) => (.ok (.registered m), x.commit m)
    | .ok none => (.ok .empty, x)
    | .error e => (.error e, x)

/-- Index one manifest of a scan. -/
def scanStep (t : FileTree) (naming : Naming) (state : ManifestStats × ModuleIndex) (path : Path) :
    ManifestStats × ModuleIndex :=
  let (stats, x) := state
  let (result, x) := x.indexManifest t naming path.normalize
  let stats := match result with
    | .ok (.registered _) => { stats with registered := stats.registered + 1 }
    | .ok (.resident _) => { stats with skipped := stats.skipped + 1 }
    | .ok .empty => { stats with empty := stats.empty + 1 }
    | .error e => { stats with failures := stats.failures ++ [⟨path, e.message⟩] }
  (stats, x)

/-- Index manifests one after the other. -/
def scanAll (x : ModuleIndex) (t : FileTree) (naming : Naming) (manifests : List Path) :
    ManifestStats × ModuleIndex :=
  manifests.foldl (scanStep t naming) ({ manifests := manifests.length }, x)

/-- Index all manifests that belong to the index. -/
def scan (x : ModuleIndex) (t : FileTree) (naming : Naming) (m : Matcher) : ManifestStats × ModuleIndex :=
  x.scanAll t naming (m.walk t)

/-! ## Removal and events -/

/-- Remove a module, here and in the store, and say whether it was resident. -/
def removeModule (x : ModuleIndex) (name : String) : Bool × ModuleIndex :=
  (x.registry.contains name,
    { registry := x.registry.remove name, store := (x.store.removeModule name).2 })

/-- The name of the module of a manifest. -/
def nameOfManifest? (x : ModuleIndex) (manifest : FileUri) : Option String :=
  (x.registry.findByManifest? manifest).map ModuleEntry.name

/-- Remove the module of a manifest. The answer is its name. -/
def removeManifest (x : ModuleIndex) (manifest : FileUri) : Option String × ModuleIndex :=
  match x.nameOfManifest? manifest with
  | some name => (some name, (x.removeModule name).2)
  | none => (none, x)

/-- React to an event. A manifest that was created may have taken the place of another. -/
def handle (x : ModuleIndex) (t : FileTree) (naming : Naming) (event : FileEvent) (manifest : FileUri) :
    Result Unit × ModuleIndex :=
  let (_, x) := x.removeManifest manifest
  match event with
  | .deleted => (.ok (), x)
  | .created | .changed =>
    let (result, x) := x.indexManifest t naming manifest
    (result.map fun _ => (), x)

/-- Replace the resident modules by those of the store that are still true. -/
def load (x : ModuleIndex) (t : FileTree) : Result Nat × ModuleIndex :=
  match x.store.loadModules t with
  | (.ok modules, store) =>
    let registry := modules.foldl Registry.insert .empty
    (.ok registry.size, { registry, store })
  | (.error e, store) => (.error e, { x with store })

/-- Forget all modules, here and in the store. -/
def clear (x : ModuleIndex) : Result Unit × ModuleIndex :=
  match x.store.clearModules with
  | (.ok (), store) => (.ok (), { registry := .empty, store })
  | (.error e, store) => (.error e, { x with store })

end ModuleIndex

namespace Registry

/-- The module that a name means, among the modules of the workspace or else among the builtin ones. -/
def lookup? (r : Registry) (name : String) : Option ModuleEntry :=
  (r.resolve? name).orElse fun _ => Builtins.registry.resolve? name

/-- The component that a request for a version can see in the module that a name means. -/
def lookupComponent? (r : Registry) (name component : String) (version : Option String) : Option Component :=
  (r.lookup? name).bind (·.component? component version)

/-- All modules in order of their names; a builtin module gives way to a module of its name. -/
def withBuiltins (r : Registry) : List ModuleEntry := (Builtins.registry.modules.insertAll r.modules.entries).values

end Registry

end QmlIndex
