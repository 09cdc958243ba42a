import QmlIndex.OrdMap
import QmlIndex.SourceEntry
import QmlIndex.Version

/-! # Modules

A module is a named table of components. Modules that come with the platform have no manifest.
-/

namespace QmlIndex

/-- A type that a module offers. -/
structure Component where
  name : String
  /-- The document that defines it; builtin components have none. -/
  file : Option FileUri
  isBuiltin : Bool
  isSingleton : Bool
  version : Option String
  deriving DecidableEq, Repr, Inhabited

namespace Component

/-- Whether a request for the version can see the component. -/
def isVisibleAt (c : Component) (requested : Option String) : Bool :=
  match c.version, requested with
  | some declared, some requested => Version.satisfies declared requested
  | _, _ => true

def toJson (c : Component) : Json :=
  .obj [("name", .str c.name), ("file_path", Json.ofOption SourceEntry.uriToJson c.file),
    ("is_builtin", .bool c.isBuiltin), ("is_singleton", .bool c.isSingleton),
    ("version", Json.ofOption .str c.version)]

def ofJson? (j : Json) : Option Component := do
  let [name, file, isBuiltin, isSingleton, version] ←
    j.record? ["name", "file_path", "is_builtin", "is_singleton", "version"] | none
  return {
    name := ← Json.required Json.str? name
    file := ← Json.optional SourceEntry.uriOfJson? file
    isBuiltin := ← Json.required Json.bool? isBuiltin
    isSingleton := ← Json.required Json.bool? isSingleton
    version := ← Json.optional Json.str? version }

end Component

/-- A named module with its components. -/
structure ModuleEntry where
  name : String
  version : String
  /-- The manifest it was read from. -/
  manifest : Option FileUri
  /-- The time of the manifest. -/
  lastModified : Option Timestamp
  components : OrdMap String Component
  deriving DecidableEq, Repr, Inhabited

namespace ModuleEntry

def isBuiltin (m : ModuleEntry) : Bool := m.manifest.isNone

/-- A component that a request for the version can see. -/
def component? (m : ModuleEntry) (name : String) (version : Option String) : Option Component :=
  (m.components.get? name).filter (·.isVisibleAt version)

def componentsToJson (m : OrdMap String Component) : Json :=
  .obj (m.entries.map fun (k, c) => (k, c.toJson))

/-- A key may be written more than once; the last one counts. -/
def componentsOfJson? : Json → Option (OrdMap String Component)
  | .obj fields => do
    let entries ← fields.mapM fun (k, j) => do return (k, ← Component.ofJson? j)
    return OrdMap.ofList entries
  | _ => none

def toJson (m : ModuleEntry) : Json :=
  .obj [("name", .str m.name), ("version", .str m.version),
    ("manifest_path", Json.ofOption SourceEntry.uriToJson m.manifest),
    ("last_modified", Json.ofOption (fun t : Timestamp => .int t.toInt) m.lastModified),
    ("components", componentsToJson m.components)]

def ofJson? (j : Json) : Option ModuleEntry := do
  let [name, version, manifest, lastModified, components] ←
    j.record? ["name", "version", "manifest_path", "last_modified", "components"] | none
  return {
    name := ← Json.required Json.str? name
    version := ← Json.required Json.str? version
    manifest := ← Json.optional SourceEntry.uriOfJson? manifest
    lastModified := ← Json.optional Json.int64? lastModified
    components := ← Json.required componentsOfJson? components }

end ModuleEntry

end QmlIndex
