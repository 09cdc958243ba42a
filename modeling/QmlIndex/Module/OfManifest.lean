import QmlIndex.Manifest
import QmlIndex.Module

/-! # From manifests to modules

A manifest makes a module of the components it declares. Of several declarations of one type the highest
version counts, and among equals the first. A manifest without a `module` line names its module by where
it lies.
-/

namespace QmlIndex.ModuleEntry

/-- The version of a module none of whose components has one. -/
def defaultVersion : String := "1.0"

/-- The names among a list of parts. -/
def partNames (parts : List Part) : List String :=
  parts.filterMap fun
    | .name text => some text
    | _ => none

/-- The name of the module whose manifest lies in `dir`: the directories below the first marker
directory, or the directory's own name if there is no marker or nothing below it. -/
def inferName (root dir : Path) (markers : List String) : String :=
  let segments := partNames ((Path.below? root dir).getD [])
  match (segments.dropWhile fun s => !markers.contains s).tail with
  | [] => dir.fileName?.getD ""
  | rest => ".".intercalate rest

/-- A declaration enters the table unless the type is there at the same or a higher version. -/
def declare (manifest : FileUri) (table : OrdMap String Component) (name : String)
    (version : Option String) (path : String) (isSingleton : Bool) : OrdMap String Component :=
  let isNewer : Bool := match table.get? name with
    | some existing => Version.compareOptional version existing.version == .gt
    | none => true
  if isNewer then
    table.insert name
      { name, version, isSingleton, isBuiltin := false, file := some (FileUri.resolve manifest path) }
  else table

/-- The components that a manifest declares. -/
def declaredComponents (manifest : FileUri) (m : Manifest) : OrdMap String Component :=
  m.foldl (fun table d =>
    match d with
    | .component name version path => declare manifest table name version path false
    | .singleton name version path => declare manifest table name version path true
    | _ => table) .empty

/-- The highest of a list of versions, the last one among equals. -/
def highest? : List String → Option String
  | [] => none
  | v :: rest =>
    some (rest.foldl (fun best w =>
      if Version.compareOptional (some w) (some best) == .lt then best else w) v)

/-- The module that a manifest makes. -/
def ofManifest (manifest : FileUri) (lastModified : Option Timestamp) (m : Manifest) (root : Path)
    (markers : List String) : Option ModuleEntry :=
  let components := declaredComponents manifest m
  if components.isEmpty then none
  else do
    let name ← match m.moduleName? with
      | some name => some name
      | none => manifest.parent?.map fun dir => inferName root dir markers
    if name.isEmpty then none
    else
      let versions := components.values.filterMap Component.version
      some { name, lastModified, components
             version := (highest? versions).getD defaultVersion
             manifest := some manifest }

end QmlIndex.ModuleEntry
