import QmlIndex.Store

/-! # The database file

A database is kept in one file as a JSON text. An empty file is an empty database; a file with anything
else in it is no database.
-/

namespace QmlIndex

namespace IntegerCell

def toJson : IntegerCell → Json
  | integer i => .int i.toInt
  | text s => .str s

def ofJson? : Json → Option IntegerCell
  | .str s => some (text s)
  | j => j.int64?.map integer

end IntegerCell

namespace TextCell

def toJson : TextCell → Json
  | text s => .str s
  | bytes b => .arr (b.map fun byte => .int byte.toNat)

def ofJson? : Json → Option TextCell
  | .str s => some (text s)
  | j => (j.list? fun byte => (byte.natBelow? 256).map UInt8.ofNat).map bytes

end TextCell

namespace SourceRow

def toJson (r : SourceRow) : Json :=
  .arr [Json.ofOption .str r.path, r.contentHash.toJson, r.lastModified.toJson, .str r.imports, .str r.exports,
    .str r.symbols, .str r.dependsOn, .str r.dependedBy]

def ofJson? : Json → Option SourceRow
  | .arr [path, contentHash, lastModified, .str imports, .str exports, .str symbols, .str dependsOn,
      .str dependedBy] => do
    return { path := ← path.nullable? Json.str?, contentHash := ← TextCell.ofJson? contentHash
             lastModified := ← IntegerCell.ofJson? lastModified, imports, exports, symbols, dependsOn, dependedBy }
  | _ => none

end SourceRow

namespace ModuleRow

def toJson (r : ModuleRow) : Json :=
  .arr [Json.ofOption .str r.name, r.version.toJson, Json.ofOption .str r.manifest,
    Json.ofOption IntegerCell.toJson r.lastModified]

def ofJson? : Json → Option ModuleRow
  | .arr [name, version, manifest, lastModified] => do
    return { name := ← name.nullable? Json.str?, version := ← TextCell.ofJson? version
             manifest := ← manifest.nullable? Json.str?, lastModified := ← lastModified.nullable? IntegerCell.ofJson? }
  | _ => none

end ModuleRow

namespace ComponentRow

def toJson (r : ComponentRow) : Json :=
  .arr [.str r.moduleName, r.name.toJson, Json.ofOption .str r.file, r.isBuiltin.toJson, r.isSingleton.toJson,
    Json.ofOption TextCell.toJson r.version]

def ofJson? : Json → Option ComponentRow
  | .arr [.str moduleName, name, file, isBuiltin, isSingleton, version] => do
    return { moduleName, name := ← TextCell.ofJson? name, file := ← file.nullable? Json.str?
             isBuiltin := ← IntegerCell.ofJson? isBuiltin, isSingleton := ← IntegerCell.ofJson? isSingleton
             version := ← version.nullable? TextCell.ofJson? }
  | _ => none

end ComponentRow

namespace Store

def Table.name : Table → String
  | sources => "source_files"
  | modules => "modules"
  | components => "components"

def Table.ofName? (s : String) : Option Table := [sources, modules, components].find? (·.name == s)

def Event.name : Event → String
  | insert => "insert"
  | delete => "delete"

def Event.ofName? (s : String) : Option Event := [insert, delete].find? (·.name == s)

def Refusal.toJson (r : Refusal) : Json := .arr [.str r.table.name, .str r.event.name, .int r.passes]

def Refusal.ofJson? : Json → Option Refusal
  | .arr [.str table, .str event, passes] => do
    return ⟨← Table.ofName? table, ← Event.ofName? event, ← passes.nat?⟩
  | _ => none

def toJson (s : Store) : Json :=
  .obj [("source_files", .arr (s.sources.map SourceRow.toJson)), ("modules", .arr (s.modules.map ModuleRow.toJson)),
    ("components", .arr (s.components.map ComponentRow.toJson)),
    ("refused", .arr (s.refusals.map Refusal.toJson))]

def ofJson? (j : Json) : Option Store := do
  let [sources, modules, components, refusals] ←
    j.record? ["source_files", "modules", "components", "refused"] | none
  return {
    sources := ← Json.required (·.list? SourceRow.ofJson?) sources
    modules := ← Json.required (·.list? ModuleRow.ofJson?) modules
    components := ← Json.required (·.list? ComponentRow.ofJson?) components
    refusals := ← Json.required (·.list? Refusal.ofJson?) refusals }

/-- The content of a database file. -/
def toContent (s : Store) : ByteArray := s.toJson.render.toUTF8

/-- Read the content of a database file. -/
def ofContent? (content : ByteArray) : Option Store :=
  if content.isEmpty then some .empty
  else String.fromUTF8? content >>= Json.parse >>= ofJson?

/-- Write a database file. -/
def save (s : Store) (t : FileTree) (p : Path) : Result FileTree := t.write p ⟨s.toContent, 0⟩

/-- Open the database at a path, which is made if there is nothing. -/
def openAt (t : FileTree) (path : String) : Result (Store × FileTree) :=
  let p := Path.ofString path
  let cannot : Result (Store × FileTree) := .error (.storage (.unopenable path))
  match t.find p with
  | .ok (.file f) =>
    match ofContent? f.content with
    | some s => .ok (s, t)
    | none => .error (.storage .notADatabase)
  | .ok (.directory _) => cannot
  | .error _ =>
    match empty.save t p with
    | .ok t => .ok (empty, t)
    | .error _ => cannot

end Store

end QmlIndex
