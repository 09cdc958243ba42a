import QmlIndex.Store.Row
import QmlIndex.Proofs.CanonicalPath
import QmlIndex.Proofs.Json.RoundTrip
import QmlIndex.Proofs.Keyed

/-! # Rows decode to what they were written from

A record is written field by field and read by the names of its fields, so each reader undoes its writer as
soon as the readers of the fields do. An entry or a module can be stored if all its paths are canonical; its
row then decodes to it.
-/

namespace QmlIndex

namespace Json

/-- The values of a kind are written in a form that denotes something, and the form is read as the value. -/
structure Reads {α : Type} (write : α → Json) (read : Json → Option α) (a : α) : Prop where
  denoting : (write a).Denoting
  back : read (write a) = some a

theorem Reads.parse {α : Type} {write : α → Json} {read : Json → Option α} {a : α} (h : Reads write read a) :
    (Json.parse (write a).render >>= read) = some a := by
  rw [parse_render h.denoting]
  exact h.back

theorem mapM_map_reads {α β : Type} {write : α → β} {read : β → Option α} {l : List α}
    (all : ∀ a ∈ l, read (write a) = some a) : (l.map write).mapM read = some l := by
  induction l with
  | nil => rfl
  | cons a rest ih =>
      have more := ih fun b member => all b (List.mem_cons_of_mem a member)
      rw [List.map_cons, List.mapM_cons, all a List.mem_cons_self, more]
      rfl

theorem reads_list {α : Type} {write : α → Json} {read : Json → Option α} {l : List α}
    (all : ∀ a ∈ l, Reads write read a) : Reads (fun l => .arr (l.map write)) (list? read) l where
  denoting := by
    apply Denoting.arr
    intro j member
    obtain ⟨a, listed, rfl⟩ := List.mem_map.mp member
    exact (all a listed).denoting
  back := mapM_map_reads fun a member => (all a member).back

theorem denoting_text (o : Option String) : (ofOption str o).Denoting := by
  cases o with
  | none => exact .null
  | some s => exact .str s

@[simp]
theorem optional_str (o : Option String) : optional str? (some (ofOption str o)) = some o := by
  cases o <;> rfl

end Json

open Json

/-! ## Documents -/

theorem natBelow?_of_lt {n bound : Nat} (h : n < bound) : natBelow? bound (.int n) = some n := by
  simp only [natBelow?, int?, Option.bind_eq_bind, Option.bind_some]
  rw [if_pos ⟨by omega, by omega⟩, Int.toNat_natCast]

-- The values of the fields are variables in the lemmas on records: a reader that is applied to a written value
-- would be evaluated.
theorem position_ofJson? {line character : Json} {p : Position}
    (first : natBelow? UInt32.size line = some p.line.toNat)
    (second : natBelow? UInt32.size character = some p.character.toNat) :
    Position.ofJson? (.obj [("line", line), ("character", character)]) = some p := by
  simp [Position.ofJson?, record?, Json.lookup, required, first, second]

theorem reads_position (p : Position) : Reads Position.toJson Position.ofJson? p where
  denoting := .obj (by simp [Denoting.int])
  back := position_ofJson? (natBelow?_of_lt p.line.toNat_lt) (natBelow?_of_lt p.character.toNat_lt)

theorem range_ofJson? {start stop : Json} {r : TextRange} (first : Position.ofJson? start = some r.start)
    (second : Position.ofJson? stop = some r.stop) :
    TextRange.ofJson? (.obj [("start", start), ("end", stop)]) = some r := by
  simp [TextRange.ofJson?, record?, Json.lookup, required, first, second]

theorem reads_range (r : TextRange) : Reads TextRange.toJson TextRange.ofJson? r where
  denoting := .obj (by simp [(reads_position _).denoting])
  back := range_ofJson? (reads_position r.start).back (reads_position r.stop).back

theorem import_ofJson? {range : Json} {i : Import} (place : TextRange.ofJson? range = some i.range) :
    Import.ofJson? (.obj [("kind", i.kind.toJson), ("source", .str i.source), ("version", ofOption .str i.version),
      ("alias", ofOption .str i.qualifier), ("range", range)]) = some i := by
  have kind : ImportKind.ofJson? i.kind.toJson = some i.kind := by cases i.kind <;> rfl
  simp [Import.ofJson?, record?, Json.lookup, required, str?, kind, place]

theorem reads_import (i : Import) : Reads Import.toJson Import.ofJson? i where
  denoting := .obj (by simp [ImportKind.toJson, Denoting.str, denoting_text, (reads_range _).denoting])
  back := import_ofJson? (reads_range i.range).back

theorem reads_exports (e : Exports) : Reads Exports.toJson Exports.ofJson? e where
  denoting := by
    have names : (Json.arr (e.inlineComponents.map .str)).Denoting := .arr (by simp [Denoting.str])
    exact .obj (by simp [Denoting.bool, denoting_text, names])
  back := by
    have names : (e.inlineComponents.map Json.str).mapM str? = some e.inlineComponents :=
      mapM_map_reads fun _ _ => rfl
    simp [Exports.toJson, Exports.ofJson?, record?, Json.lookup, required, list?, bool?, names]

theorem symbol_ofJson? {range : Json} {s : Symbol} (place : TextRange.ofJson? range = some s.range) :
    Symbol.ofJson? (.obj [("name", .str s.name), ("declared_type", .str s.declaredType), ("kind", s.kind.toJson),
      ("range", range)]) = some s := by
  have kind : SymbolKind.ofJson? s.kind.toJson = some s.kind := by cases s.kind <;> rfl
  simp [Symbol.ofJson?, record?, Json.lookup, required, str?, kind, place]

theorem reads_symbol (s : Symbol) : Reads Symbol.toJson Symbol.ofJson? s where
  denoting := .obj (by simp [SymbolKind.toJson, Denoting.str, (reads_range _).denoting])
  back := symbol_ofJson? (reads_range s.range).back

theorem reads_uri {u : FileUri} (canonical : u.Canonical) : Reads SourceEntry.uriToJson SourceEntry.uriOfJson? u where
  denoting := .str _
  back := by
    have parsed : FileUri.parse u.toString = .ok u := canonical
    simp [SourceEntry.uriToJson, SourceEntry.uriOfJson?, str?, parsed]

theorem reads_imports (l : List Import) : Reads SourceEntry.importsToJson SourceEntry.importsOfJson? l :=
  reads_list fun i _ => reads_import i

theorem reads_symbols (l : List Symbol) : Reads SourceEntry.symbolsToJson SourceEntry.symbolsOfJson? l :=
  reads_list fun s _ => reads_symbol s

theorem reads_uris {l : List FileUri} (canonical : ∀ u ∈ l, FileUri.Canonical u) :
    Reads SourceEntry.urisToJson SourceEntry.urisOfJson? l :=
  reads_list fun u member => reads_uri (canonical u member)

theorem pathColumn?_eq_some {s : String} {u : FileUri} : pathColumn? s = some u ↔ FileUri.parse s = .ok u := by
  rw [pathColumn?]
  cases FileUri.parse s <;> simp

theorem pathColumn?_toString {u : FileUri} (canonical : u.Canonical) : pathColumn? u.toString = some u :=
  pathColumn?_eq_some.mpr canonical

/-- Every path in the entry is canonical. -/
structure SourceEntry.Storable (e : SourceEntry) : Prop where
  uri : e.uri.Canonical
  dependsOn : ∀ v ∈ e.dependsOn, FileUri.Canonical v
  dependedBy : ∀ v ∈ e.dependedBy, FileUri.Canonical v

/-- The paths that an entry names. -/
def SourceEntry.uris (e : SourceEntry) : List FileUri := e.uri :: (e.dependsOn ++ e.dependedBy)

theorem SourceEntry.storable_iff {e : SourceEntry} : e.Storable ↔ ∀ u ∈ e.uris, u.Clean := by
  simp only [← FileUri.canonical_iff_clean, uris, List.mem_cons, List.mem_append]
  constructor
  · rintro ⟨uri, dependsOn, dependedBy⟩ u (rfl | forward | backward)
    · exact uri
    · exact dependsOn u forward
    · exact dependedBy u backward
  · intro all
    exact ⟨all _ (.inl rfl), fun u member => all u (.inr (.inl member)), fun u member => all u (.inr (.inr member))⟩

theorem SourceRow.decode_ofEntry {e : SourceEntry} (storable : e.Storable) : (SourceRow.ofEntry e).decode = .ok e := by
  have dependsOn := (reads_uris storable.dependsOn).parse
  have dependedBy := (reads_uris storable.dependedBy).parse
  simp only [SourceRow.decode, SourceRow.ofEntry, decodeColumn, Option.bind_some, IntegerCell.integer?,
    pathColumn?_toString storable.uri, (reads_imports e.imports).parse, (reads_exports e.exports).parse,
    (reads_symbols e.symbols).parse, dependsOn, dependedBy]
  rfl

/-! ## Modules -/

/-- The components are listed under their names, and every path in the module is canonical. -/
structure ModuleEntry.Storable (m : ModuleEntry) : Prop where
  manifest : ∀ u ∈ m.manifest, FileUri.Canonical u
  own : m.components.KeyedBy Component.name
  file : ∀ c ∈ m.components.values, ∀ u ∈ c.file, FileUri.Canonical u

/-- The paths that a module names. -/
def ModuleEntry.uris (m : ModuleEntry) : List FileUri := m.manifest.toList ++ m.components.values.filterMap Component.file

theorem ModuleEntry.storable_iff {m : ModuleEntry} :
    m.Storable ↔ m.components.KeyedBy Component.name ∧ ∀ u ∈ m.uris, u.Clean := by
  simp only [← FileUri.canonical_iff_clean, uris, List.mem_append, Option.mem_toList, List.mem_filterMap]
  constructor
  · rintro ⟨manifest, own, file⟩
    refine ⟨own, ?_⟩
    rintro u (here | ⟨c, member, found⟩)
    · exact manifest u here
    · exact file c member u found
  · rintro ⟨own, all⟩
    exact ⟨fun u here => all u (.inl here), own, fun c member u found => all u (.inr ⟨c, member, found⟩)⟩

theorem ComponentRow.decode_ofComponent {c : Component} (canonical : ∀ u ∈ c.file, FileUri.Canonical u)
    (moduleName : String) : (ComponentRow.ofComponent moduleName c).decode = .ok c := by
  have flag : ∀ b : Bool, ((if b then 1 else 0 : Int64) != 0) = b := by decide
  obtain ⟨name, file, isBuiltin, isSingleton, version⟩ := c
  cases file with
  | none =>
      cases version <;>
        simp [ofComponent, decode, decodeColumn, IntegerCell.integer?, bind, Except.bind, pure, Except.pure, flag, Except.map]
  | some u =>
      cases version <;>
        simp [ofComponent, decode, decodeColumn, IntegerCell.integer?, bind, Except.bind, pure, Except.pure, flag,
          Except.map, pathColumn?_toString (canonical u rfl)]

theorem ModuleRow.decode_ofModule {m : ModuleEntry} (storable : m.Storable) :
    (ModuleRow.ofModule m).decode = .ok { m with components := .empty } := by
  obtain ⟨name, version, manifest, lastModified, components⟩ := m
  cases manifest with
  | none => cases lastModified <;> rfl
  | some u =>
      have path := pathColumn?_toString (storable.manifest u rfl)
      cases lastModified <;>
        simp [decode, ofModule, decodeColumn, IntegerCell.integer?, bind, Except.bind, pure, Except.pure, Except.map, path]

end QmlIndex
