import QmlIndex.Proofs.Store.Rows

/-! # Entries and modules as texts

An entry or a module whose paths are absolute and normalised is read back from its compact text as it was. Texts that
someone else has written need not be compact, nor in order: but whatever a text is read as can be written and read again,
for a path is normalised when it is read and the last of several components under one key is the one that counts.
-/

namespace QmlIndex

namespace Json

/-- The value that a text is read as. -/
def decode {α : Type} (read : Json → Option α) (text : String) : Option α := parse text >>= read

/-- The compact text of the value that a text is read as. -/
def recode {α : Type} (write : α → Json) (read : Json → Option α) (text : String) : Option String :=
  (decode read text).map fun a => (write a).render

/-- The values of a kind that are proper can be written as texts, and all that can be read are proper. -/
structure Serializes {α : Type} (write : α → Json) (read : Json → Option α) (Proper : α → Prop) : Prop where
  back : ∀ a, Proper a → decode read (write a).render = some a
  proper : ∀ text a, decode read text = some a → Proper a
  /-- A text that is read is written as a text that is read as the same. -/
  again : ∀ text a, decode read text = some a → decode read (write a).render = some a
  /-- The text that is written instead of a text stays as it is. -/
  settled : ∀ text written, recode write read text = some written → recode write read written = some written

/-- Whatever is read has a property. -/
def Gives {α : Type} (read : Json → Option α) (P : α → Prop) : Prop := ∀ j a, read j = some a → P a

theorem serializes {α : Type} {write : α → Json} {read : Json → Option α} {Proper : α → Prop}
    (reads : ∀ a, Proper a → Reads write read a) (proper : Gives read Proper) :
    Serializes write read Proper := by
  have back : ∀ a, Proper a → decode read (write a).render = some a := fun a good => (reads a good).parse
  have decoded : ∀ text a, decode read text = some a → Proper a := by
    intro text a found
    obtain ⟨j, _, found⟩ := Option.bind_eq_some_iff.mp found
    exact proper j a found
  refine ⟨back, decoded, fun text a found => back a (decoded text a found), ?_⟩
  intro text written recoded
  obtain ⟨a, found, rfl⟩ := Option.map_eq_some_iff.mp recoded
  rw [recode, back a (decoded text a found)]
  rfl

end Json

open Json

/-! ## Written values are read back -/

/-- A value that may be absent is read back, if it is not written as absent. -/
theorem reads_option {α : Type} {write : α → Json} {read : Json → Option α} {o : Option α}
    (all : ∀ a ∈ o, Reads write read a) (visible : ∀ a, write a ≠ .null) :
    Reads (ofOption write) (nullable? read) o where
  denoting := by
    cases o with
    | none => exact .null
    | some a => exact (all a rfl).denoting
  back := by
    cases o with
    | none => rfl
    | some a =>
        have back := (all a rfl).back
        have visible := visible a
        simp only [ofOption]
        cases written : write a <;> simp_all [nullable?]

theorem reads_optionalUri {o : Option FileUri} (clean : ∀ u ∈ o, u.Clean) :
    Reads (ofOption SourceEntry.uriToJson) (nullable? SourceEntry.uriOfJson?) o :=
  reads_option (fun u member => reads_uri (FileUri.canonical_iff_clean.mpr (clean u member))) nofun

theorem reads_time (t : Timestamp) : Reads (fun t : Timestamp => .int t.toInt) int64? t where
  denoting := .int _
  back := Word.ofInt?_toInt t

theorem entry_ofJson? {uri time imports exports symbols dependsOn dependedBy : Json} {e : SourceEntry}
    (h₁ : SourceEntry.uriOfJson? uri = some e.uri) (h₂ : int64? time = some e.lastModified)
    (h₃ : SourceEntry.importsOfJson? imports = some e.imports) (h₄ : Exports.ofJson? exports = some e.exports)
    (h₅ : SourceEntry.symbolsOfJson? symbols = some e.symbols)
    (h₆ : SourceEntry.urisOfJson? dependsOn = some e.dependsOn)
    (h₇ : SourceEntry.urisOfJson? dependedBy = some e.dependedBy) :
    SourceEntry.ofJson? (.obj [("uri", uri), ("content_hash", .str e.contentHash), ("last_modified", time),
      ("imports", imports), ("exports", exports), ("symbols", symbols), ("depends_on", dependsOn),
      ("depended_by", dependedBy)]) = some e := by
  simp [SourceEntry.ofJson?, record?, Json.lookup, required, str?, h₁, h₂, h₃, h₄, h₅, h₆, h₇]

theorem reads_entry {e : SourceEntry} (clean : ∀ u ∈ e.uris, u.Clean) : Reads SourceEntry.toJson SourceEntry.ofJson? e := by
  have storable := SourceEntry.storable_iff.mpr clean
  have dependsOn := reads_uris storable.dependsOn
  have dependedBy := reads_uris storable.dependedBy
  constructor
  · refine .obj ?_
    simp [(reads_uri storable.uri).denoting, Denoting.str, Denoting.int, (reads_imports _).denoting,
      (reads_exports _).denoting, (reads_symbols _).denoting, dependsOn.denoting, dependedBy.denoting]
  · exact entry_ofJson? (reads_uri storable.uri).back (reads_time _).back (reads_imports _).back (reads_exports _).back
      (reads_symbols _).back dependsOn.back dependedBy.back

theorem component_ofJson? {file : Json} {c : Component} (path : nullable? SourceEntry.uriOfJson? file = some c.file) :
    Component.ofJson? (.obj [("name", .str c.name), ("file_path", file), ("is_builtin", .bool c.isBuiltin),
      ("is_singleton", .bool c.isSingleton), ("version", ofOption .str c.version)]) = some c := by
  have file : optional SourceEntry.uriOfJson? (some file) = some c.file := path
  simp [Component.ofJson?, record?, Json.lookup, required, str?, bool?, file]

theorem reads_component {c : Component} (clean : ∀ u ∈ c.file, u.Clean) :
    Reads Component.toJson Component.ofJson? c where
  denoting := .obj (by simp [Denoting.str, Denoting.bool, denoting_text, (reads_optionalUri clean).denoting])
  back := component_ofJson? (reads_optionalUri clean).back

/-- Components are read back whatever they are listed under. -/
theorem reads_components {m : OrdMap String Component} (clean : ∀ c ∈ m.values, ∀ u ∈ c.file, u.Clean) :
    Reads ModuleEntry.componentsToJson ModuleEntry.componentsOfJson? m := by
  have entries : ∀ e ∈ m.entries, Reads Component.toJson Component.ofJson? e.2 :=
    fun e member => reads_component (clean e.2 (List.mem_map_of_mem member))
  constructor
  · refine .obj fun field member => ?_
    obtain ⟨e, listed, rfl⟩ := List.mem_map.mp member
    exact (entries e listed).denoting
  · refine Option.bind_eq_some_iff.mpr ⟨m.entries, mapM_map_reads fun e member => ?_, congrArg some m.ofList_entries⟩
    obtain ⟨k, c⟩ := e
    exact Option.bind_eq_some_iff.mpr ⟨c, (entries (k, c) member).back, rfl⟩

theorem module_ofJson? {manifest time components : Json} {m : ModuleEntry}
    (path : nullable? SourceEntry.uriOfJson? manifest = some m.manifest)
    (modified : nullable? int64? time = some m.lastModified)
    (table : ModuleEntry.componentsOfJson? components = some m.components) :
    ModuleEntry.ofJson? (.obj [("name", .str m.name), ("version", .str m.version), ("manifest_path", manifest),
      ("last_modified", time), ("components", components)]) = some m := by
  have manifest : optional SourceEntry.uriOfJson? (some manifest) = some m.manifest := path
  have time : optional int64? (some time) = some m.lastModified := modified
  simp [ModuleEntry.ofJson?, record?, Json.lookup, required, str?, manifest, time, table]

theorem reads_module {m : ModuleEntry} (clean : ∀ u ∈ m.uris, u.Clean) : Reads ModuleEntry.toJson ModuleEntry.ofJson? m := by
  have manifest := reads_optionalUri (o := m.manifest) fun u here =>
    clean u (List.mem_append_left _ (Option.mem_toList.mpr here))
  have time := reads_option (o := m.lastModified) (fun t _ => reads_time t) nofun
  have components := reads_components fun c member u here =>
    clean u (List.mem_append_right _ (List.mem_filterMap.mpr ⟨c, member, here⟩))
  constructor
  · exact .obj (by simp [Denoting.str, manifest.denoting, time.denoting, components.denoting])
  · exact module_ofJson? manifest.back time.back components.back

/-! ## What is read is proper -/

theorem mem_of_mapM {α β : Type} {read : β → Option α} {items : List β} {l : List α} (h : items.mapM read = some l) {a : α}
    (member : a ∈ l) : ∃ item, read item = some a := by
  induction items generalizing l with
  | nil =>
      obtain rfl : [] = l := by simpa using h
      simp at member
  | cons item rest ih =>
      simp only [List.mapM_cons, Option.bind_eq_bind, Option.bind_eq_some_iff] at h
      obtain ⟨b, first, more, later, same⟩ := h
      obtain rfl : b :: more = l := Option.some.inj same
      rcases List.mem_cons.mp member with rfl | after
      · exact ⟨item, first⟩
      · exact ih later after

namespace Json.Gives

variable {α : Type} {read : Json → Option α} {P : α → Prop}

theorem list (gives : Gives read P) : Gives (list? read) fun l => ∀ a ∈ l, P a := by
  intro j l found a member
  cases j with
  | arr items =>
      obtain ⟨item, here⟩ := mem_of_mapM found member
      exact gives item a here
  | _ => simp [list?] at found

theorem required (gives : Gives read P) {field : Option Json} {a : α} (found : Json.required read field = some a) : P a := by
  cases field with
  | none => simp [Json.required] at found
  | some j => exact gives j a found

theorem optional (gives : Gives read P) {field : Option Json} {o : Option α} (found : Json.optional read field = some o) :
    ∀ a ∈ o, P a := by
  rintro a rfl
  cases field with
  | none => simp [Json.optional] at found
  | some j =>
      have found : nullable? read j = some (some a) := found
      unfold nullable? at found
      split at found
      · simp at found
      · exact gives _ a (by simpa using found)

end Json.Gives

theorem gives_uri : Gives SourceEntry.uriOfJson? Path.Clean := by
  intro j u h
  obtain ⟨text, _, parsed⟩ := Option.bind_eq_some_iff.mp h
  split at parsed
  · rename_i v found
    obtain rfl := Option.some.inj parsed
    exact FileUri.parse_clean found
  · simp at parsed

theorem gives_entry : Gives SourceEntry.ofJson? fun e => ∀ u ∈ e.uris, u.Clean := by
  intro j e h
  obtain ⟨fields, _, h⟩ := Option.bind_eq_some_iff.mp h
  split at h
  · simp only [Option.bind_eq_bind, Option.bind_eq_some_iff] at h
    obtain ⟨uri, first, _, _, _, _, _, _, _, _, _, _, dependsOn, forward, dependedBy, backward, same⟩ := h
    obtain rfl := Option.some.inj same
    intro u member
    rcases List.mem_cons.mp member with rfl | edge
    · exact gives_uri.required first
    · rcases List.mem_append.mp edge with ahead | behind
      · exact gives_uri.list.required forward u ahead
      · exact gives_uri.list.required backward u behind
  · simp at h

theorem gives_component : Gives Component.ofJson? fun c => ∀ u ∈ c.file, u.Clean := by
  intro j c h
  obtain ⟨fields, _, h⟩ := Option.bind_eq_some_iff.mp h
  split at h
  · simp only [Option.bind_eq_bind, Option.bind_eq_some_iff] at h
    obtain ⟨_, _, file, found, _, _, _, _, _, _, same⟩ := h
    obtain rfl := Option.some.inj same
    exact gives_uri.optional found
  · simp at h

theorem gives_components : Gives ModuleEntry.componentsOfJson? fun m => ∀ c ∈ m.values, ∀ u ∈ c.file, u.Clean := by
  intro j m h c member
  cases j with
  | obj fields =>
      obtain ⟨entries, read, same⟩ := Option.bind_eq_some_iff.mp h
      obtain rfl := Option.some.inj same
      -- Of a key that is written again only the last component is left, and that one was read from a field too.
      rcases OrdMap.mem_values_insertAll member with ⟨k, listed⟩ | none
      · obtain ⟨field, found⟩ := mem_of_mapM read listed
        obtain ⟨d, here, pair⟩ := Option.bind_eq_some_iff.mp found
        obtain ⟨_, rfl⟩ := Prod.mk.inj (Option.some.inj pair)
        exact gives_component _ _ here
      · simp at none
  | _ => simp [ModuleEntry.componentsOfJson?] at h

theorem gives_module : Gives ModuleEntry.ofJson? fun m => ∀ u ∈ m.uris, u.Clean := by
  intro j m h
  obtain ⟨fields, _, h⟩ := Option.bind_eq_some_iff.mp h
  split at h
  · simp only [Option.bind_eq_bind, Option.bind_eq_some_iff] at h
    obtain ⟨_, _, _, _, manifest, path, _, _, components, table, same⟩ := h
    obtain rfl := Option.some.inj same
    intro u member
    rcases List.mem_append.mp member with here | inside
    · exact gives_uri.optional path u (Option.mem_toList.mp here)
    · obtain ⟨c, listed, file⟩ := List.mem_filterMap.mp inside
      exact gives_components.required table c listed u file
  · simp at h

/-- Entries and modules with absolute and normalised paths are the values that texts are read as, and each is read back
    from its compact text. -/
theorem entries_and_modules_serialize :
    Serializes SourceEntry.toJson SourceEntry.ofJson? (fun e => ∀ u ∈ e.uris, u.Clean) ∧
      Serializes ModuleEntry.toJson ModuleEntry.ofJson? fun m => ∀ u ∈ m.uris, u.Clean :=
  ⟨serializes (fun _ clean => reads_entry clean) gives_entry, serializes (fun _ clean => reads_module clean) gives_module⟩

/-! ## An untidy text -/

namespace Untidy

/-- The fields are out of order, two are left out and one is unknown. A component is written twice, as lists of fields,
    and its path begins with a scheme and is not normalised. -/
def text : String :=
  "\x7b\"components\":\x7b\"B\":[\"X\",null,true,true,null]," ++
    "\"B\":[\"\\ud83d\\ude00\",\"file:///q/../B\",false,true,null]\x7d," ++
    "\"other\":[-0.5],\"version\":\"1\",\n\"name\":\"L\"\x7d"

def lib : ModuleEntry where
  name := "L"
  version := "1"
  manifest := none
  lastModified := none
  components := .ofList [("B", ⟨"😀", some (Path.rootDir.child "B"), false, true, none⟩)]

end Untidy

theorem entries_and_modules_serialize_untidy :
    decode ModuleEntry.ofJson? Untidy.text = some Untidy.lib ∧
      decode ModuleEntry.ofJson? Untidy.lib.toJson.render = some Untidy.lib := by
  have read : decode ModuleEntry.ofJson? Untidy.text = some Untidy.lib := by decide +kernel
  exact ⟨read, entries_and_modules_serialize.2.again Untidy.text Untidy.lib read⟩

end QmlIndex
