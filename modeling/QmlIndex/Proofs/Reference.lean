import QmlIndex.Proofs.FileUri
import QmlIndex.Proofs.Index.ModuleProvenance
import QmlIndex.Proofs.Manifest.Module
import QmlIndex.Proofs.NormalPath

/-! # Where references lead

A reference leads from one document to another if it is absolute, or if there is a directory that it can start from.
Only the root has none. A relative reference in it is left as it stands, and that is no document: neither its text nor a
row with it in it can be read back. Everything else that references make, edges and files of components, is read back
from its row.
-/

namespace QmlIndex

open Text

namespace FileUri

/-! ## Documents -/

/-- The document lies in a directory, or the reference needs none. -/
def Leads (u : FileUri) (reference : String) : Prop := u ≠ .rootDir ∨ reference.toList.head? = some '/'

variable {u : FileUri} {reference : String}

theorem climbing_of_not_leads (astray : ¬u.Leads reference) : (resolve u reference).Climbing := by
  rw [Leads, not_or, not_not] at astray
  obtain ⟨rfl, relative⟩ := astray
  refine Path.climbing_normalize_ofString ?_
  rw [Bool.eq_false_iff]
  exact fun absolute => relative ((Path.isAbsolute_ofChars _).mp absolute)

theorem clean_of_leads (clean : u.Clean) (leads : u.Leads reference) : (resolve u reference).Clean := by
  by_cases below : u = .rootDir
  · subst below
    have absolute := leads.resolve_left (not_not.mpr rfl)
    exact Path.clean_normalize_ofString ((Path.isAbsolute_ofChars _).mpr absolute)
  · exact canonical_iff_clean.mp ((canonical_iff_clean.mpr clean).resolve below reference)

theorem not_clean_of_climbing {p : Path} (climbing : p.Climbing) : ¬p.Clean := by
  rintro ⟨names, _, shape⟩
  have root : Part.root ∈ p.parts := by rw [shape]; exact List.mem_cons_self
  exact absurd (climbing.stands .root root).back (by decide)

theorem resolve_clean_iff (clean : u.Clean) : (resolve u reference).Clean ↔ u.Leads reference := by
  refine ⟨fun found => ?_, clean_of_leads clean⟩
  by_contra astray
  exact not_clean_of_climbing (climbing_of_not_leads astray) found

/-! ## What is no document -/

/-- Between the separators of a path that climbs there is always something. -/
theorem filled_of_climbing {p : Path} (climbing : p.Climbing) {c : Char} {rest : List Char}
    (shape : p.toString.toList = c :: rest) : [] ∉ fields '/' p.toString.toList := by
  have stand := climbing.stands
  have unrooted : Part.root ∉ p.parts := fun member => absurd (stand .root member).back (by decide)
  rw [Path.toString_of_unrooted unrooted] at shape ⊢
  cases parts : p.parts with
  | nil =>
      rw [parts] at shape
      cases shape
  | cons part more =>
      rw [parts] at stand
      rw [Path.fields_text stand]
      intro member
      obtain ⟨other, listed, empty⟩ := List.mem_map.mp member
      have back := (stand other listed).back
      rw [empty] at back
      cases back

theorem parse_climbing {p : Path} (climbing : p.Climbing) : ∃ e, parse p.toString = .error e := by
  have separated : ∀ before after, p.toString.toList = before ++ '/' :: '/' :: after → False := by
    intro before after shape
    obtain ⟨c, rest, filled⟩ := List.exists_cons_of_ne_nil (show p.toString.toList ≠ [] by rw [shape]; simp)
    apply filled_of_climbing climbing filled
    rw [shape, fields_append_sep, ← List.nil_append ('/' :: after), fields_append List.not_mem_nil]
    exact List.mem_append_right _ List.mem_cons_self
  refine parse_fails_iff.mpr (.inr fun absolute => ?_)
  by_cases schemed : scheme <+: p.toString.toList
  · -- A scheme ends in two separators.
    obtain ⟨after, shape⟩ := schemed
    exact separated "file:".toList after shape.symm
  · rw [bare_of_other schemed] at absolute
    obtain ⟨rest, shape⟩ := List.head?_eq_some_iff.mp absolute
    apply filled_of_climbing climbing shape
    rw [shape, ← List.nil_append ('/' :: rest), fields_append List.not_mem_nil]
    exact List.mem_cons_self

end FileUri

/-! ## Rows -/

open Json

theorem clean_of_reads_uri {u : FileUri} (back : SourceEntry.uriOfJson? (SourceEntry.uriToJson u) = some u) : u.Clean := by
  simp only [SourceEntry.uriOfJson?, SourceEntry.uriToJson, str?, Option.bind_eq_bind, Option.bind_some] at back
  split at back
  · rename_i v found
    rw [← Option.some.inj back]
    exact FileUri.parse_clean found
  · cases back

theorem reads_of_mapM {α β : Type} {write : α → β} {read : β → Option α} {l : List α}
    (back : (l.map write).mapM read = some l) : ∀ a ∈ l, read (write a) = some a := by
  induction l with
  | nil => exact nofun
  | cons a rest ih =>
      simp only [List.map_cons, List.mapM_cons, Option.bind_eq_bind, Option.bind_eq_some_iff] at back
      obtain ⟨b, first, more, later, same⟩ := back
      obtain ⟨rfl, rfl⟩ := List.cons.inj (Option.some.inj same)
      intro c member
      rcases List.mem_cons.mp member with rfl | after
      · exact first
      · exact ih later c after

/-- A list of paths is read back from its text exactly if all of them are documents. -/
theorem decode_uris_iff {l : List FileUri} :
    (Json.parse (SourceEntry.urisToJson l).render >>= SourceEntry.urisOfJson?) = some l ↔ ∀ u ∈ l, u.Clean := by
  constructor
  · intro back u member
    have denoting : (SourceEntry.urisToJson l).Denoting := by
      refine .arr fun j listed => ?_
      obtain ⟨v, _, rfl⟩ := List.mem_map.mp listed
      exact .str _
    rw [parse_render denoting] at back
    exact clean_of_reads_uri (reads_of_mapM back u member)
  · exact fun clean => (reads_uris fun u member => FileUri.canonical_iff_clean.mpr (clean u member)).parse

theorem SourceRow.dependsOn_of_decode {r : SourceRow} {e : SourceEntry} (decodes : r.decode = .ok e) :
    (Json.parse r.dependsOn >>= SourceEntry.urisOfJson?) = some e.dependsOn := by
  rw [SourceRow.decode] at decodes
  cases column : Json.parse r.dependsOn >>= SourceEntry.urisOfJson? with
  | none =>
      rw [column] at decodes
      simp only [decodeColumn, bind, Except.bind] at decodes
      repeat' split at decodes
      all_goals cases decodes
  | some l =>
      rw [column] at decodes
      simp only [decodeColumn, bind, Except.bind] at decodes
      repeat' split at decodes
      all_goals cases decodes
      all_goals rfl

theorem clean_of_decode_ofEntry {e : SourceEntry} (decodes : (SourceRow.ofEntry e).decode = .ok e) :
    ∀ u ∈ e.dependsOn, u.Clean := by
  have column := SourceRow.dependsOn_of_decode decodes
  rw [SourceRow.ofEntry] at column
  exact decode_uris_iff.mp column

theorem mem_fileDependencies {u v : FileUri} {imports : List Import} :
    v ∈ SourceEntry.fileDependencies u imports ↔
      (∃ i ∈ imports, i.kind = .file ∧ FileUri.resolve u i.source = v) ∧ v ≠ u := by
  simp only [SourceEntry.fileDependencies, mem_sortPaths, List.mem_filter, List.mem_map, beq_iff_eq, bne_iff_ne,
    and_assoc]

/-- All edges of a document lead to documents exactly if its references to files do. -/
theorem clean_fileDependencies {u : FileUri} (clean : u.Clean) {imports : List Import} :
    (∀ v ∈ SourceEntry.fileDependencies u imports, v.Clean) ↔ ∀ i ∈ imports, i.kind = .file → u.Leads i.source := by
  constructor
  · intro all i member file
    by_cases own : FileUri.resolve u i.source = u
    · exact (FileUri.resolve_clean_iff clean).mp (own.symm ▸ clean)
    · exact (FileUri.resolve_clean_iff clean).mp (all _ (mem_fileDependencies.mpr ⟨⟨i, member, file, rfl⟩, own⟩))
  · intro all v member
    obtain ⟨⟨i, listed, file, rfl⟩, _⟩ := mem_fileDependencies.mp member
    exact FileUri.clean_of_leads clean (all i listed file)

theorem decode_ofDocument {u : FileUri} (clean : u.Clean) (hash : String) (time : Timestamp) (d : Document) :
    (SourceRow.ofEntry (.ofDocument u hash time d)).decode = .ok (.ofDocument u hash time d) ↔
      ∀ i ∈ d.summary.imports, i.kind = .file → u.Leads i.source := by
  rw [← clean_fileDependencies clean]
  constructor
  · exact clean_of_decode_ofEntry
  · intro all
    refine SourceRow.decode_ofEntry (SourceEntry.storable_iff.mpr fun v member => ?_)
    rcases List.mem_cons.mp member with rfl | edge
    · exact clean
    · rw [show (SourceEntry.ofDocument u hash time d).dependedBy = [] from rfl, List.append_nil] at edge
      exact all v edge

theorem decode_ofComponent {c : Component} {u : FileUri} (file : c.file = some u) (moduleName : String) :
    (ComponentRow.ofComponent moduleName c).decode = .ok c ↔ u.Clean := by
  constructor
  · intro decodes
    simp only [ComponentRow.decode, ComponentRow.ofComponent, file, Option.map_some, decodeColumn] at decodes
    cases column : pathColumn? u.toString with
    | none =>
        rw [column] at decodes
        cases decodes
    | some v =>
        have parsed := pathColumn?_eq_some.mp column
        simp only [column] at decodes
        have same : some v = c.file := by
          cases version : c.version <;> rw [version] at decodes <;>
            exact congrArg Component.file (Except.ok.inj decodes)
        rw [file] at same
        exact Option.some.inj same ▸ FileUri.parse_clean parsed
  · intro clean
    refine ComponentRow.decode_ofComponent (fun v here => ?_) moduleName
    rw [file] at here
    exact Option.some.inj here ▸ FileUri.canonical_iff_clean.mpr clean

/-- The file of every component is what a reference in the manifest leads to. -/
theorem ModuleEntry.file_of_ofManifest {u : FileUri} {time : Option Timestamp} {directives : Manifest} {root : Path}
    {markers : List String} {m : ModuleEntry} (made : ofManifest u time directives root markers = some m) {c : Component}
    (member : c ∈ m.components.values) :
    ∃ d ∈ directives.declarations, c.file = some (FileUri.resolve u d.path) := by
  obtain ⟨components, _, _, _⟩ := ofManifest_eq_some made
  obtain ⟨n, found⟩ := OrdMap.mem_values.mp member
  rw [components] at found
  obtain ⟨d, prevails, _, rfl⟩ := get?_declaredComponents.mp found
  exact ⟨d, prevails.mem, rfl⟩

/-! ## What references promise -/

/-- A reference in a document leads to a document, which is read back from its text, exactly if the document lies in a
    directory or the reference is absolute; otherwise the text of what it leads to is turned down. The row of what is
    made of a document is read back as it was exactly if all references to files in it lead to documents, and so is the
    row of a component in a manifest exactly if the reference to its file does. -/
theorem FileUri.references_exact (text : String) (u : FileUri) (parsed : parse text = .ok u) :
    (∀ reference, ((resolve u reference).Clean ∧ parse (resolve u reference).toString = .ok (resolve u reference) ↔
        u.Leads reference) ∧
      (¬u.Leads reference → ∃ e, parse (resolve u reference).toString = .error e)) ∧
      (∀ hash time d, (SourceRow.ofEntry (.ofDocument u hash time d)).decode = .ok (.ofDocument u hash time d) ↔
        ∀ i ∈ d.summary.imports, i.kind = .file → u.Leads i.source) ∧
      ∀ time directives root markers m, ModuleEntry.ofManifest u time directives root markers = some m →
        ∀ c ∈ m.components.values, ∃ d ∈ directives.declarations, c.file = some (resolve u d.path) ∧
          ((ComponentRow.ofComponent m.name c).decode = .ok c ↔ u.Leads d.path) := by
  have clean := parse_clean parsed
  refine ⟨fun reference => ⟨?_, fun astray => parse_climbing (climbing_of_not_leads astray)⟩,
    fun hash time d => decode_ofDocument clean hash time d, fun time directives root markers m made c member => ?_⟩
  · rw [← resolve_clean_iff clean]
    exact and_iff_left_of_imp canonical_iff_clean.mpr
  · obtain ⟨d, declared, file⟩ := ModuleEntry.file_of_ofManifest made member
    exact ⟨d, declared, file, (decode_ofComponent file m.name).trans (resolve_clean_iff clean)⟩

/-- A reference that climbs out of its directory. -/
theorem FileUri.references_exact_climbing :
    parse "file:///work/app/qml/A.qml" = .ok (Path.ofString "/work/app/qml/A.qml") ∧
      parse (resolve (Path.ofString "/work/app/qml/A.qml") "../lib/./util.js").toString =
        .ok (Path.ofString "/work/app/lib/util.js") := by
  have parsed : parse "file:///work/app/qml/A.qml" = .ok (Path.ofString "/work/app/qml/A.qml") :=
    parse_iff.mpr ⟨by decide, by decide⟩
  have leads : Leads (Path.ofString "/work/app/qml/A.qml") "../lib/./util.js" := .inl (by decide)
  obtain ⟨resolved, _, _⟩ := references_exact _ _ parsed
  have back := ((resolved "../lib/./util.js").1.mpr leads).2
  have target : resolve (Path.ofString "/work/app/qml/A.qml") "../lib/./util.js" = Path.ofString "/work/app/lib/util.js" := by
    decide
  exact ⟨parsed, back.trans (congrArg Except.ok target)⟩

/-- In the root directory, a relative reference leads to no document. -/
theorem FileUri.relative_in_root :
    ¬∀ (text : String) (u : FileUri) (reference : String), parse text = .ok u →
      (resolve u reference).Clean ∧ parse (resolve u reference).toString = .ok (resolve u reference) := by
  intro claimed
  have parsed : parse "/" = .ok .rootDir := parse_iff.mpr ⟨by decide, by decide⟩
  have leads := (resolve_clean_iff Path.clean_rootDir).mp (claimed "/" _ "B.qml" parsed).1
  revert leads
  simp [Leads]

end QmlIndex
