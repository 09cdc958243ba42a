import QmlIndex.CommandLine
import QmlIndex.Proofs.FileTree
import QmlIndex.Proofs.Toml.Document

/-! # Settings on disk

Settings are written one to a line, and are read back from these lines as they were. They can be written as long as the
size of a batch is a signed word, and a file of them can be put wherever its directory is there.
-/

namespace QmlIndex

namespace Config

open Toml

/-! ## As rows -/

/-- The settings one by one, in the order in which they are written. A database that is not set is left out. -/
def rows (c : Config) : List Row :=
  (c.database.toList.map fun path => ⟨"database", string path, .string path⟩) ++
  [⟨"source_pattern", string c.sourcePattern, .string c.sourcePattern⟩,
    ⟨"manifest_pattern", string c.manifestPattern, .string c.manifestPattern⟩,
    ⟨"exclude", strings c.exclude, .array (c.exclude.map .string)⟩,
    ⟨"batch_size", Nat.toDigits 10 c.batchSize, .integer c.batchSize⟩,
    ⟨"module_root_markers", strings c.moduleRootMarkers, .array (c.moduleRootMarkers.map .string)⟩,
    ⟨"watch", if c.watch then "true".toList else "false".toList, .boolean c.watch⟩]

theorem render_eq (c : Config) :
    c.render = if Word.fits c.batchSize then some (String.ofList (linesOf c.rows)) else none := by
  cases database : c.database <;>
    simp only [render, rows, linesOf, database, Option.toList, List.map_nil, List.map_cons, List.flatMap_append,
      List.flatMap_cons, List.flatMap_nil, List.append_assoc, List.append_nil, List.nil_append]

theorem render_eq_none {c : Config} : c.render = none ↔ Word.bound ≤ c.batchSize := by
  have fits : Word.fits c.batchSize = true ↔ c.batchSize < Word.bound := by
    rw [Word.fits, decide_eq_true_eq]
    omega
  rw [render_eq]
  split <;> simp_all

theorem reads_string {key : String} (bare : Bare key) (s : String) : Row.Reads ⟨key, string s, .string s⟩ where
  bare := bare
  starts := by
    obtain ⟨q, more, written, quote⟩ := string_starts s
    exact ⟨q, more, written, (solid_of_quote quote).blank⟩
  value rest := value_string _ s (unquoted_cons (by decide) (by decide) rest)

theorem reads_strings {key : String} (bare : Bare key) (l : List String) :
    Row.Reads ⟨key, strings l, .array (l.map .string)⟩ where
  bare := bare
  starts := by
    match l with
    | [] | [_] | _ :: _ :: _ => exact ⟨'[', _, rfl, rfl⟩
  value rest := value_strings _ l _

theorem reads_number {key : String} (bare : Bare key) {n : Nat} (small : n < Word.bound) :
    Row.Reads ⟨key, Nat.toDigits 10 n, .integer n⟩ where
  bare := bare
  starts := by
    obtain ⟨c, more, written⟩ := List.exists_cons_of_ne_nil (Nat.toDigits_ne_nil (n := n) (b := 10))
    have digit : c.isDigit = true := Json.isDigit_toDigits (n := n) (by rw [written]; exact List.mem_cons_self)
    exact ⟨c, more, written, (solid_of_isKeyChar (by simp [isKeyChar, Char.isAlphanum, digit])).1⟩
  value rest := value_number _ small rest

theorem reads_boolean {key : String} (bare : Bare key) (b : Bool) :
    Row.Reads ⟨key, if b then "true".toList else "false".toList, .boolean b⟩ where
  bare := bare
  starts := by cases b <;> exact ⟨_, _, rfl, rfl⟩
  value rest := value_boolean _ b rest

theorem rows_read {c : Config} (small : c.batchSize < Word.bound) : ∀ r ∈ c.rows, r.Reads := by
  intro r member
  simp only [rows, List.mem_append, List.mem_map, List.mem_cons, List.not_mem_nil, or_false] at member
  rcases member with ⟨path, _, rfl⟩ | rfl | rfl | rfl | rfl | rfl | rfl
  · exact reads_string (bare_of_all (by decide)) path
  · exact reads_string (bare_of_all (by decide)) _
  · exact reads_string (bare_of_all (by decide)) _
  · exact reads_strings (bare_of_all (by decide)) _
  · exact reads_number (bare_of_all (by decide)) small
  · exact reads_strings (bare_of_all (by decide)) _
  · exact reads_boolean (bare_of_all (by decide)) _

theorem keys_rows (c : Config) : c.rows.map Row.key = (c.database.toList.map fun _ => "database") ++
    ["source_pattern", "manifest_pattern", "exclude", "batch_size", "module_root_markers", "watch"] := by
  rw [rows, List.map_append, List.map_map]
  rfl

theorem rows_apart (c : Config) : (c.rows.map Row.key).Nodup := by
  rw [keys_rows]
  cases c.database with
  | none => decide
  | some path =>
      change ["database", "source_pattern", "manifest_pattern", "exclude", "batch_size", "module_root_markers",
        "watch"].Nodup
      decide

theorem strings?_map (l : List String) : strings? (.array (l.map .string)) = some l := by
  rw [strings?]
  induction l with
  | nil => rfl
  | cons s l ih =>
      rw [List.map_cons, List.mapM_cons, ih]
      rfl

/-- A setting is found under its key. -/
theorem setting_row {α : Type} {c : Config} {r : Row} (member : r ∈ c.rows) (read : Item → Option α) (default : α) :
    setting (pairsOf c.rows) r.key read default = read r.item := by
  rw [setting, get?_pairsOf (rows_apart c) member]

theorem setting_database (c : Config) :
    setting (pairsOf c.rows) "database" (fun i => (string? i).map some) none = some c.database := by
  cases database : c.database with
  | some path =>
      have member : (⟨"database", string path, .string path⟩ : Row) ∈ c.rows := by
        rw [rows, database]
        exact .head _
      exact setting_row member _ _
  | none =>
      have absent : (pairsOf c.rows).get? "database" = none := by
        rw [Fields.get?_eq_none, keys_pairsOf, keys_rows, database]
        decide
      rw [setting, absent]

theorem ofFields?_rows (c : Config) : ofFields? (pairsOf c.rows) = some c := by
  have number : count? (.integer c.batchSize) = some c.batchSize := by simp [count?]
  have source := setting_row (c := c) (List.mem_append_right _ (.head _)) string?
  have manifest := setting_row (c := c) (List.mem_append_right _ (.tail _ (.head _))) string?
  have exclude := setting_row (c := c) (List.mem_append_right _ (.tail _ (.tail _ (.head _)))) strings?
  have batch := setting_row (c := c) (List.mem_append_right _ (.tail _ (.tail _ (.tail _ (.head _))))) count?
  have markers :=
    setting_row (c := c) (List.mem_append_right _ (.tail _ (.tail _ (.tail _ (.tail _ (.head _)))))) strings?
  have watch :=
    setting_row (c := c) (List.mem_append_right _ (.tail _ (.tail _ (.tail _ (.tail _ (.tail _ (.head _))))))) boolean?
  rw [strings?_map] at exclude markers
  rw [number] at batch
  rw [ofFields?, setting_database, source, manifest, exclude, batch, markers, watch]
  rfl

/-- Settings are read back from the text that is written of them. -/
theorem parse_render {c : Config} {text : String} (written : c.render = some text) : parse text = some c := by
  have small : c.batchSize < Word.bound := by
    rw [← not_le, ← render_eq_none, written]
    nofun
  rw [render_eq] at written
  split at written
  · obtain rfl := Option.some.inj written
    rw [parse, parse_lines (rows_read small) (rows_apart c)]
    exact ofFields?_rows c
  · cases written

/-! ## As a file -/

variable {c : Config} {t after : FileTree} {cwd : Path} {path : String} {force : Bool}

/-- The files that an attempt to write settings leaves behind. -/
def attempt (c : Config) (t : FileTree) (cwd : Path) (path : String) (force : Bool) : FileTree :=
  (c.save t cwd path force).toOption.getD t

theorem save_exists (there : t.containsGiven cwd path = true) (gentle : force = false) :
    c.save t cwd path force = .error (.config (.exists path)) := by
  simp [save, there, gentle]

theorem save_free (free : t.containsGiven cwd path = true → force = true) :
    c.save t cwd path force =
      match c.render with
      | some text => t.writeTextGiven cwd path text
      | none => .error (.config .unreadable) := by
  have unrefused : (t.containsGiven cwd path && !force) ≠ true := by
    simpa using free
  cases written : c.render with
  | none => rw [save, if_neg unrefused, written]
  | some text => rw [save, if_neg unrefused, written]

/-- Settings are saved by writing the text of them. -/
theorem save_eq_ok : c.save t cwd path force = .ok after ↔
    (t.containsGiven cwd path = true → force = true) ∧
      ∃ text, c.render = some text ∧ t.writeTextGiven cwd path text = .ok after := by
  by_cases free : t.containsGiven cwd path = true → force = true
  · rw [save_free free, and_iff_right free]
    cases c.render <;> simp
  · obtain ⟨there, gentle⟩ := Classical.not_imp.mp free
    rw [save_exists there (by simpa using gentle)]
    simp [free]

theorem save_fails : ∀ fault, c.save t cwd path force = .error (.config fault) →
    (t.containsGiven cwd path = true ∧ force = false ∧ fault = .exists path) ∨
      ((t.containsGiven cwd path = true → force = true) ∧ Word.bound ≤ c.batchSize ∧
        fault = .unreadable) := by
  intro fault failed
  by_cases free : t.containsGiven cwd path = true → force = true
  · rw [save_free free] at failed
    cases written : c.render with
    | none =>
        rw [written] at failed
        cases failed
        exact .inr ⟨free, render_eq_none.mp written, rfl⟩
    | some text =>
        rw [written] at failed
        obtain ⟨_, io⟩ := FileTree.writeTextGiven_fails failed
        cases io
  · obtain ⟨there, gentle⟩ := Classical.not_imp.mp free
    rw [save_exists there (by simpa using gentle)] at failed
    cases failed
    exact .inl ⟨there, by simpa using gentle, rfl⟩

theorem load_of_save (saved : c.save t cwd path force = .ok after) : load after cwd path = .ok (some c) := by
  obtain ⟨_, text, written, put⟩ := save_eq_ok.mp saved
  obtain ⟨there, read⟩ := FileTree.textGiven_of_writeTextGiven put
  rw [load, if_pos there, bind_eq_ok]
  refine ⟨text, read, ?_⟩
  rw [parse_render written]
  rfl

/-! ## What saving promises -/

/-- Settings are saved exactly where a file can be put, unless one is there and is not to be replaced, or the size of a
    batch is no signed word. Saved settings are read back as they were, and no other file is touched. Settings that are
    refused leave all files as they were. -/
theorem saved_settings_exact (c : Config) (t : FileTree) (cwd : Path) (path : String) (force : Bool) :
    (c.batchSize < Word.bound → (t.containsGiven cwd path = true → force = true) →
      ((∃ after, c.save t cwd path force = .ok after) ↔ t.AcceptsGiven cwd path)) ∧
      (∀ after, c.save t cwd path force = .ok after → load after cwd path = .ok (some c) ∧
        ∃ p place, FileTree.given cwd path = .ok p ∧ t.locate p = .ok place ∧
          ∀ q, q ≠ place → after.at? q = t.at? q) ∧
      (c.save t cwd path force = .error (.config (.exists path)) ↔
        t.containsGiven cwd path = true ∧ force = false) ∧
      (c.save t cwd path force = .error (.config .unreadable) ↔
        (t.containsGiven cwd path = true → force = true) ∧ Word.bound ≤ c.batchSize) ∧
      ∀ fault, c.save t cwd path force = .error (.config fault) → c.attempt t cwd path force = t := by
  refine ⟨fun small free => ?_, fun after saved => ⟨load_of_save saved, ?_⟩, ?_, ?_, fun fault failed => ?_⟩
  · obtain ⟨text, written⟩ := Option.ne_none_iff_exists'.mp (mt render_eq_none.mp (Nat.not_le.mpr small))
    rw [save_free free, written]
    exact (FileTree.acceptsGiven_iff text).symm
  · obtain ⟨_, text, _, put⟩ := save_eq_ok.mp saved
    obtain ⟨p, h, put⟩ := FileTree.writeTextGiven_eq_ok.mp put
    obtain ⟨place, located, _, rfl⟩ := FileTree.write_eq_ok.mp put
    exact ⟨p, place, h, located, fun q other => FileTree.at?_insert t place _ other⟩
  · constructor
    · intro failed
      rcases save_fails _ failed with ⟨there, gentle, _⟩ | ⟨_, _, other⟩
      · exact ⟨there, gentle⟩
      · cases other
    · rintro ⟨there, gentle⟩
      exact save_exists there gentle
  · constructor
    · intro failed
      rcases save_fails _ failed with ⟨_, _, other⟩ | ⟨free, large, _⟩
      · cases other
      · exact ⟨free, large⟩
    · rintro ⟨free, large⟩
      rw [save_free free, render_eq_none.mpr large]
  · rw [attempt, failed]
    rfl

/-- Settings with quotes of both kinds, line ends, backslashes and control characters in them. -/
def intricate : Config where
  database := some "C:\\it's \"here\"\r\n"
  sourcePattern := "'''\n\"\"\""
  exclude := ["", "\t\"", "\\u0041\x7f"]
  batchSize := 9223372036854775807
  watch := false

/-- Settings that need every form of strings, in the root directory. -/
theorem saved_settings_exact_intricate :
    ∃ after, intricate.save .empty .rootDir "s.toml" false = .ok after ∧
      load after .rootDir "s.toml" = .ok (some intricate) := by
  obtain ⟨saves, loads, _⟩ := saved_settings_exact intricate .empty .rootDir "s.toml" false
  have absent : FileTree.empty.containsGiven .rootDir "s.toml" = false := by decide
  have accepts : FileTree.empty.AcceptsGiven .rootDir "s.toml" := by
    refine ⟨Path.ofString "/s.toml", by decide, Path.ofString "/s.toml", by decide, ?_⟩
    rintro ⟨modified, directory⟩
    have nothing : FileTree.empty.at? (Path.ofString "/s.toml") = none := by decide
    cases nothing.symm.trans directory
  obtain ⟨after, saved⟩ := (saves (by decide) (by rw [absent]; nofun)).mpr accepts
  exact ⟨after, saved, (loads after saved).1⟩

/-- Settings cannot be saved in a directory that is missing. -/
theorem not_saved_without_directory :
    ¬∀ (c : Config) (t : FileTree) (cwd : Path) (path : String) (force : Bool), c.batchSize < Word.bound →
      (t.containsGiven cwd path = false ∨ force = true) → ∃ after, c.save t cwd path force = .ok after := by
  intro claimed
  have absent : FileTree.empty.containsGiven .rootDir "no/s.toml" = false := by decide
  obtain ⟨after, saved⟩ := claimed {} .empty .rootDir "no/s.toml" false (by decide) (.inl absent)
  obtain ⟨_, text, _, put⟩ := save_eq_ok.mp saved
  obtain ⟨p, h, put⟩ := FileTree.writeTextGiven_eq_ok.mp put
  obtain ⟨place, located, _⟩ := FileTree.write_eq_ok.mp put
  have leads : FileTree.given .rootDir "no/s.toml" = .ok (Path.ofString "/no/s.toml") := by decide
  have missing : FileTree.empty.locate (Path.ofString "/no/s.toml") = .error .notFound := by decide
  obtain rfl := Except.ok.inj (leads.symm.trans h)
  rw [missing] at located
  cases located

end Config

end QmlIndex
