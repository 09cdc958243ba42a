import QmlIndex.Proofs.Store.Batches

/-! # Which source rows are read back

A row of the table of source files is current if it can be read as an entry and what is at the path of that entry has the
time that the row says. Nothing asks whether that is a file: a directory of that time will do. Whoever wrote the rows, as
long as each has a path of its own, reading back answers with the entries of the current rows and deletes the others; a
second time it does nothing. It fails only if one of the others may not be deleted.
-/

namespace QmlIndex

/-- The row can be read as an entry, and what is at the entry's path has the time that the row says. -/
structure SourceRow.Current (t : FileTree) (r : SourceRow) (e : SourceEntry) : Prop where
  decodes : r.decode = .ok e
  time : t.time? e.uri = some e.lastModified

namespace Store

variable {s : Store} {t : FileTree} {r : SourceRow} {e : SourceEntry}

theorem currentSource?_eq_some : currentSource? t r = some e ↔ r.Current t e := by
  rw [currentSource?]
  cases found : r.decode with
  | error column =>
      simp only [reduceCtorEq, false_iff]
      intro current
      cases found.symm.trans current.decodes
  | ok d =>
      rw [Option.ite_none_right_eq_some, FileTree.hasTime_iff, Option.some.injEq]
      constructor
      · rintro ⟨time, rfl⟩
        exact ⟨found, time⟩
      · intro current
        obtain rfl := Except.ok.inj (found.symm.trans current.decodes)
        exact ⟨current.time, rfl⟩

theorem currentSource?_isSome : (currentSource? t r).isSome = true ↔ ∃ e, r.Current t e := by
  simp only [Option.isSome_iff_exists, currentSource?_eq_some]

theorem currentSource?_eq_none : currentSource? t r = none ↔ ∀ e, ¬ r.Current t e := by
  simp only [Option.eq_none_iff_forall_ne_some, ne_eq, currentSource?_eq_some]

/-- What is left of the table when it is read back. -/
def retained (s : Store) (t : FileTree) : Store :=
  { s with sources := s.sources.filter fun r => (currentSource? t r).isSome }

/-- Rows that are not current may not all be deleted: there are more of them than a refusal lets pass. -/
def RefusesStale (s : Store) (t : FileTree) : Prop :=
  ∃ rows : List SourceRow, rows.Sublist s.sources ∧ (∀ r ∈ rows, ∀ e, ¬ r.Current t e) ∧
    s.Refuses (.of .sources .delete rows.length)

theorem refusesStale_iff : s.RefusesStale t ↔
    s.Refuses (.of .sources .delete (s.sources.countP fun r => (currentSource? t r).isNone)) := by
  simp only [RefusesStale, refuses_countP_iff, Option.isNone_iff_eq_none, currentSource?_eq_none]

/-- Reading back fails if a row is to be deleted that may not be. -/
theorem loadSources_cases (keyed : s.KeyedByPath) (named : ∀ r ∈ s.sources, r.path.isSome = true) (t : FileTree) :
    s.loadSources t =
      if s.Refuses (.of .sources .delete (s.sources.countP fun r => (currentSource? t r).isNone)) then
        (.error (.storage .refused), s)
      else (.ok (s.sources.filterMap (currentSource? t)), s.retained t) := by
  rw [loadSources_eq keyed named, deleteSources_eq, retained]
  split
  · rfl
  · simp only [Option.not_isNone]
    rfl

/-- Nothing that is left would be deleted, so that reading back once more changes nothing. -/
theorem loadSources_retained (keyed : s.KeyedByPath) (named : ∀ r ∈ s.sources, r.path.isSome = true) (t : FileTree) :
    (s.retained t).loadSources t = (.ok (s.sources.filterMap (currentSource? t)), s.retained t) := by
  have kept : (s.retained t).sources.Sublist s.sources := List.filter_sublist
  have current : ∀ r ∈ (s.retained t).sources, (currentSource? t r).isSome = true :=
    fun _ member => (List.mem_filter.mp member).2
  have nothing_stale : (s.retained t).sources.countP (fun r => (currentSource? t r).isNone) = 0 := by
    rw [List.countP_eq_zero]
    intro r member none
    rw [Option.isNone_iff_eq_none] at none
    simpa [none] using current r member
  have same_entries : (s.retained t).sources.filterMap (currentSource? t) = s.sources.filterMap (currentSource? t) := by
    rw [retained, List.filterMap_filter]
    congr 1
    funext r
    cases currentSource? t r <;> rfl
  have same_rows : (s.retained t).retained t = s.retained t := by
    rw [retained, List.filter_eq_self.mpr current]
  rw [loadSources_cases (keyed.sublist (kept.filterMap _)) (fun r member => named r (kept.subset member)),
    nothing_stale, if_neg not_refuses_zero, same_entries, same_rows]

/-- The entries of the current rows, row by row. -/
theorem forall₂_current (t : FileTree) (rows : List SourceRow) : List.Forall₂ (SourceRow.Current t)
    (rows.filter fun r => (currentSource? t r).isSome) (rows.filterMap (currentSource? t)) := by
  induction rows with
  | nil => exact .nil
  | cons r rest ih =>
      cases found : currentSource? t r with
      | none => simpa [found] using ih
      | some e =>
          rw [List.filter_cons_of_pos (by simp [found]), List.filterMap_cons_some found]
          exact .cons (currentSource?_eq_some.mp found) ih

/-- What a reading of the source files that goes through gives and leaves. -/
structure ReadsSources (s : Store) (t : FileTree) (entries : List SourceEntry) (after : Store) : Prop where
  /-- The rows that are left are rows that were there, in their order. -/
  unchanged : after.sources.Sublist s.sources
  exact : ∀ r, r ∈ after.sources ↔ r ∈ s.sources ∧ ∃ e, r.Current t e
  /-- The entries are those of the rows that are left. -/
  read : List.Forall₂ (SourceRow.Current t) after.sources entries
  frame : s.KeepsModules after
  again : after.loadSources t = (.ok entries, after)

theorem reads_retained (keyed : s.KeyedByPath) (named : ∀ r ∈ s.sources, r.path.isSome = true) (t : FileTree) :
    s.ReadsSources t (s.sources.filterMap (currentSource? t)) (s.retained t) where
  unchanged := List.filter_sublist
  exact := by
    intro r
    rw [retained, List.mem_filter, currentSource?_isSome]
  read := forall₂_current t s.sources
  frame := ⟨rfl, rfl, rfl⟩
  again := loadSources_retained keyed named t

/-- Either the current rows are read and the others are deleted, or one of those may not be deleted and nothing has
    changed. -/
theorem loadSources_exact (keyed : s.KeyedByPath) (named : ∀ r ∈ s.sources, r.path.isSome = true) (t : FileTree) :
    (∃ entries after, s.loadSources t = (.ok entries, after) ∧ s.ReadsSources t entries after ∧ ¬ s.RefusesStale t) ∨
      ∃ fault, s.loadSources t = (.error fault, s) ∧ s.RefusesStale t := by
  rw [loadSources_cases keyed named, refusesStale_iff]
  split
  case isTrue refused => exact .inr ⟨_, rfl, refused⟩
  case isFalse granted => exact .inl ⟨_, _, rfl, reads_retained keyed named t, granted⟩

/-! ## A table that others have written to -/

namespace Foreign

def row (name : String) (time : Timestamp) : SourceRow := SourceRow.ofEntry {
  uri := Path.rootDir.child name
  contentHash := "0"
  lastModified := time
  imports := []
  exports := {}
  symbols := []
  dependsOn := []
  dependedBy := [] }

/-- The row of a file, under a path that is not normalised. -/
def twin : SourceRow := { row "Here" 5 with path := some "/x/../Here" }

def digest : SourceRow := { row "Digest" 5 with contentHash := .bytes [48] }

def text : SourceRow := { row "Text" 5 with imports := "[" }

/-- The rows of `Old` and `New` have other times than their files, that of `Gone` has no file, and two cannot be read.
    That of `Folder` has the time of a directory. -/
def store : Store where
  sources := [row "Old" 4, row "Here" 5, row "New" 6, row "Gone" 5, digest, row "Folder" 5, text, twin]
  modules := [⟨some "M", .text "1", none, none⟩]

def files : FileTree where
  nodes := .ofList <| (Path.rootDir.child "Folder", .directory 5) ::
    ["Old", "Here", "New", "Digest", "Text"].map fun name => (Path.rootDir.child name, .file ⟨.empty, 5⟩)

theorem keyed : store.KeyedByPath ∧ ∀ r ∈ store.sources, r.path.isSome = true := by
  unfold KeyedByPath
  decide

theorem isSome_row {name : String} (listed : name ∈ ["Old", "Here", "New", "Gone", "Folder"]) (time : Timestamp) :
    (currentSource? files (row name time)).isSome = files.hasTime (Path.rootDir.child name) (some time) := by
  have names : ∀ n ∈ ["Old", "Here", "New", "Gone", "Folder"], Path.IsName n := by decide
  have clean : (Path.rootDir.child name).Clean := Path.clean_rootDir.child (names name listed)
  rw [row, currentSource?_ofEntry (SourceEntry.storable_iff.mpr (by simp [SourceEntry.uris, clean]))]
  cases files.hasTime (Path.rootDir.child name) (some time) <;> rfl

theorem unread : (currentSource? files digest).isNone = true ∧ (currentSource? files text).isNone = true := by
  decide +kernel

theorem retained_store : (store.retained files).sources = [row "Here" 5, row "Folder" 5, twin] := by
  have twin_current : (currentSource? files twin).isSome = true := by decide +kernel
  have times : files.hasTime (Path.rootDir.child "Old") (some 4) = false ∧
      files.hasTime (Path.rootDir.child "Here") (some 5) = true ∧
      files.hasTime (Path.rootDir.child "New") (some 6) = false ∧
      files.hasTime (Path.rootDir.child "Gone") (some 5) = false ∧
      files.hasTime (Path.rootDir.child "Folder") (some 5) = true := by decide
  have digest_unread := Option.isNone_iff_eq_none.mp unread.1
  have text_unread := Option.isNone_iff_eq_none.mp unread.2
  simp [retained, store, isSome_row, twin_current, digest_unread, text_unread, times]

/-- Two of the stale rows may be deleted. -/
def narrow : Store := store.refuse ⟨.sources, .delete, 2⟩

/-- There are three more. -/
theorem refuses_narrow : narrow.RefusesStale files := by
  have stale : ∀ {name : String} {time : Timestamp}, name ∈ ["Old", "Here", "New", "Gone", "Folder"] →
      files.hasTime (Path.rootDir.child name) (some time) = false → ∀ e, ¬ (row name time).Current files e := by
    intro name time listed other
    rw [← currentSource?_eq_none, ← Option.not_isSome_iff_eq_none, isSome_row listed, other]
    exact Bool.false_ne_true
  refine ⟨[row "Old" 4, row "New" 6, row "Gone" 5], ?_, ?_, by decide⟩
  · exact .cons_cons _ (.cons _ (.cons_cons _ (.cons_cons _ (List.nil_sublist _))))
  · simp only [List.forall_mem_cons]
    exact ⟨stale (by decide) (by decide), stale (by decide) (by decide),
      stale (by decide) (by decide), nofun⟩

end Foreign

open Foreign in
theorem loadSources_exact_foreign :
    (∃ entries after, store.loadSources files = (.ok entries, after) ∧ store.ReadsSources files entries after ∧
      after.sources = [row "Here" 5, row "Folder" 5, twin]) ∧
    ∃ fault, narrow.loadSources files = (.error fault, narrow) := by
  constructor
  · rcases loadSources_exact keyed.1 keyed.2 files with ⟨entries, after, loaded, reads, _⟩ | ⟨_, _, refused⟩
    · have kept := loadSources_cases keyed.1 keyed.2 files
      rw [if_neg (by rintro ⟨_, ⟨⟩, _⟩), loaded] at kept
      obtain rfl := (Prod.mk.inj kept).2
      exact ⟨entries, _, loaded, reads, retained_store⟩
    · obtain ⟨_, _, _, _, ⟨⟩, _⟩ := refused
  · rcases loadSources_exact (s := narrow) keyed.1 keyed.2 files with ⟨_, _, _, _, granted⟩ | ⟨fault, failed, _⟩
    · exact absurd refuses_narrow granted
    · exact ⟨fault, failed⟩

end Store

end QmlIndex
