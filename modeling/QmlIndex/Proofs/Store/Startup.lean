import QmlIndex.Workspace
import QmlIndex.Proofs.Store.CurrentModules
import QmlIndex.Proofs.Store.CurrentSources

/-! # What keeps an index from loading

Whatever the tables hold, almost every row that cannot be read is deleted and does no harm. There are two exceptions,
both of which let all loading fail until somebody repairs the database: a row without a key, and a component that cannot
be read in a module that would otherwise be kept. Apart from these, loading fails only if a row that is no longer true may
not be deleted.
-/

namespace QmlIndex

namespace Store

variable {s after : Store} {t : FileTree}

/-- What keeps the source files from being read back. -/
inductive SourcesBlocked (s : Store) (t : FileTree) : Prop where
  | nameless {r : SourceRow} (row : r ∈ s.sources) (nameless : r.path = none)
  | refused (refused : s.RefusesStale t)

/-- What keeps the modules from being read back. -/
inductive ModulesBlocked (s : Store) (t : FileTree) : Prop where
  | nameless {r : ModuleRow} (row : r ∈ s.modules) (nameless : r.name = none)
  /-- A component cannot be read, and nothing is wrong with the row of its module or with the manifest. -/
  | unread {r : ModuleRow} {m : ModuleEntry} {c : ComponentRow} (row : r ∈ s.modules) (decodes : r.decode = .ok m)
      (stands : m.ManifestStands t) (component : c ∈ s.components) (own : c.moduleName = m.name)
      (unread : ∀ d, c.decode ≠ .ok d)
  /-- There are more rows of modules that do not survive than may be deleted. -/
  | refusedModule {rows : List ModuleRow} (sublist : rows.Sublist s.modules)
      (stale : ∀ r ∈ rows, ∀ m, s.Survives t m → r.name ≠ some m.name)
      (refused : s.Refuses (.of .modules .delete rows.length))
  | refusedComponent {rows : List ComponentRow} (sublist : rows.Sublist s.components)
      (stale : ∀ c ∈ rows, ∃ r ∈ s.modules, r.name = some c.moduleName ∧ ∀ m, s.Survives t m → r.name ≠ some m.name)
      (refused : s.Refuses (.of .components .delete rows.length))

/-- Reading the source files fails if it is blocked; otherwise every row that can be read and is current is read. -/
theorem KeyedByPath.loadSources_outcome (keyed : s.KeyedByPath) (t : FileTree) :
    (∃ entries after, s.loadSources t = (.ok entries, after) ∧ s.ReadsSources t entries after ∧ ¬ s.SourcesBlocked t) ∨
      ∃ fault, s.loadSources t = (.error fault, s) ∧ s.SourcesBlocked t := by
  by_cases nameless : ∃ r ∈ s.sources, r.path = none
  · obtain ⟨r, row, nameless⟩ := nameless
    exact .inr ⟨_, loadSources_of_nameless row nameless t, .nameless row nameless⟩
  · have named : ∀ r ∈ s.sources, r.path.isSome = true :=
      fun r row => Option.isSome_iff_ne_none.mpr fun none => nameless ⟨r, row, none⟩
    rw [loadSources_cases keyed named]
    split
    case isTrue refused => exact .inr ⟨_, rfl, .refused (refusesStale_iff.mpr refused)⟩
    case isFalse granted =>
      refine .inl ⟨_, _, rfl, reads_retained keyed named t, fun blocked => ?_⟩
      cases blocked with
      | nameless row none => exact nameless ⟨_, row, none⟩
      | refused refused => exact granted (refusesStale_iff.mp refused)

theorem KeyedByName.mem_gone_of_stale (h : s.KeyedByName) (named : ∀ r ∈ s.modules, r.name.isSome = true) {r : ModuleRow}
    (row : r ∈ s.modules) {name : String} (here : r.name = some name) :
    name ∈ s.gone t ↔ ∀ m, s.Survives t m → r.name ≠ some m.name := by
  rw [h.mem_gone named row here, here]
  simp only [ne_eq, Option.some.injEq, eq_comm]

/-- The rows to be deleted are those of the modules that do not survive, and of their components. -/
theorem KeyedByName.refuses_dropping (h : s.KeyedByName) (named : ∀ r ∈ s.modules, r.name.isSome = true) :
    s.Refuses (s.dropping (s.gone t)) ↔
      (∃ rows : List ComponentRow, rows.Sublist s.components ∧
          (∀ c ∈ rows, ∃ r ∈ s.modules, r.name = some c.moduleName ∧ ∀ m, s.Survives t m → r.name ≠ some m.name) ∧
          s.Refuses (.of .components .delete rows.length)) ∨
        ∃ rows : List ModuleRow, rows.Sublist s.modules ∧ (∀ r ∈ rows, ∀ m, s.Survives t m → r.name ≠ some m.name) ∧
          s.Refuses (.of .modules .delete rows.length) := by
  rw [refuses_dropping_iff, refuses_countP_iff, refuses_countP_iff]
  refine or_congr (exists_congr fun rows => and_congr_right fun sublist => and_congr_left fun _ => ?_)
    (exists_congr fun rows => and_congr_right fun sublist => and_congr_left fun _ => ?_)
  · refine forall₂_congr fun c _ => decide_eq_true_iff.trans ⟨fun listed => ?_, ?_⟩
    · obtain ⟨r, row, here⟩ := row_of_gone named listed
      exact ⟨r, row, here, (h.mem_gone_of_stale named row here).mp listed⟩
    · rintro ⟨r, row, here, stale⟩
      exact (h.mem_gone_of_stale named row here).mpr stale
  · refine forall₂_congr fun r member => ?_
    have row := sublist.subset member
    obtain ⟨name, here⟩ := Option.isSome_iff_exists.mp (named r row)
    rw [← h.mem_gone_of_stale named row here, here]
    simp

theorem KeyedByName.not_blocked (h : s.KeyedByName) {found : List ModuleEntry}
    (loaded : s.loadModules t = (.ok found, after)) : ¬ s.ModulesBlocked t := by
  obtain ⟨named, all, granted, _⟩ := loadModules_eq_ok.mp loaded
  intro blocked
  cases blocked with
  | nameless row nameless => simpa [nameless] using named _ row
  | unread row decodes stands component own unread =>
      obtain ⟨d, read⟩ := exists_currentModule?_eq_ok.mp (all _ row) _ decodes stands _ component own
      exact unread d read
  | refusedModule sublist stale refused =>
      exact granted ((h.refuses_dropping named).mpr (.inr ⟨_, sublist, stale, refused⟩))
  | refusedComponent sublist stale refused =>
      exact granted ((h.refuses_dropping named).mpr (.inl ⟨_, sublist, stale, refused⟩))

theorem KeyedByName.loads (h : s.KeyedByName) (free : ¬ s.ModulesBlocked t) :
    ∃ found after, s.loadModules t = (.ok found, after) := by
  have named : ∀ r ∈ s.modules, r.name.isSome = true :=
    fun r row => Option.isSome_iff_ne_none.mpr fun none => free (.nameless row none)
  refine ⟨_, _, loadModules_eq_ok.mpr ⟨named, fun r row => ?_, fun refused => ?_, rfl, rfl⟩⟩
  · rw [exists_currentModule?_eq_ok]
    intro d decodes stands c component own
    by_contra! unread
    exact free (.unread row decodes stands component own unread)
  · rcases (h.refuses_dropping named).mp refused with ⟨rows, sublist, stale, refused⟩ | ⟨rows, sublist, stale, refused⟩
    · exact free (.refusedComponent sublist stale refused)
    · exact free (.refusedModule sublist stale refused)

/-- Reading the modules fails if it is blocked; otherwise all that survive are read. -/
theorem KeyedByName.loadModules_outcome (h : s.KeyedByName) (t : FileTree) :
    (∃ found after, s.loadModules t = (.ok found, after) ∧ s.ReadsModules t found after ∧ ¬ s.ModulesBlocked t) ∨
      ∃ fault, s.loadModules t = (.error fault, s) ∧ s.ModulesBlocked t := by
  by_cases blocked : s.ModulesBlocked t
  · rcases transact_cases s _ with ⟨fault, failed⟩ | ⟨found, after, _, loaded⟩
    · exact .inr ⟨fault, failed, blocked⟩
    · exact absurd blocked (h.not_blocked loaded)
  · obtain ⟨found, after, loaded⟩ := h.loads blocked
    exact .inl ⟨found, after, loaded, h.reads loaded, blocked⟩

theorem Survives.congr (kept : s.KeepsModules after) {m : ModuleEntry} (h : s.Survives t m) : after.Survives t m := by
  obtain ⟨sources, modules, components, refusals⟩ := after
  obtain ⟨rfl, rfl, rfl⟩ := kept
  exact ⟨h.stored, h.inhabited, h.manifest⟩

theorem ModulesBlocked.congr (kept : s.KeepsModules after) (blocked : s.ModulesBlocked t) : after.ModulesBlocked t := by
  cases blocked with
  | nameless row nameless => exact .nameless (kept.modules ▸ row) nameless
  | unread row decodes stands component own unread =>
      exact .unread (kept.modules ▸ row) decodes stands (kept.components ▸ component) own unread
  | refusedModule sublist stale refused =>
      exact .refusedModule (kept.modules ▸ sublist) (fun r row m h => stale r row m (h.congr kept.symm))
        (by rwa [Refuses, kept.refusals])
  | refusedComponent sublist stale refused =>
      refine .refusedComponent (kept.components ▸ sublist) (fun c component => ?_) (by rwa [Refuses, kept.refusals])
      obtain ⟨r, row, own, unkept⟩ := stale c component
      exact ⟨r, kept.modules ▸ row, own, fun m h => unkept m (h.congr kept.symm)⟩

/-- The modules do not depend on the source files. -/
theorem modulesBlocked_congr (kept : s.KeepsModules after) : after.ModulesBlocked t ↔ s.ModulesBlocked t :=
  ⟨.congr kept.symm, .congr kept⟩

end Store

namespace Workspace

variable {w : Workspace} {t : FileTree}

theorem load_of_sources_failed {fault : Error} {after : Store} (failed : w.store.loadSources t = (.error fault, after)) :
    w.load t = (.error fault, { w with store := after }) := by
  have half : w.onSources (·.load t) = (.error fault, { w with store := after }) := by
    simp only [onSources, withSources, SourceIndex.load, sources, failed]
  rw [load, half]
  rfl

/-- Once the source files are read, the modules decide. -/
theorem load_of_sources_read {entries : List SourceEntry} {after : Store}
    (read : w.store.loadSources t = (.ok entries, after)) : (w.load t).1.isOk = (after.loadModules t).1.isOk := by
  have half : w.onSources (·.load t) =
      (.ok (Graph.load entries).size, { w with graph := Graph.load entries, store := after }) := by
    simp only [onSources, withSources, SourceIndex.load, sources, read]
  rw [load, half]
  simp only [andThen, onModules, ModuleIndex.load, modules]
  rcases after.loadModules t with ⟨_ | found, last⟩ <;> rfl

/-- A workspace loads if neither of its halves is blocked. -/
theorem load_isOk (paths : w.store.KeyedByPath) (names : w.store.KeyedByName) :
    (w.load t).1.isOk = true ↔ ¬ w.store.SourcesBlocked t ∧ ¬ w.store.ModulesBlocked t := by
  rcases paths.loadSources_outcome t with ⟨entries, middle, read, reads, free⟩ | ⟨fault, failed, blocked⟩
  · have keyed : middle.KeyedByName := by
      rw [Store.KeyedByName, reads.frame.modules]
      exact names
    rw [load_of_sources_read read, ← Store.modulesBlocked_congr reads.frame]
    rcases keyed.loadModules_outcome t with ⟨found, after, loaded, _, loads⟩ | ⟨fault, failed, blocked⟩
    · rw [loaded]
      exact iff_of_true rfl ⟨free, loads⟩
    · rw [failed]
      exact iff_of_false Bool.false_ne_true fun both => both.2 blocked
  · rw [load_of_sources_failed failed]
    exact iff_of_false Bool.false_ne_true fun both => both.1 blocked

/-- Whatever the tables hold, each half of a workspace loads what can be read and is still true, unless it is blocked;
    and the workspace loads if neither is. -/
theorem load_exact (w : Workspace) (t : FileTree) (paths : w.store.KeyedByPath) (names : w.store.KeyedByName) :
    ((∃ entries after, w.store.loadSources t = (.ok entries, after) ∧ w.store.ReadsSources t entries after ∧
          ¬ w.store.SourcesBlocked t) ∨
        ∃ fault, w.store.loadSources t = (.error fault, w.store) ∧ w.store.SourcesBlocked t) ∧
      ((∃ found after, w.store.loadModules t = (.ok found, after) ∧ w.store.ReadsModules t found after ∧
          ¬ w.store.ModulesBlocked t) ∨
        ∃ fault, w.store.loadModules t = (.error fault, w.store) ∧ w.store.ModulesBlocked t) ∧
      ((w.load t).1.isOk = true ↔ ¬ w.store.SourcesBlocked t ∧ ¬ w.store.ModulesBlocked t) :=
  ⟨paths.loadSources_outcome t, names.loadModules_outcome t, load_isOk paths names⟩

/-! ## Damaged tables -/

namespace Damaged

def row (name : String) : ModuleRow := ⟨some name, .text "1", none, none⟩

def component (moduleName : String) : ComponentRow := ⟨moduleName, .text "A", none, .integer 0, .integer 0, none⟩

/-- The version of a module is no text, the manifest of another no path. The component of a third one cannot be read, but
    the manifest of its module is missing. -/
def readable : Store where
  sources := [⟨some "/A.qml", .bytes [255], .integer 5, "[]", "{}", "[]", "[]", "[]"⟩]
  modules := [row "Good", { row "Bytes" with version := .bytes [255] }, { row "Relative" with manifest := some "qmldir" },
    { row "Old" with manifest := some "/gone", lastModified := some (.integer 5) }]
  components := [component "Good", component "Bytes", { component "Old" with file := some "A.qml" }]

/-- A component that cannot be read belongs to a module that is in order. -/
def unreadable : Store where
  modules := [row "Good", row "Bad"]
  components := [component "Good", { component "Bad" with file := some "A.qml" }]

def nameless : Store where
  sources := [⟨none, .text "0", .integer 5, "[]", "{}", "[]", "[]", "[]"⟩]
  modules := [row "Good"]
  components := [component "Good"]

def workspace (store : Store) : Workspace := { (default : Workspace) with store }

theorem keyed_readable : readable.KeyedByPath ∧ readable.KeyedByName := by
  unfold Store.KeyedByPath Store.KeyedByName
  decide

end Damaged

open Damaged in
theorem load_exact_damaged :
    (∃ found after, readable.loadModules .empty = (.ok found, after) ∧ readable.ReadsModules .empty found after ∧
        found.map ModuleEntry.name = ["Good"] ∧ after.stats = ⟨1, 1, 1⟩) ∧
      (¬ readable.SourcesBlocked .empty ∧ ¬ readable.ModulesBlocked .empty) ∧
      ((workspace readable).load .empty).1 = .ok (0, 1) := by
  obtain ⟨_, modules, loads⟩ := load_exact (workspace readable) .empty keyed_readable.1 keyed_readable.2
  have loaded : ((workspace readable).load .empty).1 = .ok (0, 1) := by decide
  have free := loads.mp (by rw [loaded]; rfl)
  rcases modules with ⟨found, after, read, reads, _⟩ | ⟨_, _, blocked⟩
  · have names : (readable.loadModules .empty).1.map (·.map ModuleEntry.name) = .ok ["Good"] := by decide
    have stats : (readable.loadModules .empty).2.stats = ⟨1, 1, 1⟩ := by decide
    have read : readable.loadModules .empty = (.ok found, after) := read
    rw [read] at names stats
    exact ⟨⟨found, after, read, reads, Except.ok.inj names, stats⟩, free, loaded⟩
  · exact absurd blocked free.2

open Damaged in
/-- One row stands in the way of a module that is in order, though nothing is refused. -/
theorem load_fails_unrefused :
    (unreadable.refusals = [] ∧ (unreadable.getModule "Good").isOk = true ∧
        ((workspace unreadable).load .empty).1.isOk = false) ∧
      nameless.refusals = [] ∧ (nameless.getModule "Good").isOk = true ∧
        ((workspace nameless).load .empty).1.isOk = false := by
  decide

end Workspace

end QmlIndex
