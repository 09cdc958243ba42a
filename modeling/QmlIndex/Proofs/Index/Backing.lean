import QmlIndex.Proofs.Graph.Run
import QmlIndex.Proofs.Index.Grants
import QmlIndex.Proofs.Json.Serialized
import QmlIndex.Proofs.Store.Batches

/-! # Rows that back entries to the last edge

A resident entry is backed if the table has one row of its path and the row decodes to it, the edges towards it
included. A commit writes every entry that the new one changes, so it keeps all entries backed. An invalidation
deletes rows and writes none: an entry that is left loses dependents in memory and keeps them in its row.
-/

namespace QmlIndex

open QmlIndex.Graph

namespace Store

variable {s : Store} {d e : SourceEntry}

/-- The rows of a path, or those without one. -/
def rowsAt (s : Store) (path : Option String) : List SourceRow := s.sources.filter fun r => r.path = path

/-- One row is of the entry's path, and it decodes to the entry. -/
def Backs (s : Store) (e : SourceEntry) : Prop :=
  (s.rowsAt (some e.uri.toString)).map SourceRow.decode = [.ok e]

theorem mem_rowsAt {path : Option String} {r : SourceRow} : r ∈ s.rowsAt path ↔ r ∈ s.sources ∧ r.path = path := by
  simp [rowsAt]

theorem backs_of_rowsAt (storable : e.Storable) (row : s.rowsAt (some e.uri.toString) = [SourceRow.ofEntry e]) :
    s.Backs e := by
  rw [Backs, row, List.map_singleton, SourceRow.decode_ofEntry storable]

theorem Backs.row (backs : s.Backs e) : ∃ r ∈ s.sources, r.path = some e.uri.toString ∧ r.decode = .ok e := by
  obtain ⟨r, row, decodes⟩ := List.map_eq_singleton_iff.mp backs
  obtain ⟨member, here⟩ := mem_rowsAt.mp (row ▸ List.mem_singleton_self r)
  exact ⟨r, member, here, decodes⟩

theorem Backs.unique (first : s.Backs d) (second : s.Backs e) (same : d.uri = e.uri) : d = e := by
  rw [Backs, same] at first
  exact Except.ok.inj (List.singleton_inj.mp (first.symm.trans second))

/-- A row that decodes names a file as a URI spells it. -/
theorem canonical_of_decode {r : SourceRow} (decodes : r.decode = .ok e) : e.uri.Canonical := by
  rw [SourceRow.decode] at decodes
  cases spelled : r.path.bind pathColumn? with
  | none =>
      rw [spelled] at decodes
      cases decodes
  | some u =>
      obtain ⟨path, _, column⟩ := Option.bind_eq_some_iff.mp spelled
      have canonical : u.Canonical :=
        FileUri.canonical_iff_clean.mpr (FileUri.parse_clean (pathColumn?_eq_some.mp column))
      rw [spelled] at decodes
      simp only [decodeColumn, bind, Except.bind] at decodes
      repeat' split at decodes
      all_goals cases decodes
      all_goals exact canonical

theorem Backs.canonical (backs : s.Backs e) : e.uri.Canonical := by
  obtain ⟨r, _, _, decodes⟩ := backs.row
  exact canonical_of_decode decodes

end Store

/-- The paths in all entries that an operation is given are those of files. -/
def Graph.Operation.Clean (o : Operation) : Prop := ∀ d ∈ o.entries, ∀ u ∈ d.uris, u.Clean

namespace SourceIndex

variable {x after : SourceIndex} {s : Store} {e : SourceEntry} {operations : List Operation} {u : FileUri}

/-! ## Commits -/

/-- The paths whose entries a new entry may change: its own, those that it depends on, and those that the entry before
    it depended on. -/
def affected (x : SourceIndex) (e : SourceEntry) : List FileUri :=
  e.uri :: ((x.graph.get? e.uri).map SourceEntry.dependsOn).getD [] ++ e.dependsOn

/-- The entries that are written are those that are live at the affected paths. -/
theorem mem_touchedBy {d : SourceEntry} : d ∈ x.touchedBy e ↔ ∃ u ∈ x.affected e, (x.graph.insert e).get? u = some d := by
  rw [touchedBy, touched, get?_insert_self, Option.getD_some, List.mem_filterMap]
  simp only [List.mem_eraseDups, affected]

/-- An entry that is not at an affected path stays as it is. -/
theorem get?_insert_of_unaffected (t : x.graph.Transposed) (other : u ∉ x.affected e) :
    (x.graph.insert e).get? u = x.graph.get? u := by
  simp only [affected, List.mem_append, List.mem_cons, not_or] at other
  obtain ⟨⟨itself, before⟩, now⟩ := other
  refine get?_insert_of_apart t itself ?_ now
  rintro ⟨d, live, edge⟩
  rw [live] at before
  exact before edge

/-- A commit has written every entry that it has changed, and nothing else. -/
structure Committed (x : SourceIndex) (e : SourceEntry) (after : SourceIndex) : Prop where
  changed : ∀ u d, after.graph.get? u = some d → x.graph.get? u ≠ some d → after.store.Backs d
  /-- The entry itself, what it depends on, and what the entry before it depended on have rows, changed or not. -/
  affected : ∀ u ∈ x.affected e, ∀ d, after.graph.get? u = some d → after.store.Backs d
  /-- The rows of all other files are the rows that were there, -/
  unaffected : ∀ u, u.Clean → (u ∈ x.affected e → after.graph.contains u = false) →
    after.store.rowsAt (some u.toString) = x.store.rowsAt (some u.toString)
  /-- and so are those of what is no path of a file, and those without a path. -/
  others : ∀ path, (∀ u ∈ x.affected e, after.graph.contains u = true → path ≠ some u.toString) →
    after.store.rowsAt path = x.store.rowsAt path
  frame : x.store.KeepsModules after.store

section Written

variable {written : Store} (t : x.graph.Transposed)
  (storable : ∀ u d, (x.graph.insert e).get? u = some d → d.Storable)
  (overwritten : x.store.Overwritten (x.touchedBy e) written)
include t storable overwritten

theorem backs_affected {d : SourceEntry} (here : u ∈ x.affected e) (live : (x.graph.insert e).get? u = some d) :
    written.Backs d := by
  have inserted := t.insert e
  have touched : d ∈ x.touchedBy e := mem_touchedBy.mpr ⟨u, here, live⟩
  apply Store.backs_of_rowsAt (storable u d live)
  rw [Store.rowsAt, overwritten.table]
  refine Store.filter_overwritten_of_mem touched rfl (fun other member same => ?_) x.store.sources
  obtain ⟨v, _, live_other⟩ := mem_touchedBy.mp member
  -- A path has one live entry, and different paths are spelled differently.
  have spelled : d.uri = other.uri :=
    ((storable u d live).uri.toString_inj (storable v other live_other).uri).mp (Option.some.inj same)
  rw [inserted.own live, inserted.own live_other] at spelled
  subst spelled
  exact Option.some.inj (live_other.symm.trans live)

omit storable in
theorem rowsAt_others {path : Option String}
    (other : ∀ u ∈ x.affected e, (x.graph.insert e).contains u = true → path ≠ some u.toString) :
    written.rowsAt path = x.store.rowsAt path := by
  apply overwritten.others
  intro d member
  obtain ⟨u, here, live⟩ := mem_touchedBy.mp member
  rw [(t.insert e).own live]
  exact other u here (contains_iff.mpr ⟨d, live⟩)

theorem committed : x.Committed e ⟨x.graph.insert e, written⟩ where
  changed := by
    intro u d live different
    by_cases here : u ∈ x.affected e
    · exact backs_affected t storable overwritten here live
    · rw [← get?_insert_of_unaffected t here] at different
      exact absurd live different
  affected := fun _ here _ => backs_affected t storable overwritten here
  unaffected := by
    intro u clean absent
    refine rowsAt_others t overwritten fun v here live spelled => ?_
    obtain ⟨d, live_here⟩ := contains_iff.mp live
    have canonical : FileUri.Canonical v := (t.insert e).own live_here ▸ (storable v d live_here).uri
    obtain rfl : u = v :=
      ((FileUri.canonical_iff_clean.mpr clean).toString_inj canonical).mp (Option.some.inj spelled)
    rw [absent here] at live
    cases live
  others := fun _ other => rowsAt_others t overwritten other
  frame := overwritten.frame

end Written

theorem commit_eq (x : SourceIndex) (e : SourceEntry) :
    x.commit e true = ({ e with dependedBy := (x.graph.insert e).dependentsOf e.uri },
      ⟨x.graph.insert e, (x.store.saveSources (x.touchedBy e)).2⟩) := by
  have stored : ((x.graph.insert e).get? e.uri).getD e =
      { e with dependedBy := (x.graph.insert e).dependentsOf e.uri } := by
    rw [get?_insert_self, Option.getD_some]
  exact Prod.ext stored rfl

/-- Either the store takes all that is to be written, or it rejects it and stays as it was. -/
theorem commit_cases (t : x.graph.Transposed) (storable : ∀ u d, (x.graph.insert e).get? u = some d → d.Storable) :
    (Succeeds (x.store.saveSources (x.touchedBy e)).1 ∧ x.Committed e (x.commit e true).2) ∨
      ¬ Succeeds (x.store.saveSources (x.touchedBy e)).1 ∧ (x.commit e true).2.store = x.store ∧
        x.store.Rejects (x.touchedBy e) := by
  have touched : ∀ d ∈ x.touchedBy e, d.Storable := by
    intro d member
    obtain ⟨u, _, live⟩ := mem_touchedBy.mp member
    exact storable u d live
  rw [commit_eq]
  rcases Store.save_whole_or_not touched with ⟨after, saved, written, _⟩ | ⟨fault, failed, rejected⟩
  · rw [saved]
    exact .inl ⟨succeeds_ok _, committed t storable written⟩
  · rw [failed]
    exact .inr ⟨not_succeeds_error fault, rfl, rejected⟩

/-! ### After any run -/

/-- The live entries of a run can be stored if what its operations are given can. -/
theorem run_storable (clean : ∀ o ∈ operations, o.Clean) {d : SourceEntry}
    (live : (Graph.run operations).get? u = some d) : d.Storable := by
  refine (run_transposed operations).storable (fun {v f} here => ?_) live
  obtain ⟨o, listed, g, member, same⟩ := run_given operations (congrArg (Option.map SourceEntry.forward) here)
  have storable : g.Storable := SourceEntry.storable_iff.mpr (clean o listed g member)
  have uri : g.uri = f.uri := show g.forward.uri = f.forward.uri by rw [same]
  have dependsOn : g.dependsOn = f.dependsOn := show g.forward.dependsOn = f.forward.dependsOn by rw [same]
  exact ⟨uri ▸ storable.uri, dependsOn ▸ storable.dependsOn⟩

theorem clean_snoc (clean : ∀ o ∈ operations, o.Clean) (clean_entry : ∀ u ∈ e.uris, u.Clean) :
    ∀ o ∈ operations ++ [.insert e], o.Clean := by
  intro o member
  rcases List.mem_append.mp member with earlier | last
  · exact clean o earlier
  · obtain rfl := List.mem_singleton.mp last
    simpa [Operation.Clean, Operation.entries] using clean_entry

/-- What the insertion of an entry leaves can be stored. -/
theorem insert_storable (reached : x.graph = Graph.run operations) (clean : ∀ o ∈ operations, o.Clean)
    (clean_entry : ∀ u ∈ e.uris, u.Clean) : ∀ u d, (x.graph.insert e).get? u = some d → d.Storable := by
  intro u d live
  have inserted : Graph.run (operations ++ [.insert e]) = x.graph.insert e := by
    rw [run_snoc, reached]
    rfl
  exact run_storable (clean_snoc clean clean_entry) (inserted ▸ live)

/-- A commit to the graph after any run and to any store. In memory the entry is inserted in any case. Either the store
    takes the new entry and all that it changes, and nothing else is written, or it rejects them, however many of them it
    would have taken, and stays as it was. -/
theorem commit_exact (reached : x.graph = Graph.run operations) (clean : ∀ o ∈ operations, o.Clean)
    (clean_entry : ∀ u ∈ e.uris, u.Clean) :
    ∃ stored after result, x.commit e true = (stored, after) ∧
      x.store.saveSources (x.touchedBy e) = (result, after.store) ∧
      after.graph = x.graph.insert e ∧ after.graph.get? e.uri = some stored ∧
      (Succeeds result → x.Committed e after) ∧
      (¬ Succeeds result → after.store = x.store ∧ x.store.Rejects (x.touchedBy e)) := by
  have t : x.graph.Transposed := reached ▸ run_transposed operations
  have outcome := commit_cases t (insert_storable reached clean clean_entry)
  rw [commit_eq] at *
  refine ⟨_, _, _, rfl, rfl, rfl, get?_insert_self x.graph e, fun granted => ?_, fun refused => ?_⟩
  · rcases outcome with ⟨_, done⟩ | ⟨refused, _⟩
    · exact done
    · exact absurd granted refused
  · rcases outcome with ⟨granted, _⟩ | ⟨_, kept⟩
    · exact absurd granted refused
    · exact kept

/-- Commit entries one after the other. -/
def commits (x : SourceIndex) (entries : List SourceEntry) : SourceIndex := entries.foldl (fun x e => (x.commit e true).2) x

/-- The store takes what each of the commits writes. -/
def CommitsGranted : SourceIndex → List SourceEntry → Prop
  | _, [] => True
  | x, e :: rest => Succeeds (x.store.saveSources (x.touchedBy e)).1 ∧ CommitsGranted (x.commit e true).2 rest

instance decidableCommitsGranted : (x : SourceIndex) → (entries : List SourceEntry) → Decidable (CommitsGranted x entries)
  | _, [] => .isTrue trivial
  | x, e :: rest =>
    have : Decidable (CommitsGranted (x.commit e true).2 rest) := decidableCommitsGranted _ rest
    inferInstanceAs (Decidable (_ ∧ _))

/-! ### Two documents -/

namespace Pair

def path (name : String) : FileUri := Path.rootDir.child name

def entry (name : String) (dependsOn : List FileUri) : SourceEntry where
  uri := path name
  contentHash := "hash"
  lastModified := 5
  imports := []
  exports := {}
  symbols := []
  dependsOn
  dependedBy := []

/-- A depends on B. -/
def documents : List SourceEntry := [entry "B" [], entry "A" [path "B"]]

def inserted : List Operation := documents.map .insert

def index : SourceIndex := commits ⟨.empty, .empty⟩ documents

theorem clean_path {name : String} (good : name ∈ ["A", "B", "C"]) : (path name).Clean := by
  have names : ∀ n ∈ ["A", "B", "C"], Path.IsName n := by decide
  exact Path.clean_rootDir.child (names name good)

theorem clean_documents : ∀ e ∈ documents, ∀ u ∈ e.uris, u.Clean := by
  simp [documents, SourceEntry.uris, entry, clean_path]

theorem reached : index.graph = Graph.run inserted := rfl

theorem clean : ∀ o ∈ inserted, o.Clean := by
  intro o member
  obtain ⟨e, listed, rfl⟩ := List.mem_map.mp member
  simpa [Operation.Clean, Operation.entries] using clean_documents e listed

end Pair

open Pair in
theorem commit_exact_pair :
    ∃ stored after, index.commit (entry "A" [path "C"]) true = (stored, after) ∧
      index.graph.get? (path "B") = some { entry "B" [] with dependedBy := [path "A"] } ∧
      after.store.Backs (entry "B" []) := by
  have clean_entry : ∀ u ∈ (entry "A" [path "C"]).uris, u.Clean := by simp [SourceEntry.uris, entry, clean_path]
  obtain ⟨stored, after, result, done, saved, graph, _, written, _⟩ := commit_exact reached clean clean_entry
  have granted : Succeeds result := by
    have taken : Succeeds (index.store.saveSources (index.touchedBy (entry "A" [path "C"]))).1 := by decide
    rwa [saved] at taken
  have before : index.graph.get? (path "B") = some { entry "B" [] with dependedBy := [path "A"] } := by decide
  have live : after.graph.get? (path "B") = some (entry "B" []) := by
    rw [graph]
    decide
  refine ⟨stored, after, done, before, (written granted).changed _ _ live ?_⟩
  rw [before]
  decide

/-! ## Backed indices -/

/-- Every resident entry is backed, and there are no other rows. -/
structure Backed (x : SourceIndex) : Prop where
  entries : ∀ u d, x.graph.get? u = some d → x.store.Backs d
  rows : ∀ r ∈ x.store.sources, ∃ u, x.graph.contains u = true ∧ r.path = some u.toString

theorem empty_backed : Backed ⟨.empty, .empty⟩ where
  entries := by simp [Graph.get?, Graph.empty]
  rows := by simp [Store.empty]

namespace Backed

/-- A commit that is written keeps the index backed. -/
theorem commit (backed : x.Backed) (t : x.graph.Transposed) (graph : after.graph = x.graph.insert e)
    (done : x.Committed e after) : after.Backed := by
  refine ⟨fun u d live => ?_, fun r row => ?_⟩
  · by_cases here : u ∈ x.affected e
    · exact done.affected u here d live
    · -- The row of an entry that is not affected is the one that backed it before.
      rw [graph, get?_insert_of_unaffected t here] at live
      have before := backed.entries u d live
      have clean : d.uri.Clean := FileUri.canonical_iff_clean.mp before.canonical
      rw [Store.Backs, done.unaffected d.uri clean fun affected => absurd (t.own live ▸ affected) here]
      exact before
  · by_cases written : ∃ u ∈ x.affected e, after.graph.contains u = true ∧ r.path = some u.toString
    · obtain ⟨u, _, live, here⟩ := written
      exact ⟨u, live, here⟩
    · have same := done.others r.path fun u here live path => written ⟨u, here, live, path⟩
      have before := (Store.mem_rowsAt.mp (same ▸ Store.mem_rowsAt.mpr ⟨row, rfl⟩)).1
      obtain ⟨u, live, here⟩ := backed.rows r before
      exact ⟨u, graph ▸ (contains_insert t e u).mpr (.inr live), here⟩

/-- So it stays backed while entries are committed one after the other and the store takes them. -/
theorem commits {entries : List SourceEntry} (backed : x.Backed) (reached : x.graph = Graph.run operations)
    (clean : ∀ o ∈ operations, o.Clean) (clean_entries : ∀ e ∈ entries, ∀ u ∈ e.uris, u.Clean)
    (granted : x.CommitsGranted entries) : (x.commits entries).Backed := by
  induction entries generalizing x operations with
  | nil => exact backed
  | cons e rest ih =>
      have t : x.graph.Transposed := reached ▸ run_transposed operations
      have clean_entry := clean_entries e List.mem_cons_self
      have storable := insert_storable reached clean clean_entry
      have done := ((commit_cases t storable).resolve_right fun refused => refused.1 granted.1).2
      have next : (x.commit e true).2.graph = Graph.run (operations ++ [.insert e]) := by
        rw [run_snoc, ← reached]
        rfl
      exact ih (backed.commit t rfl done) next (clean_snoc clean clean_entry)
        (fun d member => clean_entries d (List.mem_cons_of_mem e member)) granted.2

end Backed

/-! ## Invalidations -/

theorem Backed.canonical (backed : x.Backed) (t : x.graph.Transposed) (live : x.graph.contains u = true) :
    u.Canonical := by
  obtain ⟨d, live⟩ := contains_iff.mp live
  exact t.own live ▸ (backed.entries u d live).canonical

/-- The rows of the removed entries are gone, and all others are as they were. -/
structure Trimmed (x : SourceIndex) (removed : List FileUri) (after : SourceIndex) : Prop where
  table : after.store.sources = x.store.sources.filter fun r => ∀ v ∈ removed, r.path ≠ some v.toString
  /-- An entry that is left has lost the removed ones among its dependents. Its row has not. -/
  left : ∀ v e, after.graph.get? v = some e → ∃ d, x.graph.get? v = some d ∧
    e = { d with dependedBy := d.dependedBy.filter (· ∉ removed) } ∧ after.store.Backs d
  rows : ∀ r ∈ after.store.sources, ∃ v, after.graph.contains v = true ∧ r.path = some v.toString
  frame : x.store.KeepsModules after.store

namespace Trimmed

variable {removed : List FileUri}

/-- The row of an entry that is left is right unless a removed entry depended on it. -/
theorem backs_iff (trimmed : x.Trimmed removed after) (t : x.graph.Transposed) (live : after.graph.get? u = some e) :
    after.store.Backs e ↔ ∀ v ∈ removed, ¬ x.graph.DependsOn v u := by
  obtain ⟨d, before, rfl, backs⟩ := trimmed.left u e live
  have kept : d.dependedBy.filter (· ∉ removed) = d.dependedBy ↔ ∀ v ∈ removed, ¬ x.graph.DependsOn v u := by
    rw [List.filter_eq_self]
    simp only [decide_eq_true_eq, t.mem_dependedBy before]
    exact ⟨fun all v gone edge => all v edge gone, fun all v edge gone => all v gone edge⟩
  rw [← kept]
  constructor
  · intro backs_less
    exact congrArg SourceEntry.dependedBy (backs_less.unique backs rfl)
  · intro same
    rw [same]
    exact backs

/-- The index is still backed unless a removed entry depended on one that is left. -/
theorem backed_iff (trimmed : x.Trimmed removed after) (t : x.graph.Transposed)
    (left : ∀ v, after.graph.contains v = true ↔ v ∉ removed ∧ x.graph.contains v = true) :
    after.Backed ↔ ∀ v ∈ removed, ∀ w, x.graph.DependsOn v w → x.graph.contains w = true → w ∈ removed := by
  constructor
  · intro backed v gone w edge live
    by_contra kept
    obtain ⟨e, live⟩ := contains_iff.mp ((left w).mpr ⟨kept, live⟩)
    exact (trimmed.backs_iff t live).mp (backed.entries w e live) v gone edge
  · intro closed
    refine ⟨fun w e live => (trimmed.backs_iff t live).mpr fun v gone edge => ?_, trimmed.rows⟩
    obtain ⟨kept, live⟩ := (left w).mp (contains_iff.mpr ⟨e, live⟩)
    exact kept (closed v gone w edge live)

end Trimmed

namespace Backed

/-- The rows that are deleted are those of the removed entries, also if the path itself is not live. -/
theorem deleted (backed : x.Backed) (t : x.graph.Transposed) (canonical : u.Canonical) (granted : x.InvalidateGranted u) :
    ((x.invalidate u).2.store.sources =
      x.store.sources.filter fun r => ∀ v ∈ (x.graph.invalidate u).2, r.path ≠ some v.toString) ∧
      x.store.KeepsModules (x.invalidate u).2.store := by
  have cleared := invalidate_cleared t u
  have listed : ∀ v ∈ invalidatedRows x.graph u, FileUri.Canonical v := by
    intro v member
    rcases mem_invalidatedRows.mp member with rfl | gone
    · exact canonical
    · exact backed.canonical t (cleared.live gone)
  rcases Store.remove_whole_or_not listed with ⟨n, after, removed, deleted, _⟩ | ⟨fault, failed, _⟩
  · obtain rfl : (x.invalidate u).2.store = after := congrArg Prod.snd removed
    refine ⟨?_, deleted.frame⟩
    rw [deleted.table]
    apply List.filter_congr
    intro r row
    rw [decide_eq_decide]
    refine ⟨fun all v gone => all v (mem_invalidatedRows.mpr (.inr gone)), fun all v member => ?_⟩
    rcases mem_invalidatedRows.mp member with rfl | gone
    · -- A row of the path itself is of a live entry, which is then removed.
      intro here
      obtain ⟨w, live, path⟩ := backed.rows r row
      obtain rfl : w = v :=
        ((backed.canonical t live).toString_inj canonical).mp (Option.some.inj (path.symm.trans here))
      exact all w ((cleared.mem_removed w).mpr ⟨w, List.mem_singleton_self w, .here live⟩) here
    · exact all v gone
  · rw [InvalidateGranted, failed] at granted
    exact absurd granted (not_succeeds_error fault)

/-- Without the rows of some live entries the others are backed as before. -/
theorem backs_of_kept (backed : x.Backed) (t : x.graph.Transposed) {removed : List FileUri} {d : SourceEntry}
    (gone : ∀ v ∈ removed, x.graph.contains v = true)
    (table : s.sources = x.store.sources.filter fun r => ∀ v ∈ removed, r.path ≠ some v.toString)
    (live : x.graph.get? u = some d) (kept : u ∉ removed) : s.Backs d := by
  have backs := backed.entries u d live
  have same : s.rowsAt (some d.uri.toString) = x.store.rowsAt (some d.uri.toString) := by
    rw [Store.rowsAt, table, List.filter_filter, Store.rowsAt]
    apply List.filter_congr
    intro r _
    rw [Bool.and_eq_left_iff_imp, decide_eq_true_eq, decide_eq_true_eq]
    rintro here v listed path
    rw [here, Option.some.injEq, backs.canonical.toString_inj (backed.canonical t (gone v listed)), t.own live] at path
    exact kept (path ▸ listed)
  rw [Store.Backs, same]
  exact backs

theorem trimmed (backed : x.Backed) (t : x.graph.Transposed) (canonical : u.Canonical)
    (granted : x.InvalidateGranted u) : x.Trimmed (x.graph.invalidate u).2 (x.invalidate u).2 := by
  have cleared := invalidate_cleared t u
  obtain ⟨table, frame⟩ := backed.deleted t canonical granted
  refine ⟨table, fun v e live => ?_, fun r row => ?_, frame⟩
  · have left : (x.graph.invalidate u).1.get? v = some e := live
    rw [cleared.get?_eq t] at left
    split at left
    · cases left
    · rename_i kept
      obtain ⟨d, before, rfl⟩ := Option.map_eq_some_iff.mp left
      exact ⟨d, before, rfl, backed.backs_of_kept t (fun _ => cleared.live) table before kept⟩
  · rw [table, List.mem_filter, decide_eq_true_eq] at row
    obtain ⟨v, live, path⟩ := backed.rows r row.1
    exact ⟨v, (cleared.contains_iff t v).mpr ⟨fun gone => row.2 v gone path, live⟩, path⟩

end Backed

/-- Invalidation in an index that is backed, by a call or for a file that is deleted. Every entry that is left keeps
    the row that it had, so its row is right as long as no removed entry depended on it; otherwise the row lists
    dependents that no longer exist. -/
theorem invalidate_exact (reached : x.graph = Graph.run operations) (backed : x.Backed) (clean : u.Clean)
    (granted : x.InvalidateGranted u) (t : FileTree) :
    ∃ removed after, x.invalidate u = (removed, after) ∧ x.handle t .deleted u = some (.ok (), after) ∧
      (∀ v, v ∈ removed ↔ x.graph.Reaches u v) ∧
      x.Trimmed removed after ∧
      (∀ v e, after.graph.get? v = some e → (after.store.Backs e ↔ ∀ w ∈ removed, ¬ x.graph.DependsOn w v)) ∧
      (after.Backed ↔ ∀ v ∈ removed, ∀ w, x.graph.DependsOn v w → x.graph.contains w = true → w ∈ removed) := by
  have transposed : x.graph.Transposed := reached ▸ run_transposed operations
  have cleared := invalidate_cleared transposed u
  have trimmed := backed.trimmed transposed (FileUri.canonical_iff_clean.mpr clean) granted
  exact ⟨_, _, rfl, rfl, fun v => (cleared.mem_removed v).trans (by simp), trimmed, fun v e => trimmed.backs_iff transposed,
    trimmed.backed_iff transposed (cleared.contains_iff transposed)⟩

namespace Pair

theorem backed : index.Backed := by
  have granted : CommitsGranted ⟨.empty, .empty⟩ documents := by decide
  have nothing : (⟨.empty, .empty⟩ : SourceIndex).graph = Graph.run [] := rfl
  exact empty_backed.commits nothing (by simp) clean_documents granted

theorem granted (u : FileUri) : index.InvalidateGranted u := by
  have yields : index.store.Yields .sources := Store.yields_of_refusals rfl .sources
  obtain ⟨n, _, done⟩ := Store.removeSources_granted yields (invalidatedRows index.graph u)
  exact ⟨n, congrArg Prod.fst done⟩

theorem toList_index : index.graph.toList = [entry "A" [path "B"], { entry "B" [] with dependedBy := [path "A"] }] := by
  decide

theorem transposed : index.graph.Transposed := reached ▸ run_transposed inserted

theorem dependsOn_iff (u v : FileUri) : index.graph.DependsOn u v ↔ u = path "A" ∧ v = path "B" := by
  constructor
  · rintro ⟨e, live, edge⟩
    have listed : e ∈ index.graph.toList := transposed.mem_toList.mpr ((transposed.own live).symm ▸ live)
    rw [toList_index, List.mem_cons, List.mem_singleton] at listed
    rcases listed with rfl | rfl
    · exact ⟨(transposed.own live).symm, List.mem_singleton.mp edge⟩
    · cases edge
  · rintro ⟨rfl, rfl⟩
    exact ⟨entry "A" [path "B"], by decide, List.mem_singleton_self _⟩

theorem not_reaches : ¬ index.graph.Reaches (path "A") (path "B") := by
  intro reaches
  generalize here : path "B" = u at reaches
  cases reaches with
  | here _ => exact absurd here (by decide)
  | step edge _ =>
      rw [← here, dependsOn_iff] at edge
      exact absurd edge.1 (by decide)

end Pair

open Pair in
theorem invalidate_exact_pair :
    ∃ removed after, index.invalidate (path "B") = (removed, after) ∧ path "A" ∈ removed ∧ after.Backed := by
  obtain ⟨removed, after, done, _, cascade, _, _, intact⟩ :=
    invalidate_exact reached backed (clean_path (by simp)) (granted (path "B")) .empty
  have base : path "B" ∈ removed := (cascade _).mpr (.here (by decide))
  refine ⟨removed, after, done, (cascade _).mpr (.step ((dependsOn_iff _ _).mpr ⟨rfl, rfl⟩) ((cascade _).mp base)), ?_⟩
  refine intact.mpr fun v _ w edge _ => ?_
  rwa [((dependsOn_iff v w).mp edge).2]

open Pair in
/-- B is not removed with A, which depends on it, and its row still lists A. -/
theorem stale_dependents_kept : index.graph = Graph.run inserted ∧ index.Backed ∧ index.InvalidateGranted (path "A") ∧
    (index.invalidate (path "A")).2.graph.get? (path "A") = none ∧
    (index.invalidate (path "A")).2.store.Backs { entry "B" [] with dependedBy := [path "A"] } ∧
    ¬ (index.invalidate (path "A")).2.Backed := by
  have cleared := invalidate_cleared transposed (path "A")
  have trimmed := backed.trimmed transposed (FileUri.canonical_iff_clean.mpr (clean_path (by simp))) (granted (path "A"))
  have gone : path "A" ∈ (index.graph.invalidate (path "A")).2 :=
    (cleared.mem_removed _).mpr ⟨_, List.mem_singleton_self _, .here (by decide)⟩
  have kept : path "B" ∉ (index.graph.invalidate (path "A")).2 := by
    intro gone
    obtain ⟨root, chosen, reaches⟩ := (cleared.mem_removed _).mp gone
    obtain rfl := List.mem_singleton.mp chosen
    exact not_reaches reaches
  have live : index.graph.contains (path "B") = true := by decide
  have before : index.graph.get? (path "B") = some { entry "B" [] with dependedBy := [path "A"] } := by decide
  refine ⟨reached, backed, granted (path "A"), ?_, ?_, fun still => ?_⟩
  · change (index.graph.invalidate (path "A")).1.get? (path "A") = none
    rw [cleared.get?_eq transposed, if_pos gone]
  · obtain ⟨e, left⟩ := contains_iff.mp ((cleared.contains_iff transposed _).mpr ⟨kept, live⟩)
    obtain ⟨d, was, _, backs⟩ := trimmed.left _ e left
    obtain rfl := Option.some.inj (before.symm.trans was)
    exact backs
  · have closed := (trimmed.backed_iff transposed (cleared.contains_iff transposed)).mp still
    exact kept (closed _ gone _ ((dependsOn_iff _ _).mpr ⟨rfl, rfl⟩) live)

end SourceIndex

end QmlIndex
