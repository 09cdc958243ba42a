import Mathlib.Data.List.Dedup
import QmlIndex.Proofs.Store.Sources

/-! # Batches of source files

Entries are written in batches and rows are deleted in batches, whatever the table holds. A batch is done as a whole, or
it fails and nothing has happened, however much of it was done before; it fails only for a row without a digest, or if
the database lets fewer rows pass than the batch has.
-/

namespace QmlIndex

namespace Store

variable {s after : Store} {e : SourceEntry} {entries : List SourceEntry} {u : FileUri} {uris : List FileUri}

/-! ## Rejected rows -/

theorem isVoid_iff {text : String} : isVoid text = true ↔ text.toList.takeWhile (· != Char.ofNat 0) = [] := by
  unfold isVoid
  cases text.toList with
  | nil => simp
  | cons c rest => cases same : c == Char.ofNat 0 <;> simp [bne, same]

theorem requireText_eq_ok {column : String} {cell : TextCell} :
    requireText column cell = .ok () ↔ cell.isVoid = false := by
  unfold requireText
  split <;> simp_all

/-- The database does not take a batch: the digest of an entry has no character before the first NUL, or one of the rows
    is refused. -/
def Rejects (s : Store) (entries : List SourceEntry) : Prop :=
  (∃ e ∈ entries, e.contentHash.toList.takeWhile (· != Char.ofNat 0) = []) ∨
    s.Refuses (.of .sources .insert entries.length)

instance : Decidable (s.Rejects entries) := inferInstanceAs (Decidable (_ ∨ _))

theorem not_rejects_iff : ¬ s.Rejects entries ↔
    (∀ e ∈ entries, isVoid e.contentHash = false) ∧ ¬ s.Refuses (.of .sources .insert entries.length) := by
  simp only [Rejects, not_or, not_exists, not_and, ← isVoid_iff, Bool.not_eq_true]

theorem check_ofEntry (canonical : e.uri.Canonical) :
    (SourceRow.ofEntry e).check = .ok () ↔ isVoid e.contentHash = false := by
  have path : requireText "path" (.text e.uri.toString) = .ok () := requireText_eq_ok.mpr (isVoid_toString canonical)
  simp only [SourceRow.check, SourceRow.ofEntry, path]
  exact requireText_eq_ok

/-! ## Writing -/

/-- Put the row of an entry in place of the one with its path. -/
def overwrite (rows : List SourceRow) (e : SourceEntry) : List SourceRow :=
  rows.filter (fun r => r.path ≠ some e.uri.toString) ++ [SourceRow.ofEntry e]

theorem putSource_ofEntry (canonical : e.uri.Canonical) : s.putSource (.ok (SourceRow.ofEntry e)) = .ok after ↔
    isVoid e.contentHash = false ∧ ¬ s.Refuses (.of .sources .insert 1) ∧
      after = { s.spend (.of .sources .insert 1) with sources := overwrite s.sources e } := by
  have rows : s.sources.filter (fun r => r.path.isNone || r.path != (SourceRow.ofEntry e).path) =
      s.sources.filter (fun r => r.path ≠ some e.uri.toString) := by
    apply List.filter_congr
    intro r _
    rw [Bool.eq_iff_iff]
    cases path : r.path <;> simp [SourceRow.ofEntry]
  rw [putSource_eq_ok, check_ofEntry canonical, rows, and_left_comm]
  rfl

/-- A batch goes through if it is not rejected. -/
theorem putSources_eq_ok (canonical : ∀ e ∈ entries, e.uri.Canonical) :
    entries.foldlM (fun s e => s.putSource (.ok (SourceRow.ofEntry e))) s = .ok after ↔ ¬ s.Rejects entries ∧
      after = { s.spend (.of .sources .insert entries.length) with
        sources := entries.foldl overwrite s.sources } := by
  induction entries generalizing s with
  | nil =>
      simp only [not_rejects_iff, List.foldlM_nil, List.length_nil, spend_zero, List.foldl_nil]
      simp [pure, Except.pure, not_refuses_zero, @eq_comm _ s]
  | cons e rest ih =>
      have total : Writes.of .sources .insert (e :: rest).length =
          Writes.of .sources .insert 1 + Writes.of .sources .insert rest.length := by
        rw [Writes.of_add, List.length_cons, Nat.add_comm]
      have later := fun s => ih (s := s) fun d member => canonical d (List.mem_cons_of_mem e member)
      rw [List.foldlM_cons, bind_eq_ok, not_rejects_iff, total, refuses_add, not_or, ← spend_spend, List.forall_mem_cons]
      constructor
      · rintro ⟨middle, first, rest⟩
        obtain ⟨hashed, granted, rfl⟩ := (putSource_ofEntry (canonical e List.mem_cons_self)).mp first
        obtain ⟨taken, same⟩ := (later _).mp rest
        obtain ⟨others, granted_rest⟩ := not_rejects_iff.mp taken
        exact ⟨⟨⟨hashed, others⟩, granted, granted_rest⟩, same⟩
      · rintro ⟨⟨⟨hashed, others⟩, granted, granted_rest⟩, same⟩
        exact ⟨_, (putSource_ofEntry (canonical e List.mem_cons_self)).mpr ⟨hashed, granted, rfl⟩,
          (later _).mpr ⟨not_rejects_iff.mpr ⟨others, granted_rest⟩, same⟩⟩

/-- The last entry of a path in a batch. -/
def lastOf (entries : List SourceEntry) (u : FileUri) : Option SourceEntry := entries.reverse.find? fun e => e.uri = u

theorem find?_overwrite (rows : List SourceRow) (e : SourceEntry) (path : String) :
    (overwrite rows e).find? (fun r => r.path == some path) =
      if e.uri.toString = path then some (SourceRow.ofEntry e) else rows.find? fun r => r.path == some path := by
  rw [overwrite, List.find?_append]
  by_cases here : e.uri.toString = path
  · have gone : (rows.filter fun r => r.path ≠ some e.uri.toString).find? (fun r => r.path == some path) = none := by
      rw [List.find?_eq_none]
      intro r member
      simpa [here] using (List.mem_filter.mp member).2
    rw [gone, if_pos here]
    simp [SourceRow.ofEntry, here]
  · have kept : (rows.filter fun r => r.path ≠ some e.uri.toString).find? (fun r => r.path == some path) =
        rows.find? fun r => r.path == some path := by
      rw [List.find?_filter]
      congr 1
      funext r
      by_cases same : r.path = some path
      · simp [same, Ne.symm here]
      · simp [same]
    rw [kept, if_neg here]
    simp [SourceRow.ofEntry, here]

theorem find?_overwritten (canonical : ∀ e ∈ entries, e.uri.Canonical) (here : u.Canonical) (rows : List SourceRow) :
    (entries.foldl overwrite rows).find? (fun r => r.path == some u.toString) =
      ((lastOf entries u).map SourceRow.ofEntry).or (rows.find? fun r => r.path == some u.toString) := by
  induction entries generalizing rows with
  | nil => rfl
  | cons e rest ih =>
      have later := ih (fun d member => canonical d (List.mem_cons_of_mem e member)) (overwrite rows e)
      have spelled := (canonical e List.mem_cons_self).toString_inj here
      have last : lastOf (e :: rest) u = (lastOf rest u).or (if e.uri = u then some e else none) := by
        rw [lastOf, List.reverse_cons, List.find?_append, ← lastOf]
        by_cases same : e.uri = u <;> simp [same]
      rw [List.foldl_cons, later, find?_overwrite, last]
      cases lastOf rest u with
      | some d => rfl
      | none => by_cases same : e.uri = u <;> simp [spelled, same]

theorem filter_overwrite (rows : List SourceRow) (e : SourceEntry) (path : Option String) :
    (overwrite rows e).filter (fun r => r.path = path) =
      if path = some e.uri.toString then [SourceRow.ofEntry e] else rows.filter fun r => r.path = path := by
  rw [overwrite, List.filter_append, List.filter_filter]
  split
  · rename_i here
    subst here
    simp [SourceRow.ofEntry]
  · rename_i other
    have row : [SourceRow.ofEntry e].filter (fun r => r.path = path) = [] := by simp [SourceRow.ofEntry, Ne.symm other]
    rw [row, List.append_nil]
    apply List.filter_congr
    intro r _
    by_cases same : r.path = path <;> simp [same, other]

theorem filter_overwritten {path : Option String} (other : ∀ e ∈ entries, path ≠ some e.uri.toString)
    (rows : List SourceRow) :
    (entries.foldl overwrite rows).filter (fun r => r.path = path) = rows.filter fun r => r.path = path := by
  induction entries generalizing rows with
  | nil => rfl
  | cons e rest ih =>
      rw [List.foldl_cons, ih fun d member => other d (List.mem_cons_of_mem e member), filter_overwrite,
        if_neg (other e List.mem_cons_self)]

/-- If the entries of a path are all the same, its row is theirs. -/
theorem filter_overwritten_of_mem {path : Option String} (listed : e ∈ entries) (here : path = some e.uri.toString)
    (alone : ∀ d ∈ entries, path = some d.uri.toString → d = e) (rows : List SourceRow) :
    (entries.foldl overwrite rows).filter (fun r => r.path = path) = [SourceRow.ofEntry e] := by
  induction entries generalizing rows with
  | nil => cases listed
  | cons first rest ih =>
      have alone_rest : ∀ d ∈ rest, path = some d.uri.toString → d = e :=
        fun d member => alone d (List.mem_cons_of_mem first member)
      rw [List.foldl_cons]
      by_cases later : e ∈ rest
      · exact ih later alone_rest (overwrite rows first)
      · obtain rfl : e = first := (List.mem_cons.mp listed).resolve_right later
        have other : ∀ d ∈ rest, path ≠ some d.uri.toString :=
          fun d member same => later (alone_rest d member same ▸ member)
        rw [filter_overwritten other, filter_overwrite, if_pos here]

theorem nodup_overwrite {rows : List SourceRow} (distinct : (rows.filterMap SourceRow.path).Nodup) (e : SourceEntry) :
    ((overwrite rows e).filterMap SourceRow.path).Nodup := by
  rw [overwrite, List.filterMap_append, List.nodup_append]
  refine ⟨distinct.sublist (List.filter_sublist.filterMap _), by simp [SourceRow.ofEntry], ?_⟩
  rintro path kept _ last rfl
  obtain ⟨r, member, found⟩ := List.mem_filterMap.mp kept
  obtain rfl : path = e.uri.toString := by simpa [SourceRow.ofEntry] using last
  simp [found] at member

theorem nodup_overwritten {rows : List SourceRow} (distinct : (rows.filterMap SourceRow.path).Nodup)
    (entries : List SourceEntry) : ((entries.foldl overwrite rows).filterMap SourceRow.path).Nodup := by
  induction entries generalizing rows with
  | nil => exact distinct
  | cons e rest ih => exact ih (nodup_overwrite distinct e)

/-- The table is overwritten by a batch from left to right, and nothing else happens. -/
structure Overwritten (s : Store) (entries : List SourceEntry) (after : Store) : Prop where
  table : after.sources = entries.foldl overwrite s.sources
  /-- Of the entries of a path the last one is read. -/
  latest : ∀ u e, lastOf entries u = some e → after.getSource u = .ok (some e)
  /-- The rows of other paths, and those without a path, are the rows that were there. -/
  others : ∀ path, (∀ e ∈ entries, path ≠ some e.uri.toString) →
    after.sources.filter (fun r => r.path = path) = s.sources.filter fun r => r.path = path
  unread : ∀ u, u.Clean → lastOf entries u = none → after.getSource u = s.getSource u
  frame : s.KeepsModules after
  keyed : s.KeyedByPath → after.KeyedByPath

theorem overwritten (storable : ∀ e ∈ entries, e.Storable) :
    s.Overwritten entries { s with sources := entries.foldl overwrite s.sources } where
  table := rfl
  latest := by
    intro u e last
    obtain rfl : e.uri = u := by simpa using List.find?_some last
    have listed : e ∈ entries := List.mem_reverse.mp (List.mem_of_find?_eq_some last)
    have row := find?_overwritten (fun d member => (storable d member).uri) (storable e listed).uri s.sources
    rw [last] at row
    rw [getSource, sourceRow?, row]
    simp only [Option.map_some, Option.some_or, SourceRow.decode_ofEntry (storable e listed)]
    rfl
  others := fun path other => filter_overwritten other s.sources
  unread := by
    intro u clean none
    have canonical : u.Canonical := FileUri.canonical_iff_clean.mpr clean
    have row := find?_overwritten (fun d member => (storable d member).uri) canonical s.sources
    rw [none] at row
    rw [getSource, getSource, sourceRow?, row]
    rfl
  frame := ⟨rfl, rfl, rfl⟩
  keyed := fun distinct => nodup_overwritten distinct entries

/-- Either every row of a batch is written, or the batch is rejected and none is. -/
theorem save_whole_or_not (storable : ∀ e ∈ entries, e.Storable) :
    (∃ after, s.saveSources entries = (.ok entries.length, after) ∧ s.Overwritten entries after ∧
        ¬ s.Rejects entries) ∨
      ∃ fault, s.saveSources entries = (.error fault, s) ∧ s.Rejects entries := by
  have canonical : ∀ e ∈ entries, e.uri.Canonical := fun e member => (storable e member).uri
  by_cases rejected : s.Rejects entries
  · rcases transact_cases s _ with ⟨fault, failed⟩ | ⟨n, after, body, _⟩
    · exact .inr ⟨fault, failed, rejected⟩
    · obtain ⟨stored, done, _⟩ := bind_eq_ok.mp body
      exact absurd rejected ((putSources_eq_ok canonical).mp done).1
  · refine .inl ⟨_, ?_, overwritten storable, rejected⟩
    rw [saveSources, (putSources_eq_ok canonical).mpr ⟨rejected, rfl⟩]
    rfl

/-! ## Deleting -/

/-- The row is of a path. -/
def isAt (u : FileUri) (r : SourceRow) : Bool := r.path == some u.toString

/-- The row is of one of the listed paths. -/
def isListed (uris : List FileUri) (r : SourceRow) : Bool := uris.any (isAt · r)

theorem isListed_cons : isListed (u :: uris) = fun r => isAt u r || isListed uris r := rfl

/-- The rows of the first path are counted first, and then those of the others among the rows that are left. -/
theorem countP_isListed (rows : List SourceRow) : rows.countP (isListed (u :: uris)) =
    rows.countP (isAt u) + (rows.filter (!isAt u ·)).countP (isListed uris) :=
  countP_or (isAt u) (isListed uris) rows

theorem filter_isListed (rows : List SourceRow) :
    (rows.filter (!isAt u ·)).filter (!isListed uris ·) = rows.filter (!isListed (u :: uris) ·) := by
  rw [List.filter_filter]
  apply List.filter_congr
  intro r _
  rw [isListed_cons, Bool.not_or, Bool.and_comm]

theorem deleteSource_eq_ok {n : Nat} {result : Nat × Store} : deleteSource (n, s) u = .ok result ↔
    ¬ s.Refuses (.of .sources .delete (s.sources.countP (isAt u))) ∧
      result = (n + s.sources.countP (isAt u), { s.spend (.of .sources .delete (s.sources.countP (isAt u))) with
        sources := s.sources.filter (!isAt u ·) }) := by
  change (s.deleteSources (isAt u) >>= fun left => .ok (n + s.sources.countP (isAt u), left)) = _ ↔ _
  simp only [bind_eq_ok, deleteSources_eq_ok]
  constructor
  · rintro ⟨_, ⟨granted, rfl⟩, done⟩
    exact ⟨granted, (Except.ok.inj done).symm⟩
  · rintro ⟨granted, rfl⟩
    exact ⟨_, ⟨granted, rfl⟩, rfl⟩

theorem deleteListed_eq_ok {n : Nat} {result : Nat × Store} : uris.foldlM deleteSource (n, s) = .ok result ↔
    ¬ s.Refuses (.of .sources .delete (s.sources.countP (isListed uris))) ∧
      result = (n + s.sources.countP (isListed uris),
        { s.spend (.of .sources .delete (s.sources.countP (isListed uris))) with
          sources := s.sources.filter (!isListed uris ·) }) := by
  induction uris generalizing s n with
  | nil =>
      have rows : s.sources.filter (fun r => !isListed [] r) = s.sources := by simp [isListed]
      have count : s.sources.countP (isListed []) = 0 := by simp [isListed]
      rw [rows, count, List.foldlM_nil, spend_zero]
      constructor
      · intro done
        exact ⟨not_refuses_zero, (Except.ok.inj done).symm⟩
      · rintro ⟨_, rfl⟩
        rfl
  | cons u rest ih =>
      rw [List.foldlM_cons, bind_eq_ok, countP_isListed, ← filter_isListed, ← Writes.of_add, refuses_add, not_or,
        ← spend_spend, ← Nat.add_assoc]
      constructor
      · rintro ⟨_, first, later⟩
        obtain ⟨granted, rfl⟩ := deleteSource_eq_ok.mp first
        obtain ⟨granted_rest, same⟩ := ih.mp later
        exact ⟨⟨granted, granted_rest⟩, same⟩
      · rintro ⟨⟨granted, granted_rest⟩, same⟩
        exact ⟨_, deleteSource_eq_ok.mpr ⟨granted, rfl⟩, ih.mpr ⟨granted_rest, same⟩⟩

theorem any_isListed_iff : s.sources.any (isListed uris) = true ↔ ∃ u ∈ uris, (s.sourceRow? u).isSome = true := by
  simp only [isListed, isAt, sourceRow?, List.any_eq_true, List.find?_isSome]
  constructor
  · rintro ⟨r, row, u, listed, same⟩
    exact ⟨u, listed, r, row, same⟩
  · rintro ⟨u, listed, r, row, same⟩
    exact ⟨r, row, u, listed, same⟩

/-- If paths are a key, there are as many rows to delete as there are distinct paths with a row. -/
theorem countP_isListed_of_keyed (keyed : s.KeyedByPath) (canonical : ∀ u ∈ uris, FileUri.Canonical u) :
    s.sources.countP (isListed uris) = (uris.dedup.filter fun u => (s.sourceRow? u).isSome).length := by
  -- The listed paths with a row, spelled, are the paths of the rows that are listed.
  have spelled : ((uris.dedup.filter fun u => (s.sourceRow? u).isSome).map Path.toString).Perm
      ((s.sources.filter (isListed uris)).filterMap SourceRow.path) := by
    have distinct : ((uris.dedup.filter fun u => (s.sourceRow? u).isSome).map Path.toString).Nodup := by
      refine ((List.nodup_dedup uris).filter _).map_on fun u here v there same => ?_
      have listed : ∀ {w}, w ∈ uris.dedup.filter (fun u => (s.sourceRow? u).isSome) → FileUri.Canonical w :=
        fun member => canonical _ (List.mem_dedup.mp (List.mem_filter.mp member).1)
      exact ((listed here).toString_inj (listed there)).mp same
    refine (List.perm_ext_iff_of_nodup distinct (keyed.sublist (List.filter_sublist.filterMap _))).mpr fun path => ?_
    simp only [List.mem_map, List.mem_filter, List.mem_dedup, List.mem_filterMap, sourceRow?, List.find?_isSome,
      isListed, isAt, List.any_eq_true, beq_iff_eq]
    constructor
    · rintro ⟨u, ⟨listed, r, row, here⟩, rfl⟩
      exact ⟨r, ⟨row, u, listed, here⟩, here⟩
    · rintro ⟨r, ⟨row, u, listed, here⟩, found⟩
      exact ⟨u, ⟨listed, r, row, here⟩, Option.some.inj (here.symm.trans found)⟩
  have named : ((s.sources.filter (isListed uris)).filterMap SourceRow.path).length =
      (s.sources.filter (isListed uris)).length := by
    rw [List.filterMap_length_eq_length]
    intro r member
    obtain ⟨u, _, here⟩ := List.any_eq_true.mp (List.mem_filter.mp member).2
    simp [beq_iff_eq.mp here]
  rw [List.countP_eq_length_filter, ← named, ← spelled.length_eq, List.length_map]

/-- The rows of the listed paths are deleted and counted, and nothing else happens. -/
structure Deleted (s : Store) (uris : List FileUri) (n : Nat) (after : Store) : Prop where
  table : after.sources = s.sources.filter fun r => ∀ u ∈ uris, r.path ≠ some u.toString
  count : s.KeyedByPath → n = (uris.dedup.filter fun u => (s.sourceRow? u).isSome).length
  frame : s.KeepsModules after
  keyed : s.KeyedByPath → after.KeyedByPath

theorem deleted (canonical : ∀ u ∈ uris, FileUri.Canonical u) :
    s.Deleted uris (s.sources.countP (isListed uris)) { s with sources := s.sources.filter (!isListed uris ·) } where
  table := by
    apply List.filter_congr
    intro r _
    rw [Bool.eq_iff_iff]
    simp [isListed, isAt]
  count := fun keyed => countP_isListed_of_keyed keyed canonical
  frame := ⟨rfl, rfl, rfl⟩
  keyed := fun distinct => distinct.sublist (List.filter_sublist.filterMap _)

/-- One of the rows of some paths may not be deleted. -/
def RefusesDeletion (s : Store) (uris : List FileUri) : Prop :=
  s.Refuses (.of .sources .delete (s.sources.countP fun r => ∃ u ∈ uris, r.path = some u.toString))

instance : Decidable (s.RefusesDeletion uris) := inferInstanceAs (Decidable (s.Refuses _))

theorem refusesDeletion_iff :
    s.RefusesDeletion uris ↔ s.Refuses (.of .sources .delete (s.sources.countP (isListed uris))) := by
  have listed : s.sources.countP (fun r => ∃ u ∈ uris, r.path = some u.toString) = s.sources.countP (isListed uris) :=
    List.countP_congr fun r _ => by simp [isListed, isAt]
  rw [RefusesDeletion, listed]

/-- A row that is refused is a row of one of the paths. -/
theorem RefusesDeletion.exists_row (refused : s.RefusesDeletion uris) : ∃ u ∈ uris, (s.sourceRow? u).isSome = true := by
  rw [← any_isListed_iff, List.any_eq_true, ← List.countP_pos_iff]
  by_contra none
  rw [refusesDeletion_iff, Nat.eq_zero_of_not_pos none] at refused
  exact not_refuses_zero refused

/-- Either the rows of all listed paths are deleted, or one of them is refused and none is. -/
theorem remove_whole_or_not (canonical : ∀ u ∈ uris, FileUri.Canonical u) :
    (∃ n after, s.removeSources uris = (.ok n, after) ∧ s.Deleted uris n after ∧ ¬ s.RefusesDeletion uris) ∨
      ∃ fault, s.removeSources uris = (.error fault, s) ∧ s.RefusesDeletion uris ∧
        ∃ u ∈ uris, (s.sourceRow? u).isSome = true := by
  by_cases refused : s.RefusesDeletion uris
  · rcases transact_cases s (uris.foldlM deleteSource (0, s)) with ⟨fault, failed⟩ | ⟨n, after, body, _⟩
    · exact .inr ⟨fault, failed, refused, refused.exists_row⟩
    · exact absurd (refusesDeletion_iff.mp refused) (deleteListed_eq_ok.mp body).1
  · refine .inl ⟨_, _, ?_, deleted canonical, refused⟩
    rw [removeSources, deleteListed_eq_ok.mpr ⟨mt refusesDeletion_iff.mpr refused, rfl⟩, Nat.zero_add]
    rfl

/-- Whatever the tables hold, a batch is done as a whole or not at all. Writing fails only for a batch that the database
    rejects, deleting only if one of the rows may not be deleted. -/
theorem batches_atomic (s : Store) {entries : List SourceEntry} {uris : List FileUri}
    (clean : ∀ e ∈ entries, ∀ u ∈ e.uris, u.Clean) (clean_listed : ∀ u ∈ uris, u.Clean) :
    ((∃ after, s.saveSources entries = (.ok entries.length, after) ∧ s.Overwritten entries after ∧
          ¬ s.Rejects entries) ∨
        ∃ fault, s.saveSources entries = (.error fault, s) ∧ s.Rejects entries) ∧
      ((∃ n after, s.removeSources uris = (.ok n, after) ∧ s.Deleted uris n after ∧ ¬ s.RefusesDeletion uris) ∨
        ∃ fault, s.removeSources uris = (.error fault, s) ∧ s.RefusesDeletion uris ∧
          ∃ u ∈ uris, (s.sourceRow? u).isSome = true) :=
  ⟨save_whole_or_not fun e member => SourceEntry.storable_iff.mpr (clean e member),
    remove_whole_or_not fun u member => FileUri.canonical_iff_clean.mpr (clean_listed u member)⟩

/-! ## A batch that replaces a row twice -/

namespace Twice

def path (name : String) : FileUri := Path.rootDir.child name

def entry (name hash : String) (dependsOn : List FileUri) : SourceEntry where
  uri := path name
  contentHash := hash
  lastModified := -1
  imports := [⟨.file, "./B\"\x00.qml", none, some "b", ⟨⟨0, 0⟩, ⟨0, 17⟩⟩⟩]
  exports := { rootType := some "Item", inlineComponents := ["Chip"] }
  symbols := [⟨"Item", "Item", .object, ⟨⟨1, 0⟩, ⟨4294967295, 1⟩⟩⟩]
  dependsOn
  dependedBy := []

/-- One row that was there, and one that someone else has written without a path. -/
def store : Store where
  sources := [SourceRow.ofEntry (entry "A" "old" []), { SourceRow.ofEntry (entry "A" "old" []) with path := none }]

def batch : List SourceEntry := [entry "A" "first" [], entry "B" "b" [path "A"], entry "A" "last" [path "B", path "A"]]

/-- Two rows may be written and one may be deleted. -/
def narrow : Store where
  sources := store.sources ++ [SourceRow.ofEntry (entry "B" "old" [])]
  refusals := [⟨.sources, .insert, 2⟩, ⟨.sources, .delete, 1⟩]

/-- The digest of the last entry begins with a NUL. -/
def faulty : List SourceEntry := batch ++ [entry "C" "\x00c" []]

theorem clean_path {name : String} (good : name ∈ ["A", "B", "C"]) : (path name).Clean := by
  have names : ∀ n ∈ ["A", "B", "C"], Path.IsName n := by decide
  exact Path.clean_rootDir.child (names name good)

theorem clean_faulty : ∀ e ∈ faulty, ∀ u ∈ e.uris, u.Clean := by
  simp [faulty, batch, SourceEntry.uris, entry, clean_path]

end Twice

open Twice in
theorem batches_atomic_twice :
    (∃ after, store.saveSources batch = (.ok 3, after) ∧ after.sources.length = 3 ∧
      after.getSource (path "A") = .ok (some (entry "A" "last" [path "B", path "A"]))) ∧
    (∃ after, store.removeSources [path "C", path "A", path "A"] = (.ok 1, after) ∧ after.sources.length = 1) ∧
    (∃ fault, store.saveSources faulty = (.error fault, store)) ∧
    (∃ fault, narrow.saveSources batch = (.error fault, narrow)) ∧
    ∃ fault, narrow.removeSources [path "A", path "B"] = (.error fault, narrow) := by
  have clean : ∀ e ∈ batch, ∀ u ∈ e.uris, u.Clean := fun e member => clean_faulty e (List.mem_append_left _ member)
  have listed : ∀ u ∈ [path "C", path "A", path "A"], u.Clean := by simp [clean_path]
  have both : ∀ u ∈ [path "A", path "B"], u.Clean := by simp [clean_path]
  obtain ⟨saved, removed⟩ := batches_atomic store clean listed
  obtain ⟨refused, undeleted⟩ := batches_atomic narrow clean both
  refine ⟨?_, ?_, ?_, ?_, ?_⟩
  · rcases saved with ⟨after, saved, overwritten, _⟩ | ⟨_, _, rejected⟩
    · refine ⟨after, saved, ?_, overwritten.latest _ _ (by decide)⟩
      rw [overwritten.table]
      decide
    · exact absurd rejected (by decide)
  · rcases removed with ⟨n, after, removed, deleted, _⟩ | ⟨_, _, refused, _⟩
    · have one : n = 1 := (deleted.count (by unfold KeyedByPath; decide)).trans (by decide)
      refine ⟨after, one ▸ removed, ?_⟩
      rw [deleted.table]
      decide
    · exact absurd refused (by decide)
  · rcases (batches_atomic store clean_faulty listed).1 with ⟨_, _, _, taken⟩ | ⟨fault, failed, _⟩
    · exact absurd (by decide) taken
    · exact ⟨fault, failed⟩
  · rcases refused with ⟨_, _, _, taken⟩ | ⟨fault, failed, _⟩
    · exact absurd (by decide) taken
    · exact ⟨fault, failed⟩
  · rcases undeleted with ⟨_, _, _, _, granted⟩ | ⟨fault, failed, _⟩
    · exact absurd (by decide) granted
    · exact ⟨fault, failed⟩

end Store

end QmlIndex
