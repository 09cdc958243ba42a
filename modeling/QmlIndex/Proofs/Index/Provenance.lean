import QmlIndex.Proofs.Index.Current
import QmlIndex.Proofs.Store.Sources

/-! # Where entries come from

Every entry that is ever resident or stored was made from the text of some file: its edges, imports, exports and
symbols follow from the bytes that its digest is of. This holds whatever happens to the files and whichever calls
of the store fail. If no two of the contents that occur have one digest, an entry with the digest and the time of
a file is therefore the one that the file calls for, and using it again is as good as reading the file.
-/

namespace QmlIndex

namespace Digest

/-- A digest starts with a hexadecimal digit. -/
theorem isVoid_ofBytes (bytes : List UInt8) : isVoid (ofBytes bytes) = false := by
  have digit : ∀ n : Fin 16, Nat.digitChar n ≠ Char.ofNat 0 := by decide
  have words : ∃ w rest, (root bytes).digest.toList = w :: rest := by
    simp only [Node.digest, compress, Array.toList_map, Array.toList_range]
    exact ⟨_, _, rfl⟩
  obtain ⟨w, rest, shape⟩ := words
  simp only [isVoid, ofBytes, shape, String.toList_ofList, List.flatMap_cons, wordBytes, hexByte, List.cons_append,
    List.head?_cons, Option.all_some, beq_eq_false_iff_ne]
  have small : w.toUInt8.toNat / 16 < 16 := by
    have := w.toUInt8.toNat_lt
    omega
  exact digit ⟨_, small⟩

/-- No two of the contents that satisfy a condition have one digest. -/
def Distinguishes (P : ByteArray → Prop) : Prop := ∀ a b, P a → P b → ofBytes a.toList = ofBytes b.toList → a = b

end Digest

/-! ## Files -/

/-- Files and directories have names that a path can spell, and the contents satisfy a condition. -/
structure FileTree.Proper (P : ByteArray → Prop) (t : FileTree) : Prop where
  canonical : ∀ {q node}, t.nodes.get? q = some node → FileUri.Canonical q
  content : ∀ {q f}, t.nodes.get? q = some (.file f) → P f.content

namespace FileTree

variable {P : ByteArray → Prop} {t : FileTree} {u : FileUri} {f : File}

theorem proper_empty : empty.Proper P := ⟨by simp [empty], by simp [empty]⟩

theorem Proper.insert (proper : t.Proper P) {place : Path} (canonical : FileUri.Canonical place) {node : Node}
    (content : ∀ f, node = .file f → P f.content) : Proper P { t with nodes := t.nodes.insert place node } where
  canonical := by
    intro q there found
    rw [OrdMap.get?_insert] at found
    split at found
    · rename_i here
      rw [here]
      exact canonical
    · exact proper.canonical found
  content := by
    intro q g found
    rw [OrdMap.get?_insert] at found
    split at found
    · exact content g (Option.some.inj found)
    · exact proper.content found

theorem get?_of_file (h : t.file u = .ok f) : ∃ place, t.locate u = .ok place ∧ place ≠ .rootDir ∧
    t.nodes.get? place = some (.file f) := by
  obtain ⟨place, located, found⟩ := find_eq_ok.mp (file_eq_ok.mp h)
  rw [at?] at found
  split at found
  · simp at found
  · rename_i below
    exact ⟨place, located, below, found⟩

theorem Proper.content_of_file (proper : t.Proper P) (h : t.file u = .ok f) : P f.content := by
  obtain ⟨_, _, _, found⟩ := get?_of_file h
  exact proper.content found

theorem ne_rootDir_of_file (plain : u.Plain) (h : t.file u = .ok f) : u ≠ .rootDir := by
  obtain ⟨place, located, below, _⟩ := get?_of_file h
  rw [← locate_plain plain located]
  exact below

end FileTree

/-- A listing that starts at a canonical path lists canonical paths. -/
theorem Matcher.canonical_of_mem_walk {m : Matcher} {P : ByteArray → Prop} {t : FileTree} (root : FileUri.Canonical m.root)
    (proper : t.Proper P) {p : Path} (listed : p ∈ m.walk t) : FileUri.Canonical p := by
  rw [walk] at listed
  split at listed
  · rename_i place located
    obtain rfl := FileTree.locate_plain root.plain located
    obtain ⟨below, chosen, rfl⟩ := List.mem_map.mp listed
    obtain ⟨⟨path, node⟩, there, found⟩ := List.mem_filterMap.mp (List.mem_filter.mp chosen).1
    cases node with
    | directory => simp at found
    | file f =>
        simp only [Path.below?] at found
        split at found
        · rename_i inside
          obtain ⟨rest, whole⟩ := List.isPrefixOf_iff_prefix.mp inside
          -- What is listed is the path of the root and then the rest of a file's path, so the file's path.
          have same : (⟨m.root.parts ++ below⟩ : Path) = path := by
            cases path
            simp only at whole found
            rw [← whole, List.drop_left] at found
            rw [← Option.some.inj found, whole]
          rw [same]
          exact proper.canonical (OrdMap.get?_eq_some.mpr there)
        · simp at found
  · simp at listed

theorem Matcher.canonical_normalize {m : Matcher} {P : ByteArray → Prop} {t : FileTree} (root : FileUri.Canonical m.root)
    (proper : t.Proper P) : ∀ p ∈ m.walk t, FileUri.Canonical p.normalize := by
  intro p listed
  have canonical := m.canonical_of_mem_walk root proper listed
  rw [canonical.plain.normalize_eq]
  exact canonical

/-! ## Entries -/

namespace SourceEntry

/-- The entry was made from the text of a file at its path, up to the edges towards it. -/
structure Made (P : ByteArray → Prop) (e : SourceEntry) : Prop where
  canonical : e.uri.Canonical
  below : e.uri ≠ .rootDir
  source : ∃ content text d, P content ∧ String.fromUTF8? content = some text ∧
    Document.parse text.toList = .parsed d ∧
    e.forward = ofDocument e.uri (Digest.ofBytes content.toList) e.lastModified d

variable {P : ByteArray → Prop} {e : SourceEntry}

theorem made_forward : e.forward.Made P ↔ e.Made P :=
  ⟨fun h => ⟨h.canonical, h.below, h.source⟩, fun h => ⟨h.canonical, h.below, h.source⟩⟩

theorem Made.dependsOn (h : e.Made P) : ∀ v ∈ e.dependsOn, FileUri.Canonical v := by
  obtain ⟨content, text, d, _, _, _, same⟩ := h.source
  have edges : e.dependsOn = fileDependencies e.uri d.summary.imports := congrArg SourceEntry.dependsOn same
  intro v member
  rw [edges, fileDependencies, mem_sortPaths, List.mem_filter, List.mem_map] at member
  obtain ⟨⟨i, _, rfl⟩, _⟩ := member
  exact h.canonical.resolve h.below i.source

theorem Made.hashed (h : e.Made P) : isVoid e.contentHash = false := by
  obtain ⟨content, _, _, _, _, _, same⟩ := h.source
  rw [show e.contentHash = Digest.ofBytes content.toList from congrArg contentHash same]
  exact Digest.isVoid_ofBytes _

end SourceEntry

/-- The dependents of an entry are live, so it can be stored if all live entries are of files and depend on files. -/
theorem Graph.Transposed.storable {g : Graph} (t : g.Transposed) {u : FileUri} {e : SourceEntry}
    (canonical : ∀ {v d}, g.get? v = some d → d.uri.Canonical ∧ ∀ w ∈ d.dependsOn, FileUri.Canonical w)
    (live : g.get? u = some e) : e.Storable where
  uri := (canonical live).1
  dependsOn := (canonical live).2
  dependedBy := by
    intro v member
    obtain ⟨d, source, _⟩ := (t.mem_dependedBy live).mp member
    exact t.own source ▸ (canonical source).1

namespace SourceIndex

open FileTree

variable {P : ByteArray → Prop} {t : FileTree} {u : FileUri} {e : SourceEntry}

theorem made_of_described (proper : t.Proper P) (canonical : u.Canonical) (h : described t u = some e) : e.Made P := by
  obtain ⟨f, text, d, found, decoded, parsed, rfl⟩ := described_eq_some.mp h
  exact ⟨canonical, ne_rootDir_of_file canonical.plain found,
    f.content, text, d, proper.content_of_file found, decoded, parsed, rfl⟩

/-- A made entry with the digest and the time of a file is what the file calls for, if no two contents that occur
    have one digest. -/
theorem described_of_isCurrent {f : File} (distinct : Digest.Distinguishes P) (proper : t.Proper P) (made : e.Made P)
    (found : t.file e.uri = .ok f)
    (current : e.isCurrent (Digest.ofBytes f.content.toList) f.time = true) : described t e.uri = some e.forward := by
  obtain ⟨content, text, d, occurs, decoded, parsed, same⟩ := made.source
  rw [SourceEntry.isCurrent, Bool.and_eq_true, beq_iff_eq, beq_iff_eq] at current
  obtain ⟨hash, time⟩ := current
  have digest : e.contentHash = Digest.ofBytes content.toList := congrArg SourceEntry.contentHash same
  -- The entry need not have been made from this file, but it was made from these bytes.
  obtain rfl : content = f.content := distinct _ _ occurs (proper.content_of_file found) (digest.symm.trans hash)
  rw [time] at same
  exact described_eq_some.mpr ⟨f, text, d, found, decoded, parsed, same⟩

/-- A file is served from the resident entry, or examined as if there were none. -/
theorem examine_cases (t : FileTree) (u : FileUri) (resident : Option SourceEntry) :
    (∃ f e, t.file u = .ok f ∧ resident = some e ∧ e.isCurrent (Digest.ofBytes f.content.toList) f.time = true ∧
      examine t u resident = some (.ok (e, .cached))) ∨ examine t u resident = examine t u none := by
  cases found : t.file u with
  | error fault =>
      right
      simp only [examine, found]
  | ok f =>
      cases kept : resident.filter (·.isCurrent (Digest.ofBytes f.content.toList) f.time) with
      | none =>
          right
          simp only [examine, found, kept, Option.filter_none]
      | some e =>
          left
          obtain ⟨rfl, current⟩ := Option.filter_eq_some_iff.mp kept
          refine ⟨f, e, rfl, rfl, current, ?_⟩
          simp only [examine, found, kept]

/-- What indexing a file does, if it returns: a current entry is left alone, a file that calls for nothing changes
    nothing, and any other file gets the entry that it calls for. -/
theorem indexFile_cases {x : SourceIndex} {t : FileTree} {u : FileUri} {persist : Bool}
    {done : Result (SourceEntry × Outcome) × SourceIndex} (returns : x.indexFile t u persist = some done) :
    (∃ f e, t.file u = .ok f ∧ x.graph.get? u = some e ∧
      e.isCurrent (Digest.ofBytes f.content.toList) f.time = true ∧ done = (.ok (e, .cached), x)) ∨
    (described t u = none ∧ ∃ fault, done = (.error fault, x)) ∨
    ∃ e, described t u = some e ∧ examine t u (x.graph.get? u) = some (.ok (e, .parsed)) ∧
      done = (.ok ((x.commit e persist).1, .parsed), (x.commit e persist).2) := by
  obtain ⟨found, examined, rfl⟩ := Option.map_eq_some_iff.mp returns
  rcases examine_cases t u (x.graph.get? u) with ⟨f, e, here, live, current, cached⟩ | afresh
  · obtain rfl := Option.some.inj (cached.symm.trans examined)
    exact .inl ⟨f, e, here, live, current, rfl⟩
  · right
    rw [described, ← afresh, examined]
    cases found with
    | error fault => exact .inl ⟨rfl, fault, rfl⟩
    | ok result =>
        obtain ⟨e, o⟩ := result
        obtain ⟨rfl, _⟩ := examine_none_eq_ok.mp (afresh ▸ examined)
        exact .inr ⟨e, rfl, rfl, rfl⟩

/-- The paths whose rows an invalidation deletes. -/
def invalidatedRows (g : Graph) (u : FileUri) : List FileUri :=
  if u ∈ (g.invalidate u).2 then (g.invalidate u).2 else (g.invalidate u).2 ++ [u]

theorem mem_invalidatedRows {g : Graph} {u v : FileUri} :
    v ∈ invalidatedRows g u ↔ v = u ∨ v ∈ (g.invalidate u).2 := by
  rw [invalidatedRows]
  split
  · rename_i listed
    constructor
    · exact .inr
    · rintro (rfl | member)
      · exact listed
      · exact member
  · simp [or_comm]

/-! ## What is resident and what is stored -/

/-- The resident entries and the stored ones were made from files, both directions of dependence agree, and the
    store differs from `base` in the source files only. -/
structure Genuine (P : ByteArray → Prop) (base : Store) (x : SourceIndex) : Prop where
  transposed : x.graph.Transposed
  made : ∀ {u e}, x.graph.forward? u = some e → e.Made P
  rows : ∃ m, x.store.HoldsSources m ∧ ∀ e ∈ m.values, e.Made P
  frame : base.KeepsModules x.store

namespace Genuine

variable {base : Store} {x : SourceIndex} {p : Progress}

theorem made_of_get? (g : x.Genuine P base) (live : x.graph.get? u = some e) : e.Made P := by
  apply SourceEntry.made_forward.mp
  apply g.made (u := u)
  rw [Graph.forward?, live, Option.map_some]

/-- The paths of a resident entry are those of documents, so the entry can be stored. -/
theorem storable (g : x.Genuine P base) (live : x.graph.get? u = some e) : e.Storable :=
  g.transposed.storable (fun here => ⟨(g.made_of_get? here).canonical, (g.made_of_get? here).dependsOn⟩) live

/-- Any of the resident entries may be written. -/
theorem save (g : x.Genuine P base) {entries : List SourceEntry} (live : ∀ e ∈ entries, ∃ u, x.graph.get? u = some e) :
    Genuine P base ⟨x.graph, (x.store.saveSources entries).2⟩ := by
  obtain ⟨m, held, made⟩ := g.rows
  have storable : ∀ e ∈ entries, e.Storable := by
    intro e member
    obtain ⟨u, here⟩ := live e member
    exact g.storable here
  rcases held.save storable with ⟨fault, failed⟩ | ⟨n, after, saved, holds, kept⟩
  · rw [failed]
    exact ⟨g.transposed, g.made, ⟨m, held, made⟩, g.frame⟩
  · rw [saved]
    refine ⟨g.transposed, g.made, ⟨_, holds, fun e member => ?_⟩, g.frame.trans kept⟩
    rcases OrdMap.mem_values_insertAll member with ⟨_, listed⟩ | before
    · obtain ⟨d, chosen, same⟩ := List.mem_map.mp listed
      obtain ⟨_, rfl⟩ := Prod.mk.inj same
      obtain ⟨u, here⟩ := live d chosen
      exact g.made_of_get? here
    · exact made e before

theorem commit (g : x.Genuine P base) (made : e.Made P) (persist : Bool) : (x.commit e persist).2.Genuine P base := by
  have inserted : Genuine P base ⟨x.graph.insert e, x.store⟩ := by
    refine ⟨g.transposed.insert e, ?_, g.rows, g.frame⟩
    intro u d live
    rw [Graph.forward?_insert g.transposed] at live
    split at live
    · obtain rfl := Option.some.inj live
      exact SourceEntry.made_forward.mpr made
    · exact g.made live
  cases persist with
  | false => exact inserted
  | true =>
      apply inserted.save
      intro d member
      obtain ⟨u, _, live⟩ := List.mem_filterMap.mp member
      exact ⟨u, live⟩

theorem indexFile (g : x.Genuine P base) (proper : t.Proper P) (canonical : u.Canonical) {persist : Bool}
    {done : Result (SourceEntry × Outcome) × SourceIndex} (returns : x.indexFile t u persist = some done) :
    done.2.Genuine P base := by
  rcases indexFile_cases returns with ⟨_, _, _, _, _, rfl⟩ | ⟨_, _, rfl⟩ | ⟨e, called, _, rfl⟩
  · exact g
  · exact g
  · exact g.commit (made_of_described proper canonical called) persist

theorem canonical_of_mem_invalidatedRows (g : x.Genuine P base) (canonical : u.Canonical) :
    ∀ v ∈ invalidatedRows x.graph u, FileUri.Canonical v := by
  intro v member
  rcases mem_invalidatedRows.mp member with rfl | removed
  · exact canonical
  · obtain ⟨e, live⟩ := Graph.contains_iff.mp ((Graph.invalidate_cleared g.transposed u).live removed)
    rw [← g.transposed.own live]
    exact (g.made_of_get? live).canonical

theorem invalidate (g : x.Genuine P base) (canonical : u.Canonical) : (x.invalidate u).2.Genuine P base := by
  have cleared := Graph.invalidate_cleared g.transposed u
  have kept : ∀ {v e}, (x.graph.invalidate u).1.forward? v = some e → e.Made P := by
    intro v e live
    rw [cleared.forward] at live
    split at live
    · simp at live
    · exact g.made live
  obtain ⟨m, held, made⟩ := g.rows
  rcases held.remove (g.canonical_of_mem_invalidatedRows canonical) with
    ⟨fault, failed⟩ | ⟨n, after, done, holds, unchanged⟩
  · have store : (x.invalidate u).2.store = x.store := congrArg Prod.snd failed
    exact ⟨cleared.transposed, kept, store ▸ ⟨m, held, made⟩, store ▸ g.frame⟩
  · have store : (x.invalidate u).2.store = after := congrArg Prod.snd done
    refine ⟨cleared.transposed, kept, store ▸ ⟨_, holds, fun e member => ?_⟩, store ▸ g.frame.trans unchanged⟩
    rw [held.own.values_filter, List.mem_filter] at member
    exact made e member.1

theorem handle (g : x.Genuine P base) (proper : t.Proper P) {event : FileEvent} (canonical : u.Canonical)
    {done : Result Unit × SourceIndex} (returns : x.handle t event u = some done) : done.2.Genuine P base := by
  have cleared := g.invalidate canonical
  cases event with
  | deleted =>
      obtain rfl := Option.some.inj returns
      exact cleared
  | created | changed =>
      obtain ⟨indexed, here, rfl⟩ := Option.map_eq_some_iff.mp returns
      exact cleared.indexFile proper canonical here

theorem getOrIndex (g : x.Genuine P base) (proper : t.Proper P) (canonical : u.Canonical)
    {done : Result (Option SourceEntry) × SourceIndex} (returns : x.getOrIndex t u = some done) :
    done.2.Genuine P base := by
  rw [SourceIndex.getOrIndex] at returns
  split at returns
  · obtain rfl := Option.some.inj returns
    exact g
  · split at returns
    · obtain ⟨indexed, here, rfl⟩ := Option.map_eq_some_iff.mp returns
      exact g.indexFile proper canonical here
    · obtain rfl := Option.some.inj returns
      exact g

theorem step (g : p.index.Genuine P base) (proper : t.Proper P) {path : Path}
    (canonical : FileUri.Canonical path.normalize) {q : Progress} (returns : p.step t path = some q) :
    q.index.Genuine P base := by
  obtain ⟨done, indexed, rfl⟩ := Progress.step_eq_some.mp returns
  rw [Progress.enter_index]
  exact g.indexFile proper canonical indexed

theorem persist (g : x.Genuine P base) (produced : List SourceEntry) : (x.persist produced).Genuine P base := by
  apply g.save
  intro e member
  obtain ⟨d, _, kept⟩ := List.mem_filterMap.mp member
  exact ⟨d.uri, (Option.filter_eq_some_iff.mp kept).1⟩

theorem steps (g : p.index.Genuine P base) (proper : t.Proper P) {paths : List Path}
    (canonical : ∀ q ∈ paths, FileUri.Canonical q.normalize) {q : Progress}
    (returns : paths.foldlM (Progress.step t) p = some q) : q.index.Genuine P base := by
  induction paths generalizing p with
  | nil =>
      obtain rfl := Option.some.inj returns
      exact g
  | cons path rest ih =>
      obtain ⟨mid, first, others⟩ := Progress.steps_cons.mp returns
      exact ih (g.step proper (canonical path List.mem_cons_self) first)
        (fun q member => canonical q (List.mem_cons_of_mem path member)) others

theorem scanBatch {s s' : ScanStats × SourceIndex} (g : s.2.Genuine P base) (proper : t.Proper P) {batch : List Path}
    (canonical : ∀ p ∈ batch, FileUri.Canonical p.normalize) (returns : scanBatch t s batch = some s') :
    s'.2.Genuine P base := by
  obtain ⟨p, settled, rfl⟩ := scanBatch_eq_some.mp returns
  exact (steps (p := ⟨s.1, [], s.2⟩) g proper canonical settled).persist _

theorem batches {s s' : ScanStats × SourceIndex} (g : s.2.Genuine P base) (proper : t.Proper P)
    {batches : List (List Path)} (canonical : ∀ p ∈ batches.flatten, FileUri.Canonical p.normalize)
    (returns : batches.foldlM (SourceIndex.scanBatch t) s = some s') : s'.2.Genuine P base := by
  induction batches generalizing s with
  | nil =>
      obtain rfl := Option.some.inj returns
      exact g
  | cons batch rest ih =>
      rw [List.flatten_cons] at canonical
      obtain ⟨mid, first, others⟩ := batches_cons.mp returns
      exact ih (g.scanBatch proper (fun p member => canonical p (List.mem_append_left rest.flatten member)) first)
        (fun p member => canonical p (List.mem_append_right batch member)) others

theorem scanBatches (g : x.Genuine P base) (proper : t.Proper P) {batches : List (List Path)}
    (canonical : ∀ p ∈ batches.flatten, FileUri.Canonical p.normalize) {done : ScanStats × SourceIndex}
    (returns : x.scanBatches t batches = some done) : done.2.Genuine P base := by
  obtain ⟨last, settled, rfl⟩ := scanBatches_eq_some.mp returns
  have last := Genuine.batches (s := ({ files := batches.flatten.length }, x)) g proper canonical settled
  refine ⟨last.transposed.rebuild, ?_, last.rows, last.frame⟩
  intro u e live
  exact last.made ((Graph.forward?_rebuild _ u).symm.trans live)

theorem scan (g : x.Genuine P base) (proper : t.Proper P) {m : Matcher} (root : FileUri.Canonical m.root)
    {batchSize : Nat} {done : ScanStats × SourceIndex} (returns : x.scan t m batchSize = some done) :
    done.2.Genuine P base := by
  refine g.scanBatches proper ?_ returns
  rw [flatten_pieces]
  exact m.canonical_normalize root proper

/-- What is read back from the store was made from files, also if the files are not those any more. -/
theorem load (g : x.Genuine P base) (t : FileTree) : (x.load t).2.Genuine P base := by
  obtain ⟨m, held, made⟩ := g.rows
  rcases held.load t with ⟨fault, failed⟩ | ⟨entries, after, done, listed, holds, unchanged⟩
  · rw [SourceIndex.load, failed]
    exact g
  · have kept : ∀ e ∈ (Store.currentSources t m).values, e.Made P := by
      intro e member
      rw [Store.currentSources, held.own.values_filter, List.mem_filter] at member
      exact made e member.1
    rw [SourceIndex.load, done]
    refine ⟨Graph.load_transposed entries, ?_, ⟨_, holds, kept⟩, g.frame.trans unchanged⟩
    intro u e live
    rw [Graph.forward?_load] at live
    obtain ⟨d, found, rfl⟩ := Option.map_eq_some_iff.mp live
    have member := List.mem_reverse.mp (List.mem_of_find?_eq_some found)
    exact SourceEntry.made_forward.mpr (kept d (listed.mem_iff.mp member))

theorem clear (g : x.Genuine P base) : x.clear.2.Genuine P base := by
  rcases x.store.clearSources_cases with ⟨fault, failed⟩ | ⟨after, done, holds, unchanged⟩
  · rw [SourceIndex.clear, failed]
    exact g
  · rw [SourceIndex.clear, done]
    refine ⟨Graph.empty_transposed, ?_, ⟨.empty, holds, by simp⟩,
      g.frame.trans unchanged⟩
    intro u e live
    simp [Graph.forward?, Graph.get?, Graph.empty] at live

end Genuine

end SourceIndex

end QmlIndex
