import QmlIndex.Proofs.Index.Rescan
import QmlIndex.Proofs.Listing

/-! # Failures are isolated

A call that fails on one file leaves everything as it was, and a change that cannot be read leaves what the
invalidation of its path leaves. In a scan the files that fail make no difference to the others: the graph is that of
a scan without them, each of them is reported once with its own fault, and what the others produced is stored. A file
that is read for ever does not fail: it keeps the scan from its end.
-/

namespace QmlIndex

/-- The rows of two entries differ in more than the edges towards them if the entries do. -/
theorem SourceRow.forward_inj {d e : SourceEntry} (storable_d : d.Storable) (storable_e : e.Storable)
    (same : (SourceRow.ofEntry d).forward = (SourceRow.ofEntry e).forward) : d.forward = e.forward := by
  have storable : ∀ {e : SourceEntry}, e.Storable → e.forward.Storable :=
    fun h => ⟨h.uri, h.dependsOn, by simp [SourceEntry.forward]⟩
  have whole : ∀ e : SourceEntry, SourceRow.ofEntry e.forward =
      { (SourceRow.ofEntry e).forward with dependedBy := (SourceEntry.urisToJson []).render } := fun _ => rfl
  have read := SourceRow.decode_ofEntry (storable storable_d)
  rw [whole, same, ← whole, SourceRow.decode_ofEntry (storable storable_e)] at read
  exact (Except.ok.inj read).symm

namespace SourceIndex

open QmlIndex.Graph

variable {P : ByteArray → Prop} {base : Store} {x : SourceIndex} {t : FileTree} {u : FileUri} {fault : Error}

/-! ## One file -/

/-- Why a file can neither be served from its entry nor parsed. -/
def fault? (x : SourceIndex) (t : FileTree) (u : FileUri) : Option Error :=
  match examine t u (x.graph.get? u) with
  | some (.error fault) => some fault
  | _ => none

/-- What is wrong with a file itself: it cannot be read, is no text, or is no document. -/
inductive Faulty (t : FileTree) (u : FileUri) : Error → Prop
  | unreadable {fault : Error} (read : t.file u = .error fault) : Faulty t u fault
  | notText {f : File} (read : t.file u = .ok f) (decoded : String.fromUTF8? f.content = none) :
      Faulty t u (.parse (u.toString ++ " is not valid UTF-8"))
  | malformed {f : File} {text : String} {fault : Document.Fault} (read : t.file u = .ok f)
      (decoded : String.fromUTF8? f.content = some text) (parsed : Document.parse text.toList = .failed fault) :
      Faulty t u (.parse fault.message)

theorem faulty_of_examine (h : examine t u none = some (.error fault)) : Faulty t u fault := by
  cases read : t.file u with
  | error cause =>
      simp only [examine, read, Option.some.injEq, Except.error.injEq] at h
      exact h ▸ .unreadable read
  | ok f =>
      simp only [examine, read, Option.filter_none] at h
      cases decoded : String.fromUTF8? f.content with
      | none =>
          simp only [decoded, Option.some.injEq, Except.error.injEq] at h
          exact h ▸ .notText read decoded
      | some text =>
          simp only [decoded, readDocument] at h
          cases parsed : Document.parse text.toList with
          | parsed d => simp [parsed, Except.map] at h
          | failed cause =>
              simp only [parsed, Option.map_some, Except.map, Option.some.injEq, Except.error.injEq] at h
              exact h ▸ .malformed read decoded parsed
          | stuck => simp [parsed] at h

theorem examine_ne_none_of_fault? (h : x.fault? t u = some fault) : examine t u (x.graph.get? u) ≠ none := by
  intro endless
  simp [fault?, endless] at h

/-- A file that fails does so through its own fault, whatever is resident. -/
theorem faulty_of_fault? (h : x.fault? t u = some fault) : Faulty t u fault := by
  apply faulty_of_examine
  rw [fault?] at h
  rcases examine_cases t u (x.graph.get? u) with ⟨_, _, _, _, _, served⟩ | afresh
  · simp [served] at h
  · rw [afresh] at h
    split at h
    · rename_i failed
      rw [failed, Option.some.inj h]
    · simp at h

theorem indexFile_error {persist : Bool} {after : SourceIndex}
    (failed : x.indexFile t u persist = some (.error fault, after)) : after = x := by
  rcases indexFile_cases failed with ⟨_, _, _, _, _, same⟩ | ⟨_, _, same⟩ | ⟨_, _, _, same⟩
  · exact congrArg Prod.snd same
  · exact congrArg Prod.snd same
  · cases congrArg Prod.fst same

theorem map_eq_error {α β : Type} {f : α → β} {result : Result α} (h : result.map f = .error fault) :
    result = .error fault := by
  cases result with
  | error cause => exact congrArg Except.error (Except.error.inj h)
  | ok a => simp [Except.map] at h

/-- A call that answers with what indexing a file comes to fails if that fails, and leaves what that leaves. -/
theorem indexFile_error_of_map {α : Type} {f : SourceEntry × Outcome → α} {persist : Bool} {after : SourceIndex}
    (failed : (x.indexFile t u persist).map (fun (result, x) => (result.map f, x)) = some (.error fault, after)) :
    after = x := by
  obtain ⟨⟨result, y⟩, indexed, same⟩ := Option.map_eq_some_iff.mp failed
  obtain ⟨mapped, rfl⟩ := Prod.mk.inj same
  rw [map_eq_error mapped] at indexed
  exact indexFile_error indexed

theorem getOrIndex_error {after : SourceIndex} (failed : x.getOrIndex t u = some (.error fault, after)) : after = x := by
  rw [getOrIndex] at failed
  split at failed
  · simp at failed
  · split at failed
    · exact indexFile_error_of_map failed
    · exact (congrArg Prod.snd (Option.some.inj failed)).symm

theorem handle_error {event : FileEvent} {after : SourceIndex}
    (failed : x.handle t event u = some (.error fault, after)) : after = (x.invalidate u).2 := by
  cases event with
  | deleted => simp [handle] at failed
  | created | changed => exact indexFile_error_of_map failed

theorem failure?_eq (x : SourceIndex) (t : FileTree) (p : Path) :
    Ledger.failure? t ⟨0, x.graph.forward?⟩ p = (x.fault? t p.normalize).map fun fault => ⟨p, fault.message⟩ := by
  have seen := examine_forward t p.normalize (x.graph.get? p.normalize)
  simp only [Ledger.failure?, forward?, seen, fault?]
  rcases examine t p.normalize (x.graph.get? p.normalize) with _ | cause | found <;> rfl

/-! ## What members under way make -/

namespace Running

open Relation

/-- What is resident or under way was made from files, and so will be what is waiting. -/
structure Genuine (P : ByteArray → Prop) (base : Store) (r : Running) : Prop where
  waiting : ∀ path ∈ r.waiting, FileUri.Canonical path.normalize
  parsing : ∀ member ∈ r.parsing, SourceEntry.Made P member.2
  index : r.progress.index.Genuine P base

theorem Step.genuine {r after : Running} (step : Step t r after) (proper : t.Proper P) (g : r.Genuine P base) :
    after.Genuine P base := by
  cases step with
  | @parse path rest e next free seen =>
      have canonical := g.waiting path (next ▸ Multiset.mem_cons_self _ _)
      have made : e.Made P := made_of_described proper canonical (Ledger.described_of_parsed seen)
      refine ⟨fun q listed => g.waiting q (next ▸ Multiset.mem_cons_of_mem listed), ?_, g.index⟩
      intro member listed
      rcases Multiset.mem_cons.mp listed with rfl | earlier
      · exact made
      · exact g.parsing member earlier
  | settle next free seen unparsed =>
      exact ⟨fun q listed => g.waiting q (next ▸ Multiset.mem_cons_of_mem listed), g.parsing, g.index⟩
  | @commit path e rest next =>
      have made : e.Made P := g.parsing (path, e) (next ▸ Multiset.mem_cons_self _ _)
      exact ⟨g.waiting, fun member listed => g.parsing member (next ▸ Multiset.mem_cons_of_mem listed),
        g.index.commit made false⟩
  | @join path result rest next =>
      refine ⟨g.waiting, g.parsing, ?_⟩
      rcases result with cause | ⟨e, _ | _⟩ <;> exact g.index

theorem genuine_of_steps {r after : Running} (run : ReflTransGen (Step t) r after) (proper : t.Proper P)
    (g : r.Genuine P base) : after.Genuine P base := by
  induction run with
  | refl => exact g
  | tail _ step ih => exact step.genuine proper ih

end Running

theorem Runs.genuine {batch : List Path} {p after : Progress} (run : Runs t batch p after) (proper : t.Proper P)
    (canonical : ∀ q ∈ batch, FileUri.Canonical q.normalize) (g : p.index.Genuine P base) :
    after.index.Genuine P base := by
  have start : Running.Genuine P base ⟨batch, 0, 0, p⟩ := ⟨by simpa using canonical, by simp, g⟩
  exact (Running.genuine_of_steps run proper start).index

theorem Batches.genuine {s after : ScanStats × SourceIndex} {batches : List (List Path)} {answers : List (Result Nat)}
    (run : Batches t s batches answers after) (proper : t.Proper P)
    (canonical : ∀ q ∈ batches.flatten, FileUri.Canonical q.normalize) (g : s.2.Genuine P base) :
    after.2.Genuine P base := by
  induction run with
  | nil s => exact g
  | @cons s after batch rest p answers run more ih =>
      rw [List.flatten_cons] at canonical
      have done : p.index.Genuine P base :=
        run.genuine proper (fun q member => canonical q (List.mem_append_left _ member)) g
      exact ih (fun q member => canonical q (List.mem_append_right _ member)) (done.persist p.produced)

namespace Scans

variable {files : List Path} {batchSize : Nat} {answers : List (Result Nat)} {after : ScanStats × SourceIndex}

theorem genuine (run : x.Scans t files batchSize answers after) (proper : t.Proper P)
    (canonical : ∀ q ∈ files, FileUri.Canonical q.normalize) (g : x.Genuine P base) : after.2.Genuine P base := by
  obtain ⟨last, batches, rfl⟩ := run
  have done := batches.genuine proper (by rwa [flatten_pieces]) g
  refine ⟨done.transposed.rebuild, ?_, done.rows, done.frame⟩
  intro u e live
  exact done.made ((forward?_rebuild _ u).symm.trans live)

/-- The row of what a scan parses is written, whichever other files fail. -/
theorem written (run : x.Scans t files batchSize answers after)
    (canonical : ∀ q ∈ files, FileUri.Canonical q.normalize) (granted : ∀ a ∈ answers, Succeeds a) {p : Path}
    (listed : p ∈ files) {e : SourceEntry}
    (parsed : examine t p.normalize (x.graph.get? p.normalize) = some (.ok (e, .parsed))) :
    (SourceRow.ofEntry e).forward ∈ after.2.store.forwardRows := by
  obtain ⟨_, produced, _, ledger, _, _, rows⟩ := run.outcome
  have whole : e.forward = e := (described_uri (Ledger.described_of_parsed parsed)).2
  have afresh : ∀ d ∈ produced, described t d.uri = some d ∧ d.uri.Canonical := by
    intro d member
    have entered : d ∈ (files.foldl (Ledger.enter t) ⟨0, x.graph.forward?⟩).account.produced :=
      ledger ▸ Multiset.mem_coe.mpr member
    obtain ⟨called, _, q, listed, named⟩ := Ledger.produced_afresh rfl entered
    exact ⟨called, named ▸ canonical q listed⟩
  have made : e ∈ produced := by
    have seen : examine t p.normalize (x.graph.forward? p.normalize) = some (.ok (e.forward, .parsed)) := by
      rw [forward?, examine_forward, parsed]
      rfl
    have entered := Ledger.mem_produced_enters (l := ⟨0, x.graph.forward?⟩) listed seen
    rw [← ledger, whole, whole] at entered
    exact Multiset.mem_coe.mp entered
  obtain ⟨before, later, rfl⟩ := List.append_of_mem made
  -- Entries of other paths may be written in any order, so this one may be written last.
  have last : (before ++ e :: later).Perm ((before ++ later) ++ [e]) :=
    List.perm_middle.trans (List.perm_append_singleton e _).symm
  rw [rows granted, write_perm last (fun d member => (afresh d member).1) (fun d member => (afresh d member).2),
    List.foldl_append]
  exact Multiset.mem_cons_self _ _

theorem stored (run : x.Scans t files batchSize answers after) (proper : t.Proper P)
    (canonical : ∀ q ∈ files, FileUri.Canonical q.normalize) (g : x.Genuine P base) (granted : ∀ a ∈ answers, Succeeds a)
    {p : Path} (listed : p ∈ files) {e : SourceEntry}
    (parsed : examine t p.normalize (x.graph.get? p.normalize) = some (.ok (e, .parsed))) :
    ∃ d, after.2.store.getSource p.normalize = .ok (some d) ∧ d.forward = e := by
  obtain ⟨m, held, _⟩ := (run.genuine proper canonical g).rows
  have called := Ledger.described_of_parsed parsed
  have made : e.Made P := made_of_described proper (canonical p listed) called
  obtain ⟨named, whole⟩ := described_uri called
  have storable : e.Storable := ⟨made.canonical, made.dependsOn, by rw [← whole]; simp [SourceEntry.forward]⟩
  obtain ⟨row, member, same⟩ := List.mem_map.mp (Multiset.mem_coe.mp (run.written canonical granted listed parsed))
  obtain ⟨d, value, rfl⟩ := List.mem_map.mp (held.rows.mem_iff.mp member)
  have forward : d.forward = e := (SourceRow.forward_inj (held.storable d value) storable same).trans whole
  have uri : d.uri = p.normalize := (congrArg SourceEntry.uri forward).trans named
  refine ⟨d, ?_, forward⟩
  rw [held.getSource (canonical p listed), ← uri, held.own.mem_values.mp value]

/-- The files that fail make no difference to the graph, each of them is reported with its own fault, and nothing else
    is. -/
theorem isolated {others : ScanStats × SourceIndex} {otherSize : Nat} {otherAnswers : List (Result Nat)}
    (run : x.Scans t files batchSize answers after)
    (without : x.Scans t (files.filter fun p => (x.fault? t p.normalize).isNone) otherSize otherAnswers others) :
    after.2.graph = others.2.graph ∧ others.1.failures = [] ∧
      after.1.failures.Perm (files.filterMap fun p => (x.fault? t p.normalize).map fun fault => ⟨p, fault.message⟩) := by
  have failing : Ledger.failure? t ⟨0, x.graph.forward?⟩ =
      fun p => (x.fault? t p.normalize).map fun fault => ⟨p, fault.message⟩ := funext (x.failure?_eq t)
  have failures := run.failures_perm
  have other_failures := without.failures_perm
  have kept := Ledger.forward_enters_filter (t := t) ⟨0, x.graph.forward?⟩ files
  simp only [failing, Option.isNone_map] at failures other_failures kept
  refine ⟨?_, List.perm_nil.mp (other_failures.trans (.of_eq ?_)), failures⟩
  · obtain ⟨_, _, g, ledger, graph, _⟩ := run.outcome
    obtain ⟨_, _, h, other_ledger, other_graph, _⟩ := without.outcome
    rw [← other_ledger, ← ledger] at kept
    rw [graph, other_graph]
    exact rebuild_congr fun u => (congrFun kept u).symm
  · rw [List.filterMap_eq_nil_iff]
    intro p member
    rw [Option.map_eq_none_iff]
    simpa using (List.mem_filter.mp member).2

end Scans

end SourceIndex

/-! ## Workspaces -/

theorem map_path_failures (f : Path → Option Error) (files : List Path) :
    (files.filterMap fun p => (f p).map fun fault => ScanFailure.mk p fault.message).map ScanFailure.path =
      files.filter fun p => (f p).isSome := by
  rw [List.map_filterMap]
  apply filterMap_eq_filter_of
  intro p _
  cases f p <;> rfl

namespace Workspace

open SourceIndex

variable {w : Workspace} {t : FileTree} {u : FileUri} {fault : Error}

theorem readSources_error {α : Type} {f : SourceIndex → Option (Result α × SourceIndex)} {left : SourceIndex}
    {after : Workspace} (leaves : ∀ y, f w.sources = some (.error fault, y) → y = left)
    (failed : w.readSources f = some (.error fault, after)) : after = w.withSources left := by
  obtain ⟨⟨result, y⟩, called, same⟩ := readSources_eq_some.mp failed
  obtain ⟨rfl, rfl⟩ := Prod.mk.inj same
  rw [leaves y called]

theorem indexFile_error {persist : Bool} {after : Workspace}
    (failed : w.indexFile t u persist = some (.error fault, after)) : after = w := by
  have same : after = w.withSources w.sources := readSources_error (fun _ => indexFile_error_of_map) failed
  exact same

theorem entry_error {after : Workspace} (failed : w.entry t u = some (.error fault, after)) : after = w := by
  have same : after = w.withSources w.sources := readSources_error (fun _ => getOrIndex_error) failed
  exact same

theorem handle_error {path : String} (nonempty : path ≠ "") {event : FileEvent} {after : Workspace}
    (failed : w.handle t .sources event path = some (.error fault, after)) :
    ∃ u, FileUri.ofPath .rootDir path = .ok u ∧ after = (w.onSources (·.invalidate u)).2 := by
  cases named : FileUri.ofPath .rootDir path with
  | error cause => simp [FileUri.ofPath, nonempty] at named
  | ok u =>
      refine ⟨u, rfl, ?_⟩
      simp only [handle, named] at failed
      exact readSources_error (fun _ => SourceIndex.handle_error) failed

/-- After every run on a store that only the index has written, a call on one file that fails leaves everything as it
    was, and a change that cannot be read leaves what the invalidation of its path leaves. A scan returns, whichever
    files fail, if none is read for ever. A scan of files that were listed now or earlier leaves the graph of a scan
    without those that fail, reports each of these once and with its own fault, and stores what the others produced. -/
theorem failures_isolated {P : ByteArray → Prop} {w : Workspace} {t₀ : FileTree} {actions : List Action}
    (opened : w.Opened) (written : Store.Written P w.store) (files : t₀.Proper P) (proper : ∀ a ∈ actions, a.Proper P)
    {after : Workspace} {t : FileTree} (run : w.run t₀ actions = some (after, t)) :
    (∀ u persist fault left, after.indexFile t u persist = some (.error fault, left) → left = after) ∧
    (∀ u fault left, after.entry t u = some (.error fault, left) → left = after) ∧
    (∀ path event fault left, path ≠ "" → after.handle t .sources event path = some (.error fault, left) →
      ∃ u, FileUri.ofPath .rootDir path = .ok u ∧ left = (after.onSources (·.invalidate u)).2) ∧
    (∀ done, after.sources.scan t after.sourceMatcher after.config.effectiveBatchSize = some done →
      ∃ answers, after.sources.Scans t (after.sourceMatcher.walk t) after.config.batchSize answers done) ∧
    ((∃ done, after.sources.scan t after.sourceMatcher after.config.effectiveBatchSize = some done) ↔
      ∀ p ∈ after.sourceMatcher.walk t, examine t p (after.graph.get? p) ≠ none) ∧
    (∀ u fault, after.sources.fault? t u = some fault → Faulty t u fault) ∧
    ∀ (earlier : FileTree) (listed : List Path), earlier.Proper P → after.sourceMatcher.walk earlier = listed →
      ∀ (size₁ size₂ : Nat) (answers₁ answers₂ : List (Result Nat)) (all others : ScanStats × SourceIndex),
      after.sources.Scans t listed size₁ answers₁ all →
      after.sources.Scans t (listed.filter fun p => (after.sources.fault? t p).isNone) size₂ answers₂ others →
        all.2.graph = others.2.graph ∧ others.1.failures = [] ∧
        all.1.failures.Perm
          (listed.filterMap fun p => (after.sources.fault? t p).map fun fault => ⟨p, fault.message⟩) ∧
        (all.1.failures.map ScanFailure.path).Nodup ∧
        (after.store.Yields .sources → ∀ a ∈ answers₁, Succeeds a) ∧
        ((∀ a ∈ answers₁, Succeeds a) →
          ∀ p ∈ listed, ∀ e, examine t p (after.graph.get? p) = some (.ok (e, .parsed)) →
            ∃ d, all.2.store.getSource p = .ok (some d) ∧ { d with dependedBy := [] } = e) := by
  obtain ⟨g, now⟩ := (opened.genuine written).run files proper run
  have walked : ∀ p ∈ after.sourceMatcher.walk t, p.normalize = p :=
    fun p member => (Matcher.canonical_of_mem_walk g.sourceRoot now member).plain.normalize_eq
  refine ⟨fun _ _ _ _ => indexFile_error, fun _ _ _ => entry_error, fun _ _ _ _ nonempty => handle_error nonempty,
    fun _ => Scans.scan, ?_, fun _ _ => faulty_of_fault?, ?_⟩
  · rw [exists_scan_iff]
    exact forall₂_congr fun p member => by rw [walked p member]; rfl
  rintro earlier listed then_proper rfl size₁ size₂ answers₁ answers₂ all others scan without
  have canonical := after.sourceMatcher.canonical_normalize g.sourceRoot then_proper
  have plain : ∀ p ∈ after.sourceMatcher.walk earlier, p.normalize = p :=
    fun p member => (Matcher.canonical_of_mem_walk g.sourceRoot then_proper member).plain.normalize_eq
  have distinct : (after.sourceMatcher.walk earlier).Nodup := (Matcher.increasing_walk g.sourceRoot.plain).nodup
  generalize after.sourceMatcher.walk earlier = listed at *
  have named : (listed.filter fun p => (after.sources.fault? t p).isNone) =
      listed.filter fun p => (after.sources.fault? t p.normalize).isNone :=
    List.filter_congr fun p member => by rw [plain p member]
  rw [named] at without
  obtain ⟨graph, nothing, failures⟩ := scan.isolated without
  have reported : all.1.failures.Perm
      (listed.filterMap fun p => (after.sources.fault? t p).map fun fault => ⟨p, fault.message⟩) := by
    refine failures.trans (.of_eq (List.filterMap_congr fun p member => ?_))
    rw [plain p member]
  refine ⟨graph, nothing, reported, ?_, fun yields => scan.granted yields canonical, ?_⟩
  · rw [(reported.map ScanFailure.path).nodup_iff, map_path_failures]
    exact distinct.filter _
  · intro granted p member e parsed
    rw [← plain p member] at parsed ⊢
    exact scan.stored now canonical g.sources granted member parsed

/-! ## A broken document beside a good one

The index holds the entry of a document. Then the document becomes another, which can be parsed, and one that cannot
be is put beside it. -/

namespace Spoiled

open Sample SourceIndex.Mixed

def actions : List Action := [.load, .scan, .files tree]

def reached : Workspace := ((workspace.run (holding source "Item \x7b\x7d\n") actions).getD (workspace, .empty)).1

theorem tree_proper : tree.Proper fun _ => True := by
  refine ((FileTree.proper_empty.insert ?_ ?_).insert ?_ ?_).insert ?_ ?_
  all_goals first | rfl | simp

theorem actions_proper : ∀ a ∈ actions, a.Proper fun _ => True := by
  intro a member
  simp only [actions, List.mem_cons, List.not_mem_nil, or_false] at member
  rcases member with rfl | rfl | rfl
  · trivial
  · trivial
  · exact tree_proper

set_option maxRecDepth 10000 in
theorem evaluated :
    reached.sourceMatcher.walk tree = [good, broken] ∧ reached.store.refusals = [] ∧
      reached.sources.fault? tree good = none ∧
      reached.sources.fault? tree broken = some (.parse "missing '\x7d' for object 'Item'") ∧
      (SourceIndex.examine tree good (reached.graph.get? good)).bind (·.toOption.map Prod.snd) = some .parsed ∧
      (workspace.run (holding source "Item \x7b\x7d\n") actions).map Prod.snd = some tree := by
  decide +kernel

theorem reaches : workspace.run (holding source "Item \x7b\x7d\n") actions = some (reached, tree) :=
  run_eq_of_files evaluated.2.2.2.2.2

theorem good_parsed : ∃ e, SourceIndex.examine tree good (reached.graph.get? good) = some (.ok (e, .parsed)) := by
  have checked := evaluated.2.2.2.2.1
  rcases examined : SourceIndex.examine tree good (reached.graph.get? good) with _ | fault | ⟨e, outcome⟩
  · simp [examined] at checked
  · simp [examined, Except.toOption] at checked
  · obtain rfl : outcome = .parsed := by simpa [examined, Except.toOption] using checked
    exact ⟨e, rfl⟩

end Spoiled

open Sample SourceIndex.Mixed Spoiled in
theorem failures_isolated_spoiled :
    ∃ all others, reached.sources.scan tree reached.sourceMatcher reached.config.effectiveBatchSize = some all ∧
      reached.sources.scanBatches tree (pieces 0 [good]) = some others ∧ all.2.graph = others.2.graph ∧
      all.1.failures = [⟨broken, "Parse error: missing '\x7d' for object 'Item'"⟩] ∧
      ∃ d, all.2.store.getSource good = .ok (some d) := by
  obtain ⟨_, _, _, ways, returns, _, scans⟩ := failures_isolated (opened .empty) .empty
    (holding_proper canonical_source trivial) actions_proper reaches
  obtain ⟨walked, willing, good_fine, broken_fault, _⟩ := evaluated
  obtain ⟨e, parsed⟩ := good_parsed
  have settles : ∀ p ∈ reached.sourceMatcher.walk tree, SourceIndex.examine tree p (reached.graph.get? p) ≠ none := by
    rw [walked, List.forall_mem_cons, List.forall_mem_singleton]
    exact ⟨by simp [parsed], SourceIndex.examine_ne_none_of_fault? broken_fault⟩
  obtain ⟨all, scanned⟩ := returns.mpr settles
  obtain ⟨answers, scan⟩ := ways all scanned
  have kept : [good, broken].filter (fun p => (reached.sources.fault? tree p).isNone) = [good] := by
    simp [good_fine, broken_fault]
  obtain ⟨others, alone⟩ : ∃ others, reached.sources.scanBatches tree (pieces 0 [good]) = some others := by
    rw [SourceIndex.exists_scanBatches_iff, flatten_pieces, List.forall_mem_singleton]
    exact settles good (by simp [walked])
  obtain ⟨_, without⟩ : ∃ answers, reached.sources.Scans tree [good] 0 answers others :=
    SourceIndex.Scans.scanBatches alone
  rw [walked] at scan
  obtain ⟨graph, _, failures, _, granted, stored⟩ := scans tree [good, broken] tree_proper walked _ _ _ _ _ _ scan
    (by rw [kept]; exact without)
  obtain ⟨d, found, _⟩ := stored (granted (Store.yields_of_refusals willing .sources)) good (by simp) e parsed
  have text : (Error.parse "missing '\x7d' for object 'Item'").message = "Parse error: missing '\x7d' for object 'Item'" := by
    decide
  refine ⟨all, others, scanned, alone, graph, ?_, d, found⟩
  rw [← text]
  simpa [good_fine, broken_fault] using failures

end Workspace

end QmlIndex
