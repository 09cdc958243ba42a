import QmlIndex.Proofs.Index.Confluence

/-! # A second scan changes nothing

Whatever was resident and stored before, a scan leaves a state in which none of its files would be parsed: those
that can be are served from their entries, and the others fail as before. To scan the same files once more, in
batches of any size and in any order, therefore writes nothing and leaves the graph as it is, and it reports the
same failures. It comes to an end as the first scan did.
-/

namespace QmlIndex.SourceIndex

variable {t : FileTree} {x : SourceIndex}

/-- Batches of files that would not be parsed leave the store alone. -/
theorem Batches.store_of_not_parses {s after : ScanStats × SourceIndex} {batches : List (List Path)}
    {answers : List (Result Nat)} (run : Batches t s batches answers after)
    (settled : ∀ p ∈ batches.flatten, ¬ (ledgerBetween 0 s).Parses t p) : after.2.store = s.2.store := by
  induction run with
  | nil s => rfl
  | @cons s after batch rest p answers run more ih =>
      rw [List.flatten_cons] at settled
      have entered : p.ledger 0 = batch.foldl (Ledger.enter t) (ledgerBetween 0 s) := (run.ledger 0).2
      obtain ⟨forward, _, produced⟩ :=
        Ledger.enters_of_not_parses fun q member => settled q (List.mem_append_left _ member)
      rw [← entered] at forward produced
      have nothing : p.produced = [] := by simpa [Progress.ledger, Progress.account, ledgerBetween] using produced
      have store : (p.index.persist p.produced).store = s.2.store := by
        rw [persist_eq, Progress.written, nothing]
        exact run.frame.1
      rw [ih, store]
      -- What is resident has not changed, so the later files would not be parsed either.
      rintro q member ⟨e, parsed⟩
      refine settled q (List.mem_append_right _ member) ⟨e, ?_⟩
      rw [← forward]
      exact parsed

namespace Scans

variable {files : List Path} {batchSize : Nat} {answers : List (Result Nat)} {after : ScanStats × SourceIndex}

/-- In the state that a scan leaves, what would become of each file is what the ledger of the scan says. -/
theorem forward_eq (run : x.Scans t files batchSize answers after) :
    after.2.graph.forward? = (files.foldl (Ledger.enter t) ⟨0, x.graph.forward?⟩).forward := by
  obtain ⟨_, produced, g, ledger, graph, _⟩ := run.outcome
  rw [← ledger, graph]
  exact funext fun u => Graph.forward?_rebuild g u

/-- After a scan none of its files is read for ever. -/
theorem settles_again (run : x.Scans t files batchSize answers after) :
    ∀ p ∈ files, examine t p.normalize (after.2.graph.get? p.normalize) ≠ none := by
  intro p listed
  have before : Ledger.Settles t ⟨0, x.graph.forward?⟩ p := Ledger.settles_forward.mpr (run.outcome.1 p listed)
  have settles : (files.foldl (Ledger.enter t) ⟨0, x.graph.forward?⟩).Settles t p := Ledger.settles_enters.mpr before
  rw [Ledger.Settles, ← run.forward_eq] at settles
  exact Ledger.settles_forward (a := 0) |>.mp settles

/-- A scan reports exactly the files that fail. -/
theorem failures_perm (run : x.Scans t files batchSize answers after) :
    after.1.failures.Perm (files.filterMap (Ledger.failure? t ⟨0, x.graph.forward?⟩)) := by
  obtain ⟨_, produced, g, ledger, _⟩ := run.outcome
  have failed := Ledger.failures_enters (t := t) ⟨0, x.graph.forward?⟩ files
  rw [← ledger] at failed
  exact Multiset.coe_eq_coe.mp (failed.trans (zero_add _))

end Scans

/-- To scan files once more, the files being as they were, leaves the graph with both directions of its edges and all
    rows of the store exactly as they are, parses nothing, serves every file that does not fail from its entry, and
    reports the failures of the first scan. This holds of any two ways in which the scans run, and so of the scan of
    a workspace, which returns again if it has returned once. -/
theorem rescan_idempotent (x : SourceIndex) (t : FileTree) :
    (∀ (files : List Path) (size₁ size₂ : Nat) (answers₁ answers₂ : List (Result Nat))
      (first second : ScanStats × SourceIndex),
      x.Scans t files size₁ answers₁ first → first.2.Scans t files size₂ answers₂ second →
        second.2 = first.2 ∧ second.1.files = first.1.files ∧ second.1.parsed = 0 ∧
        second.1.cached = second.1.files - second.1.failures.length ∧ second.1.failures.Perm first.1.failures) ∧
    ∀ (m : Matcher) (size : Nat) (first : ScanStats × SourceIndex), x.scan t m size = some first →
      ∃ second answers₁ answers₂, first.2.scan t m size = some second ∧
        x.Scans t (m.walk t) size answers₁ first ∧ first.2.Scans t (m.walk t) size answers₂ second := by
  constructor
  · intro files size₁ size₂ answers₁ answers₂ first second scan again
    obtain ⟨_, produced₁, g₁, _, graph₁, files₁, _⟩ := scan.outcome
    obtain ⟨settles, produced₂, g₂, ledger₂, graph₂, files₂, _⟩ := again.outcome
    have start := scan.forward_eq
    have settled : ∀ p ∈ files, ¬ Ledger.Parses t ⟨0, first.2.graph.forward?⟩ p := by
      rintro p listed ⟨e, parsed⟩
      rw [start] at parsed
      exact Ledger.not_parses_enters listed ⟨e, parsed⟩
    obtain ⟨forward, parsed, _⟩ := Ledger.enters_of_not_parses settled
    have total := Ledger.size_enters (l := ⟨0, first.2.graph.forward?⟩) fun p member =>
      Ledger.settles_forward.mpr (settles p member)
    rw [← ledger₂] at forward parsed total
    have graph : second.2.graph = first.2.graph := by
      rw [graph₂, graph₁]
      apply Graph.rebuild_congr
      intro u
      have before : first.2.graph.forward? u = g₁.forward? u := by rw [graph₁, Graph.forward?_rebuild]
      rw [← before]
      exact congrFun forward u
    have store : second.2.store = first.2.store := by
      obtain ⟨last, batches, rfl⟩ := again
      refine batches.store_of_not_parses ?_
      rw [flatten_pieces]
      exact settled
    have same_failures : Ledger.failure? t ⟨0, first.2.graph.forward?⟩ = Ledger.failure? t ⟨0, x.graph.forward?⟩ := by
      rw [← Ledger.failure?_enters ⟨0, x.graph.forward?⟩ files, start]
      rfl
    have nothing : second.1.parsed = 0 := parsed
    refine ⟨?_, files₂.trans files₁.symm, nothing, ?_, ?_⟩
    · calc second.2 = ⟨second.2.graph, second.2.store⟩ := rfl
        _ = first.2 := by rw [graph, store]
    · have count : second.1.parsed + second.1.cached + second.1.failures.length = 0 + files.length := total
      omega
    · have failures := again.failures_perm
      rw [same_failures] at failures
      exact failures.trans scan.failures_perm.symm
  · intro m size first returns
    obtain ⟨answers₁, scan⟩ := Scans.scanBatches returns
    obtain ⟨second, returns_again⟩ := exists_scan_iff (m := m) |>.mpr scan.settles_again
    obtain ⟨answers₂, again⟩ := Scans.scanBatches returns_again
    exact ⟨second, answers₁, answers₂, returns_again, scan, again⟩

/-! ## A mixed workspace

One document can be parsed and one cannot. Resident are a stale entry of the first and the entry of a file that is
gone, which depend on each other. -/

namespace Mixed

open Sample

def good : Path := root.child "A.qml"

def broken : Path := root.child "B.qml"

def gone : Path := root.child "C.qml"

def tree : FileTree where
  nodes := ((FileTree.empty.nodes.insert root (.directory 1)).insert good (Overlap.document "import \"B.qml\"\nItem \x7b\x7d\n")).insert
    broken (Overlap.document "Item \x7b\n")

def stale (u : FileUri) (dependsOn : List FileUri) : SourceEntry :=
  { uri := u, contentHash := "-", lastModified := 1, imports := [], exports := {}, symbols := [], dependsOn,
    dependedBy := [] }

def index : SourceIndex := ⟨Graph.load [stale good [gone], stale gone [good]], .empty⟩

def scanned : ScanStats × SourceIndex := (index.scan tree workspace.sourceMatcher 1).getD (default, index)

set_option maxRecDepth 10000 in
theorem scan_evaluated :
    (index.scan tree workspace.sourceMatcher 1).isSome = true ∧
      scanned.1.parsed = 1 ∧ scanned.1.failures.map ScanFailure.path = [broken] := by
  decide +kernel

theorem returned : index.scan tree workspace.sourceMatcher 1 = some scanned := by
  obtain ⟨done, same⟩ := Option.isSome_iff_exists.mp scan_evaluated.1
  rw [scanned, same, Option.getD_some]

end Mixed

open Sample Mixed in
theorem rescan_idempotent_mixed :
    ∃ again, scanned.2.scan tree workspace.sourceMatcher 1 = some again ∧ again.2 = scanned.2 ∧
      again.1.parsed = 0 ∧ again.1.cached = again.1.files - 1 ∧ again.1.failures.map ScanFailure.path = [broken] := by
  obtain ⟨general, ways⟩ := rescan_idempotent index tree
  obtain ⟨again, _, _, returns, first, second⟩ := ways workspace.sourceMatcher 1 scanned returned
  obtain ⟨same, _, parsed, cached, failures⟩ := general _ _ _ _ _ _ _ first second
  have failed := (failures.map ScanFailure.path).trans (.of_eq scan_evaluated.2.2)
  have one := failed.length_eq
  rw [List.length_map] at one
  exact ⟨again, returns, same, parsed, cached.trans (by rw [one]; rfl), List.perm_singleton.mp failed⟩

end QmlIndex.SourceIndex
