import QmlIndex.Proofs.Index.Concurrent
import QmlIndex.Proofs.Index.Run

/-! # Using entries again is as good as parsing

A scan does not parse a file whose entry has the digest and the time of the file, and after a restart the entries
come from the store. If no two contents that occur have one digest, a scan nevertheless leaves under every path
that it comes to the entry that the file calls for now, whatever was done before: the files may have changed
behind the index's back, also without a change of their times, and calls of the store may have failed. Nor does it
come to an end where parsing all files would not.
-/

namespace QmlIndex

namespace SourceIndex.Genuine

open QmlIndex.Graph

variable {P : ByteArray → Prop} {base : Store} {x : SourceIndex} {t : FileTree}

/-- Renewing an entry twice is renewing it once. -/
theorem renew_twice {α : Type} (first second : Prop) [Decidable first] [Decidable second] (new old : Option α) :
    (if second then new.or (if first then new.or old else old) else if first then new.or old else old) =
      if first ∨ second then new.or old else old := by
  by_cases here : first <;> by_cases later : second <;> cases new <;> simp [here, later]

/-- Indexing a file leaves what the file calls for, or what was there if the file calls for nothing. -/
theorem forward?_indexFile (g : x.Genuine P base) (distinct : Digest.Distinguishes P) (proper : t.Proper P)
    {u : FileUri} {persist : Bool} {done : Result (SourceEntry × Outcome) × SourceIndex}
    (returns : x.indexFile t u persist = some done) (v : FileUri) :
    done.2.graph.forward? v = if v = u then (described t v).or (x.graph.forward? v) else x.graph.forward? v := by
  rcases indexFile_cases returns with
    ⟨f, e, found, live, current, rfl⟩ | ⟨nothing, _, rfl⟩ | ⟨e, called, _, rfl⟩
  · split
    · rename_i here
      subst here
      obtain rfl : e.uri = v := g.transposed.own live
      have forward : x.graph.forward? e.uri = some e.forward := by rw [forward?, live, Option.map_some]
      rw [described_of_isCurrent distinct proper (g.made_of_get? live) found current, forward]
      rfl
    · rfl
  · split
    · rename_i here
      rw [here, nothing, Option.none_or]
    · rfl
  · obtain ⟨rfl, whole⟩ := described_uri called
    change (x.graph.insert e).forward? v = _
    rw [forward?_insert g.transposed, whole]
    split
    · rename_i here
      rw [here, called, Option.some_or]
    · rfl

theorem forward?_steps (distinct : Digest.Distinguishes P) (proper : t.Proper P) {paths : List Path}
    (canonical : ∀ p ∈ paths, FileUri.Canonical p.normalize) {p q : Progress} (g : p.index.Genuine P base)
    (returns : paths.foldlM (Progress.step t) p = some q) (v : FileUri) :
    q.index.graph.forward? v =
      if v ∈ paths.map Path.normalize then (described t v).or (p.index.graph.forward? v)
      else p.index.graph.forward? v := by
  induction paths generalizing p with
  | nil =>
      obtain rfl := Option.some.inj returns
      simp
  | cons path rest ih =>
      obtain ⟨mid, first, later⟩ := Progress.steps_cons.mp returns
      have genuine := g.step proper (canonical path List.mem_cons_self) first
      obtain ⟨done, indexed, rfl⟩ := Progress.step_eq_some.mp first
      rw [ih (fun q member => canonical q (List.mem_cons_of_mem path member)) genuine later, Progress.enter_index,
        g.forward?_indexFile distinct proper indexed, renew_twice]
      simp only [List.map_cons, List.mem_cons]

theorem forward?_batches (distinct : Digest.Distinguishes P) (proper : t.Proper P) {batches : List (List Path)}
    (canonical : ∀ p ∈ batches.flatten, FileUri.Canonical p.normalize) {s s' : ScanStats × SourceIndex}
    (g : s.2.Genuine P base) (returns : batches.foldlM (SourceIndex.scanBatch t) s = some s') (v : FileUri) :
    s'.2.graph.forward? v =
      if v ∈ batches.flatten.map Path.normalize then (described t v).or (s.2.graph.forward? v)
      else s.2.graph.forward? v := by
  induction batches generalizing s with
  | nil =>
      obtain rfl := Option.some.inj returns
      simp
  | cons batch rest ih =>
      rw [List.flatten_cons] at canonical
      have members : ∀ p ∈ batch, FileUri.Canonical p.normalize :=
        fun p member => canonical p (List.mem_append_left rest.flatten member)
      obtain ⟨mid, first, later⟩ := batches_cons.mp returns
      have genuine := g.scanBatch proper members first
      obtain ⟨p, settled, rfl⟩ := scanBatch_eq_some.mp first
      have one : (p.index.persist p.produced).graph.forward? v =
          if v ∈ batch.map Path.normalize then (described t v).or (s.2.graph.forward? v)
          else s.2.graph.forward? v :=
        forward?_steps distinct proper members (p := ⟨s.1, [], s.2⟩) g settled v
      rw [ih (fun p member => canonical p (List.mem_append_right batch member)) genuine later, one, renew_twice]
      simp only [List.flatten_cons, List.map_append, List.mem_append]

/-- A scan leaves under the paths that it comes to what the files call for. -/
theorem forward?_scan (g : x.Genuine P base) (distinct : Digest.Distinguishes P) (proper : t.Proper P) {m : Matcher}
    (root : FileUri.Canonical m.root) {batchSize : Nat} {done : ScanStats × SourceIndex}
    (returns : x.scan t m batchSize = some done) {p : Path} (listed : p ∈ m.walk t) :
    done.2.graph.forward? p = (described t p).or (x.graph.forward? p) := by
  obtain ⟨last, settled, rfl⟩ := scanBatches_eq_some.mp returns
  have canonical : ∀ q ∈ (pieces (batchSize - 1) (m.walk t)).flatten, FileUri.Canonical q.normalize := by
    rw [flatten_pieces]
    exact m.canonical_normalize root proper
  have named : p ∈ (pieces (batchSize - 1) (m.walk t)).flatten.map Path.normalize := by
    rw [flatten_pieces]
    exact List.mem_map.mpr ⟨p, listed, (m.canonical_of_mem_walk root proper listed).plain.normalize_eq⟩
  have batches := forward?_batches distinct proper canonical
    (s := ({ files := (pieces (batchSize - 1) (m.walk t)).flatten.length }, x)) g settled p
  rw [if_pos named] at batches
  exact (forward?_rebuild _ p).trans batches

/-- A file with a current entry was read to its end when the entry was made, so the entries spare a scan no text that
    is read for ever. -/
theorem examine_ne_none_iff (g : x.Genuine P base) (distinct : Digest.Distinguishes P) (proper : t.Proper P)
    {u : FileUri} : examine t u (x.graph.get? u) ≠ none ↔ ¬ Endless t u := by
  rcases examine_cases t u (x.graph.get? u) with ⟨f, e, found, live, current, served⟩ | afresh
  · obtain rfl : e.uri = u := g.transposed.own live
    have called := described_of_isCurrent distinct proper (g.made_of_get? live) found current
    simp [served, not_endless_of_described called]
  · rw [afresh, ne_eq, examine_none_eq_none]

end SourceIndex.Genuine

namespace Workspace

/-- After every run on a store that only the index has written, one more scan comes to an end unless it lists a file
    that is read for ever. It then leaves under each path that it lists and whose file can be read and parsed the
    entry made from the current bytes and time of the file, and every resident entry lists exactly the resident
    entries that depend on it. -/
theorem scan_as_if_parsed {P : ByteArray → Prop} (distinct : Digest.Distinguishes P) {w : Workspace} {t₀ : FileTree}
    {actions : List Action} (opened : w.Opened) (written : Store.Written P w.store) (files : t₀.Proper P)
    (proper : ∀ a ∈ actions, a.Proper P) {after : Workspace} {t : FileTree}
    (run : w.run t₀ actions = some (after, t)) :
    ((∃ done, after.scan t = some done) ↔ ∀ p ∈ after.sourceMatcher.walk t, ¬ SourceIndex.Endless t p) ∧
    ∀ done, after.scan t = some done →
      (∀ p ∈ after.sourceMatcher.walk t, ∀ f text d, t.file p = .ok f → String.fromUTF8? f.content = some text →
        Document.parse text.toList = .parsed d →
          ∃ e, done.2.graph.get? p = some e ∧
            { e with dependedBy := [] } = SourceEntry.ofDocument p (Digest.ofBytes f.content.toList) f.time d) ∧
      ∀ u e, done.2.graph.get? u = some e →
        Increasing e.dependedBy ∧
        ∀ source, source ∈ e.dependedBy ↔ ∃ d, done.2.graph.get? source = some d ∧ u ∈ d.dependsOn := by
  obtain ⟨g, now⟩ := (opened.genuine written).run files proper run
  constructor
  · rw [exists_scan_iff_sources, SourceIndex.exists_scan_iff]
    refine forall₂_congr fun p listed => ?_
    rw [(after.sourceMatcher.canonical_of_mem_walk g.sourceRoot now listed).plain.normalize_eq]
    exact g.sources.examine_ne_none_iff distinct now
  intro done returns
  have transposed : done.2.graph.Transposed := (g.scan now returns).sources.transposed
  obtain ⟨inner, scanned, rfl⟩ := scan_eq_some.mp returns
  constructor
  · intro p listed f text d found decoded parsed
    have called := SourceIndex.described_eq_some.mpr ⟨f, text, d, found, decoded, parsed, rfl⟩
    have forward : inner.2.graph.forward? p = _ := g.sources.forward?_scan distinct now g.sourceRoot scanned listed
    rw [called, Option.some_or] at forward
    exact Option.map_eq_some_iff.mp forward
  · intro u e live
    refine ⟨?_, fun source => transposed.mem_dependedBy live⟩
    rw [transposed.dependedBy_eq live]
    exact transposed.increasing u

/-! ## A change that keeps the time

The text of a file becomes another without a change of its time, and nobody tells the index, which holds the entry
of the text before. -/

namespace Edited

open Sample

def early : String := "Item \x7b\x7d\n"

def late : String := "Text \x7b\x7d\n"

def Occurs (content : ByteArray) : Prop := content = early.toUTF8 ∨ content = late.toUTF8

def actions : List Action := [.load, .scan, .files (holding source late)]

def reached : Workspace := ((workspace.run (holding source early) actions).getD (workspace, .empty)).1

set_option maxRecDepth 10000 in
theorem evaluated :
    Digest.ofBytes early.toUTF8.toList ≠ Digest.ofBytes late.toUTF8.toList ∧
      (workspace.run (holding source early) actions).map Prod.snd = some (holding source late) ∧
      reached.sourceMatcher.walk (holding source late) = [source] ∧
      (SourceIndex.readDocument late).bind (·.toOption.map fun d => d.summary.exports.rootType) = some (some "Text") := by
  decide +kernel

theorem distinguished : Digest.Distinguishes Occurs := by
  have different := evaluated.1
  rintro _ _ (rfl | rfl) (rfl | rfl) same
  · rfl
  · exact absurd same different
  · exact absurd same.symm different
  · rfl

theorem actions_proper : ∀ b ∈ actions, b.Proper Occurs := by
  intro b member
  simp only [actions, List.mem_cons, List.not_mem_nil, or_false] at member
  rcases member with rfl | rfl | rfl
  · trivial
  · trivial
  · exact holding_proper canonical_source (.inr rfl)

theorem late_parsed :
    ∃ d, Document.parse late.toList = .parsed d ∧ d.summary.exports.rootType = some "Text" := by
  have checked := evaluated.2.2.2
  rcases read : SourceIndex.readDocument late with _ | fault | d
  · simp [read] at checked
  · simp [read, Except.toOption] at checked
  · exact ⟨d, SourceIndex.readDocument_eq_ok.mp read, by simpa [read, Except.toOption] using checked⟩

theorem reaches : workspace.run (holding source early) actions = some (reached, holding source late) :=
  run_eq_of_files evaluated.2.1

theorem listing : reached.sourceMatcher.walk (holding source late) = [source] := evaluated.2.2.1

end Edited

open Sample Edited in
theorem scan_as_if_parsed_edited :
    ∃ done, reached.scan (holding source late) = some done ∧
      ∃ e, done.2.graph.get? source = some e ∧ e.exports.rootType = some "Text" := by
  have decoded : String.fromUTF8? late.toUTF8 = some late := by decide
  obtain ⟨d, parsed, type⟩ := late_parsed
  obtain ⟨ends, as_if_parsed⟩ := scan_as_if_parsed distinguished (opened .empty) .empty
    (holding_proper canonical_source (.inl rfl)) actions_proper reaches
  rw [listing, List.forall_mem_singleton] at ends
  have found : (holding source late).file source = .ok ⟨late.toUTF8, 5⟩ := rfl
  have called := SourceIndex.described_eq_some.mpr ⟨_, late, d, found, decoded, parsed, rfl⟩
  obtain ⟨done, returns⟩ := ends.mpr (SourceIndex.not_endless_of_described called)
  obtain ⟨e, live, same⟩ := (as_if_parsed done returns).1 source (by simp [listing]) _ late d found decoded parsed
  exact ⟨done, returns, e, live, (congrArg (fun e : SourceEntry => e.exports.rootType) same).trans type⟩

end Workspace

end QmlIndex
