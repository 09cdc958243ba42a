import QmlIndex.Proofs.Index.Concurrent
import QmlIndex.Proofs.Index.Run

/-! # Incremental indexing converges

A session starts with nothing resident and goes on with changes of single source files, each followed by
its event, with queries and with scans. A call that reads a text for ever ends no step of a session. At every
point of a session the resident entries are those that their files call for, and one more scan leaves exactly the
graph that a fresh index gets by its first scan: an entry for each file of the index that is a document.
-/

namespace QmlIndex

open FileTree

/-- A document that the matcher lets into the index. -/
structure Matcher.Accepted (m : Matcher) (u : FileUri) : Prop where
  canonical : u.Canonical
  accepts : m.accepts u.toString = true

/-- A scan comes to exactly the files that events are accepted for. -/
def Matcher.WalksAccepted (m : Matcher) (t : FileTree) : Prop :=
  ∀ u, u ∈ m.walk t ↔ m.Accepted u ∧ t.isFile u = true

namespace Workspace

/-- The states that a workspace and its files can come to from `w₀` and `t₀`. -/
inductive Session (w₀ : Workspace) (t₀ : FileTree) : Workspace → FileTree → Prop where
  | start : Session w₀ t₀ w₀ t₀
  /-- A source file is written, and its event passed on. -/
  | write {w : Workspace} {t after : FileTree} {u : FileUri} {f : File} {event : FileEvent}
      {done : Option (Result Unit) × Workspace}
      (before : Session w₀ t₀ w t) (accepted : w.sourceMatcher.Accepted u) (written : t.put u f = .ok after)
      (returns : w.dispatch after .sources event u.toString = some done) : Session w₀ t₀ done.2 after
  /-- A source file is removed, and its event passed on. -/
  | delete {w : Workspace} {t after : FileTree} {u : FileUri} {event : FileEvent}
      {done : Option (Result Unit) × Workspace}
      (before : Session w₀ t₀ w t) (accepted : w.sourceMatcher.Accepted u) (removed : t.removeFile u = .ok after)
      (returns : w.dispatch after .sources event u.toString = some done) : Session w₀ t₀ done.2 after
  /-- The index of modules, too, may be told of any event. -/
  | modules {w : Workspace} {t : FileTree} {event : FileEvent} {path : String}
      {done : Option (Result Unit) × Workspace} (before : Session w₀ t₀ w t)
      (returns : w.dispatch t .modules event path = some done) : Session w₀ t₀ done.2 t
  | entry {w : Workspace} {t : FileTree} {u : FileUri} {done : Result (Option SourceEntry) × Workspace}
      (before : Session w₀ t₀ w t) (accepted : w.sourceMatcher.Accepted u) (returns : w.entry t u = some done) :
      Session w₀ t₀ done.2 t
  | scan {w : Workspace} {t : FileTree} {done : WorkspaceScan × Workspace} (before : Session w₀ t₀ w t)
      (walks : w.sourceMatcher.WalksAccepted t) (returns : w.scan t = some done) : Session w₀ t₀ done.2 t

/-- What holds at every point of a session. -/
structure Faithful (m : Matcher) (w : Workspace) (t : FileTree) : Prop where
  matcher : w.sourceMatcher = m
  current : w.graph.Current t
  accepted : ∀ u, (w.graph.forward? u).isSome → m.Accepted u

variable {m : Matcher} {w : Workspace} {t after : FileTree} {u : FileUri}

/-- Passing on an event of an accepted file is the reaction of the index of documents. -/
theorem dispatch_sources (accepted : w.sourceMatcher.Accepted u) {event : FileEvent}
    {done : Option (Result Unit) × Workspace} (returns : w.dispatch after .sources event u.toString = some done) :
    ∃ inner, w.sources.handle after event u = some inner ∧ done.2 = w.withSources inner.2 := by
  have accepts : (w.matcherOf .sources).accepts u.toString = true := accepted.accepts
  have handled : w.handle after .sources event u.toString = w.readSources (·.handle after event u) := by
    rw [handle, accepted.canonical.ofPath_toString]
  rw [dispatch, if_pos accepts, handled] at returns
  obtain ⟨_, read, rfl⟩ := Option.map_eq_some_iff.mp returns
  obtain ⟨inner, reacted, rfl⟩ := readSources_eq_some.mp read
  exact ⟨inner, reacted, rfl⟩

/-- An event of an accepted file is passed on some time, unless the file has to be read for ever. -/
theorem exists_dispatch_iff (accepted : w.sourceMatcher.Accepted u) (transposed : w.graph.Transposed)
    {event : FileEvent} : (∃ done, w.dispatch after .sources event u.toString = some done) ↔
      (event ≠ .deleted → ¬ SourceIndex.Endless after u) := by
  have accepts : (w.matcherOf .sources).accepts u.toString = true := accepted.accepts
  rw [← Graph.Current.exists_handle_iff (x := w.sources) transposed, dispatch, if_pos accepts, handle,
    accepted.canonical.ofPath_toString, ← Option.isSome_iff_exists, ← Option.isSome_iff_exists]
  simp [readSources]

theorem dispatch_modules {event : FileEvent} {path : String} {done : Option (Result Unit) × Workspace}
    (returns : w.dispatch t .modules event path = some done) :
    done.2.sourceMatcher = w.sourceMatcher ∧ done.2.graph = w.graph := by
  rcases dispatch_cases returns with same | ⟨u, _, ⟨other, _⟩ | ⟨_, same⟩⟩
  · rw [same]
    exact ⟨rfl, rfl⟩
  · cases other
  · rw [same]
    exact ⟨rfl, rfl⟩

namespace Faithful

/-- A change of one accepted file, followed by its event. -/
theorem change (h : w.Faithful m t) (accepted : m.Accepted u)
    (kept : KeepsBut u t after ∧ ¬ t.HasDirectory u) {event : FileEvent} {done : Option (Result Unit) × Workspace}
    (returns : w.dispatch after .sources event u.toString = some done) : done.2.Faithful m after := by
  have same : ∀ v e, v ≠ u → w.graph.forward? v = some e → SourceIndex.described after v = some e := by
    intro v e other live
    apply SourceIndex.described_of_file _ (h.current.described live)
    intro f found
    have plain := (h.accepted v (by rw [live]; rfl)).canonical.plain
    exact file_of_keepsBut kept.1 kept.2 plain other found
  obtain ⟨inner, reacted, after_event⟩ := dispatch_sources (h.matcher ▸ accepted) returns
  obtain ⟨current, resident⟩ := Graph.Current.handle (x := w.sources) h.current same reacted
  rw [after_event]
  refine ⟨h.matcher, current, fun v live => ?_⟩
  rcases resident v live with rfl | before
  · exact accepted
  · exact h.accepted v before

theorem entry (h : w.Faithful m t) (accepted : m.Accepted u) {done : Result (Option SourceEntry) × Workspace}
    (returns : w.entry t u = some done) : done.2.Faithful m t := by
  obtain ⟨inner, found, rfl⟩ := readSources_eq_some.mp returns
  obtain ⟨current, resident⟩ := Graph.Current.getOrIndex (x := w.sources) h.current found
  refine ⟨h.matcher, current, fun v live => ?_⟩
  rcases resident v live with rfl | before
  · exact accepted
  · exact h.accepted v before

theorem modules (h : w.Faithful m t) {event : FileEvent} {path : String} {done : Option (Result Unit) × Workspace}
    (returns : w.dispatch t .modules event path = some done) : done.2.Faithful m t := by
  obtain ⟨matcher, graph⟩ := dispatch_modules returns
  refine ⟨matcher.trans h.matcher, ?_, ?_⟩
  · rw [graph]
    exact h.current
  · rw [graph]
    exact h.accepted

/-- After a scan the resident entries are those that the accepted files call for. -/
theorem forward?_scan (h : w.Faithful m t) (walks : m.WalksAccepted t) {done : WorkspaceScan × Workspace}
    (returns : w.scan t = some done) (v : FileUri) :
    done.2.graph.forward? v = if v ∈ m.walk t then SourceIndex.described t v else none := by
  obtain ⟨inner, indexed, rfl⟩ := scan_eq_some.mp returns
  have scanned : inner.2.graph.forward? v =
      if v ∈ (w.sourceMatcher.walk t).map Path.normalize then SourceIndex.described t v
      else w.graph.forward? v :=
    (Graph.Current.scan (x := w.sources) h.current indexed).2 v
  change inner.2.graph.forward? v = _
  have plain : ∀ p ∈ m.walk t, p.normalize = id p := by
    intro p listed
    exact ((walks p).mp listed).1.canonical.plain.normalize_eq
  have normal : (m.walk t).map Path.normalize = m.walk t := by
    rw [List.map_congr_left plain, List.map_id]
  rw [scanned, h.matcher, normal]
  split
  · rfl
  · rename_i unlisted
    cases live : w.graph.forward? v with
    | none => rfl
    | some e =>
        -- A resident entry has a file, and its path is accepted, so the scan has come to it.
        obtain ⟨f, _, _, found, _⟩ := SourceIndex.described_eq_some.mp (h.current.described live)
        have accepted := h.accepted v (by rw [live]; rfl)
        exact absurd ((walks v).mpr ⟨accepted, isFile_iff.mpr ⟨f, found⟩⟩) unlisted

theorem scan (h : w.Faithful m t) (walks : m.WalksAccepted t) {done : WorkspaceScan × Workspace}
    (returns : w.scan t = some done) : done.2.Faithful m t := by
  have accepted : ∀ v, (done.2.graph.forward? v).isSome → m.Accepted v := by
    intro v live
    rw [h.forward?_scan walks returns] at live
    split at live
    · rename_i listed
      exact ((walks v).mp listed).1
    · simp at live
  obtain ⟨inner, indexed, rfl⟩ := scan_eq_some.mp returns
  exact ⟨h.matcher, (Graph.Current.scan (x := w.sources) h.current indexed).1, accepted⟩

/-- What is resident is read from files that can be read to their ends, so a scan returns if all others can be. -/
theorem exists_scan_iff (h : w.Faithful m t) (walks : m.WalksAccepted t) :
    (∃ done, w.scan t = some done) ↔ ∀ u ∈ m.walk t, ¬ SourceIndex.Endless t u := by
  rw [exists_scan_iff_sources, SourceIndex.exists_scan_iff, h.matcher]
  refine forall₂_congr fun u listed => ?_
  rw [((walks u).mp listed).1.canonical.plain.normalize_eq, ne_eq, not_iff_not, ← SourceIndex.examine_none_eq_none]
  cases live : w.sources.graph.get? u with
  | none => rfl
  | some e =>
      have forward : w.graph.forward? u = some e.forward := Option.map_eq_some_iff.mpr ⟨e, live, rfl⟩
      have called := h.current.described forward
      have ends := SourceIndex.not_endless_of_described called
      rw [SourceIndex.examine_none_eq_none, SourceIndex.examine_resident called]
      simp [ends]

end Faithful

theorem faithful_of_empty (nothing : w.graph = .empty) (t : FileTree) : w.Faithful w.sourceMatcher t where
  matcher := rfl
  current := nothing ▸ .empty t
  accepted := by
    intro u live
    rw [nothing] at live
    simp [Graph.forward?, Graph.get?, Graph.empty] at live

theorem Session.faithful {w₀ : Workspace} {t₀ : FileTree} (nothing : w₀.graph = .empty)
    (session : Session w₀ t₀ w t) : w.Faithful w₀.sourceMatcher t := by
  induction session with
  | start => exact faithful_of_empty nothing t₀
  | write _ accepted written returns ih =>
      rw [ih.matcher] at accepted
      exact ih.change accepted (put_keepsBut accepted.canonical.plain written) returns
  | delete _ accepted removed returns ih =>
      rw [ih.matcher] at accepted
      exact ih.change accepted (removeFile_keepsBut accepted.canonical.plain removed) returns
  | modules _ returns ih => exact ih.modules returns
  | entry _ accepted returns ih => exact ih.entry (ih.matcher ▸ accepted) returns
  | scan _ walks returns ih => exact ih.scan (ih.matcher ▸ walks) returns

/-- At every point of a session that starts with nothing resident, every resident entry is the one made
    from the current bytes and time of its file, and lists exactly the resident entries that depend on it.
    One more scan returns if no file of the index is read for ever. Then every file that is a document has its entry,
    and the first scan of a fresh index returns as well and gets the very same graph from the files. -/
theorem session_converges {w₀ : Workspace} {t₀ : FileTree} (nothing : w₀.graph = .empty)
    (session : Session w₀ t₀ w t) :
    (∀ u e, w.graph.get? u = some e →
      (∃ f text d, t.file u = .ok f ∧ String.fromUTF8? f.content = some text ∧
        Document.parse text.toList = .parsed d ∧
        { e with dependedBy := [] } = SourceEntry.ofDocument u (Digest.ofBytes f.content.toList) f.time d) ∧
      Increasing e.dependedBy ∧
      ∀ source, source ∈ e.dependedBy ↔ ∃ d, w.graph.get? source = some d ∧ u ∈ d.dependsOn) ∧
    (w₀.sourceMatcher.WalksAccepted t →
      ((∃ done, w.scan t = some done) ↔ ∀ u ∈ w₀.sourceMatcher.walk t, ¬ SourceIndex.Endless t u) ∧
      ∀ done, w.scan t = some done →
        (∀ u ∈ w₀.sourceMatcher.walk t, ∀ f text d, t.file u = .ok f → String.fromUTF8? f.content = some text →
          Document.parse text.toList = .parsed d →
          ∃ e, done.2.graph.get? u = some e ∧
            { e with dependedBy := [] } = SourceEntry.ofDocument u (Digest.ofBytes f.content.toList) f.time d) ∧
        ∀ fresh : Workspace, fresh.graph = .empty → fresh.sourceMatcher = w₀.sourceMatcher →
          ∃ first, fresh.scan t = some first ∧ done.2.graph = first.2.graph) := by
  have h := session.faithful nothing
  constructor
  · intro u e live
    have forward : w.graph.forward? u = some e.forward := by rw [Graph.forward?, live, Option.map_some]
    refine ⟨SourceIndex.described_eq_some.mp (h.current.described forward), ?_, ?_⟩
    · rw [h.current.transposed.dependedBy_eq live]
      exact h.current.transposed.increasing u
    · intro source
      exact h.current.transposed.mem_dependedBy live
  · intro walks
    refine ⟨h.exists_scan_iff walks, fun done returns => ⟨?_, fun fresh empty same_matcher => ?_⟩⟩
    · intro u listed f text d found decoded parsed
      have forward := h.forward?_scan walks returns u
      rw [if_pos listed, SourceIndex.described_eq_some.mpr ⟨f, text, d, found, decoded, parsed, rfl⟩] at forward
      exact Option.map_eq_some_iff.mp forward
    · have fresh_faithful : fresh.Faithful w₀.sourceMatcher t := same_matcher ▸ faithful_of_empty empty t
      obtain ⟨first, scanned⟩ :=
        (fresh_faithful.exists_scan_iff walks).mpr ((h.exists_scan_iff walks).mp ⟨done, returns⟩)
      refine ⟨first, scanned, ?_⟩
      apply (h.scan walks returns).current.transposed.ext (fresh_faithful.scan walks scanned).current.transposed
      intro v
      rw [h.forward?_scan walks returns, fresh_faithful.forward?_scan walks scanned]

/-! ## A session with two files

A workspace below `/w` with the standard exclusions, in which `A.qml` is written before the `B.qml` that it
imports. -/

namespace TwoFiles

def root : Path := ⟨[.root, .name "w"]⟩

def bare : FileTree where
  nodes := OrdMap.empty.insert root (.directory 1)

def a : FileUri := root.child "A.qml"

def b : FileUri := root.child "B.qml"

def onlyA : FileTree where
  nodes := bare.nodes.insert a (.file ⟨"import \"B.qml\"\nItem \x7b\x7d\n".toUTF8, 5⟩)

def both : FileTree where
  nodes := onlyA.nodes.insert b (.file ⟨"Item \x7b\x7d\n".toUTF8, 7⟩)

def matcher : Matcher where
  root
  glob := ⟨[.anyDirs, .anyRun, .char '.', .char 'q', .char 'm', .char 'l']⟩
  exclusion := some (Ignore.Exclusion.load bare root [])

def opened : Workspace where
  root
  config := {}
  sourceMatcher := matcher
  manifestMatcher := ⟨root, ⟨[.anyDirs, .char 'q']⟩, none⟩
  store := .empty

def afterA : Workspace := ((opened.dispatch onlyA .sources .created a.toString).getD (none, opened)).2

def afterBoth : Workspace := ((afterA.dispatch both .sources .created b.toString).getD (none, opened)).2

set_option maxRecDepth 10000 in
theorem evaluated :
    (matcher.accepts a.toString = true ∧ matcher.accepts b.toString = true ∧ matcher.walk both = [a, b]) ∧
      (SourceIndex.described onlyA a).map SourceEntry.lastModified = some 5 ∧
      (SourceIndex.described both a).map SourceEntry.lastModified = some 5 ∧
      (SourceIndex.described both b).map SourceEntry.lastModified = some 7 := by
  decide +kernel

theorem accepted_a : matcher.Accepted a := ⟨rfl, evaluated.1.1⟩

theorem accepted_b : matcher.Accepted b := ⟨rfl, evaluated.1.2.1⟩

theorem listing : matcher.walk both = [a, b] := evaluated.1.2.2

theorem dated :
    (SourceIndex.described onlyA a).map SourceEntry.lastModified = some 5 ∧
      (SourceIndex.described both a).map SourceEntry.lastModified = some 5 ∧
      (SourceIndex.described both b).map SourceEntry.lastModified = some 7 :=
  evaluated.2

theorem not_endless {t : FileTree} {u : FileUri} {time : Timestamp}
    (called : (SourceIndex.described t u).map SourceEntry.lastModified = some time) : ¬ SourceIndex.Endless t u := by
  obtain ⟨e, made, _⟩ := Option.map_eq_some_iff.mp called
  exact SourceIndex.not_endless_of_described made

theorem session : Session opened bare afterBoth both := by
  obtain ⟨done_a, dispatched_a⟩ : ∃ done, opened.dispatch onlyA .sources .created a.toString = some done :=
    (exists_dispatch_iff accepted_a Graph.empty_transposed).mpr fun _ => not_endless dated.1
  have same_a : afterA = done_a.2 := by rw [afterA, dispatched_a, Option.getD_some]
  have first : Session opened bare afterA onlyA := same_a ▸ .write .start accepted_a rfl dispatched_a
  have faithful := first.faithful rfl
  have accepted : afterA.sourceMatcher.Accepted b := faithful.matcher ▸ accepted_b
  obtain ⟨done_b, dispatched_b⟩ : ∃ done, afterA.dispatch both .sources .created b.toString = some done :=
    (exists_dispatch_iff accepted faithful.current.transposed).mpr fun _ => not_endless dated.2.2
  have same_b : afterBoth = done_b.2 := by rw [afterBoth, dispatched_b, Option.getD_some]
  exact same_b ▸ .write first accepted rfl dispatched_b

theorem walks : matcher.WalksAccepted both := by
  intro u
  rw [listing]
  constructor
  · intro listed
    simp only [List.mem_cons, List.not_mem_nil, or_false] at listed
    rcases listed with rfl | rfl
    · exact ⟨accepted_a, by decide⟩
    · exact ⟨accepted_b, by decide⟩
  · rintro ⟨accepted, there⟩
    obtain ⟨f, found⟩ := get?_of_isFile accepted.canonical.plain there
    rw [at?] at found
    split at found
    · simp at found
    · simp only [both, onlyA, bare, OrdMap.get?_insert, OrdMap.get?_empty] at found
      split at found
      · simp [*]
      · split at found
        · simp [*]
        · split at found <;> simp at found

end TwoFiles

open TwoFiles in
theorem session_converges_two_files :
    Session opened bare afterBoth both ∧ ∃ done first, afterBoth.scan both = some done ∧
      opened.scan both = some first ∧ done.2.graph = first.2.graph ∧
      (∃ e, done.2.graph.get? a = some e ∧ e.lastModified = 5) ∧
      ∃ e, done.2.graph.get? b = some e ∧ e.lastModified = 7 := by
  obtain ⟨_, scans⟩ := session_converges rfl session
  obtain ⟨ends, converges⟩ := scans walks
  change _ ↔ ∀ u ∈ matcher.walk both, _ at ends
  rw [listing, List.forall_mem_cons, List.forall_mem_singleton] at ends
  obtain ⟨done, returns⟩ := ends.mpr ⟨not_endless dated.2.1, not_endless dated.2.2⟩
  obtain ⟨entries, fresh⟩ := converges done returns
  obtain ⟨first, scanned, same⟩ := fresh opened rfl rfl
  have entry : ∀ u time, u ∈ matcher.walk both →
      (SourceIndex.described both u).map SourceEntry.lastModified = some time →
      ∃ e, done.2.graph.get? u = some e ∧ e.lastModified = time := by
    intro u time listed called
    obtain ⟨_, made, rfl⟩ := Option.map_eq_some_iff.mp called
    obtain ⟨f, text, d, found, decoded, parsed, rfl⟩ := SourceIndex.described_eq_some.mp made
    obtain ⟨e, live, whole⟩ := entries u listed f text d found decoded parsed
    have same_time := congrArg SourceEntry.lastModified whole
    exact ⟨e, live, same_time⟩
  exact ⟨session, done, first, returns, scanned, same, entry a 5 (by simp [listing]) dated.2.1,
    entry b 7 (by simp [listing]) dated.2.2⟩

end Workspace

end QmlIndex
