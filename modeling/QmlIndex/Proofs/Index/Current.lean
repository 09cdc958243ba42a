import QmlIndex.SourceIndex
import QmlIndex.Proofs.FileTree
import QmlIndex.Proofs.Graph.Invalidation

/-! # Current graphs

A graph is current if every resident entry is what its file calls for now, up to the edges towards it,
which are the transpose of the others. Indexing a file, a scan, and the reaction to an event lead from
current graphs to current graphs, if they return, and each is said here by the entries that it leaves.
-/

namespace QmlIndex

namespace SourceIndex

/-- The entry that the file at a path calls for, if it can be read and parsed. -/
def described (t : FileTree) (u : FileUri) : Option SourceEntry :=
  match examine t u none with
  | some (.ok (e, _)) => some e
  | _ => none

theorem readDocument_eq_ok {text : String} {d : Document} :
    readDocument text = some (.ok d) ↔ Document.parse text.toList = .parsed d := by
  rw [readDocument]
  split <;> simp_all

theorem examine_none_eq_ok {t : FileTree} {u : FileUri} {e : SourceEntry} {o : Outcome} :
    examine t u none = some (.ok (e, o)) ↔
      o = .parsed ∧ ∃ f text d, t.file u = .ok f ∧ String.fromUTF8? f.content = some text ∧
        Document.parse text.toList = .parsed d ∧
        e = SourceEntry.ofDocument u (Digest.ofBytes f.content.toList) f.time d := by
  rw [examine]
  constructor
  · intro h
    split at h
    · simp at h
    · rename_i f found
      simp only [Option.filter_none] at h
      split at h
      · rename_i text decoded
        obtain ⟨read, parsed, made⟩ := Option.map_eq_some_iff.mp h
        cases read with
        | error fault => cases made
        | ok d =>
            obtain ⟨rfl, rfl⟩ := Prod.mk.inj (Except.ok.inj made)
            exact ⟨rfl, f, text, d, found, decoded, readDocument_eq_ok.mp parsed, rfl⟩
      · simp at h
  · rintro ⟨rfl, f, text, d, found, decoded, parsed, rfl⟩
    simp only [found, Option.filter_none, decoded, readDocument_eq_ok.mpr parsed]
    rfl

/-- The file at a path holds a text that is read for ever. -/
def Endless (t : FileTree) (u : FileUri) : Prop :=
  ∃ f text, t.file u = .ok f ∧ String.fromUTF8? f.content = some text ∧ Document.parse text.toList = .stuck

theorem readDocument_eq_none {text : String} : readDocument text = none ↔ Document.parse text.toList = .stuck := by
  rw [readDocument]
  split <;> simp_all

theorem examine_none_eq_none {t : FileTree} {u : FileUri} : examine t u none = none ↔ Endless t u := by
  cases found : t.file u with
  | error fault => simp [examine, Endless, found]
  | ok f =>
      cases decoded : String.fromUTF8? f.content with
      | none => simp [examine, Endless, found, decoded]
      | some text => simp [examine, Endless, found, decoded, readDocument_eq_none]

/-- A file calls for the entry of its text, made with the digest of its bytes and its time. -/
theorem described_eq_some {t : FileTree} {u : FileUri} {e : SourceEntry} :
    described t u = some e ↔
      ∃ f text d, t.file u = .ok f ∧ String.fromUTF8? f.content = some text ∧
        Document.parse text.toList = .parsed d ∧
        e = SourceEntry.ofDocument u (Digest.ofBytes f.content.toList) f.time d := by
  rw [described]
  constructor
  · intro h
    split at h
    · rename_i e' o examined
      obtain rfl := Option.some.inj h
      exact (examine_none_eq_ok.mp examined).2
    · cases h
  · intro h
    rw [examine_none_eq_ok.mpr ⟨rfl, h⟩]

theorem not_endless_of_described {t : FileTree} {u : FileUri} {e : SourceEntry} (h : described t u = some e) :
    ¬ Endless t u := by
  rw [← examine_none_eq_none, examine_none_eq_ok.mpr ⟨rfl, described_eq_some.mp h⟩]
  simp

theorem described_uri {t : FileTree} {u : FileUri} {e : SourceEntry} (h : described t u = some e) :
    e.uri = u ∧ e.forward = e := by
  obtain ⟨f, text, d, _, _, _, rfl⟩ := described_eq_some.mp h
  exact ⟨rfl, rfl⟩

/-- What a file calls for hangs on the file alone. -/
theorem described_of_file {t after : FileTree} {u : FileUri} {e : SourceEntry}
    (same : ∀ f, t.file u = .ok f → after.file u = .ok f) (h : described t u = some e) :
    described after u = some e := by
  obtain ⟨f, text, d, found, rest⟩ := described_eq_some.mp h
  exact described_eq_some.mpr ⟨f, text, d, same f found, rest⟩

/-! ## One file -/

theorem examine_resident {t : FileTree} {u : FileUri} {e : SourceEntry}
    (current : described t u = some e.forward) : examine t u (some e) = some (.ok (e, .cached)) := by
  obtain ⟨f, text, d, found, _, _, same⟩ := described_eq_some.mp current
  have hash : e.contentHash = Digest.ofBytes f.content.toList := congrArg SourceEntry.contentHash same
  have time : e.lastModified = f.time := congrArg SourceEntry.lastModified same
  have kept : (some e).filter (·.isCurrent (Digest.ofBytes f.content.toList) f.time) = some e := by
    simp [SourceEntry.isCurrent, hash, time]
  simp only [examine, found, kept]

/-- A file whose entry is resident and current is not read into the graph again. -/
theorem indexFile_resident {x : SourceIndex} {t : FileTree} {u : FileUri} {e : SourceEntry}
    (live : x.graph.get? u = some e) (current : described t u = some e.forward) (persist : Bool) :
    x.indexFile t u persist = some (.ok (e, .cached), x) := by
  rw [indexFile, live, examine_resident current]
  rfl

/-- A file without a resident entry gets the one it calls for, or none. -/
theorem indexFile_absent {x : SourceIndex} {t : FileTree} {u : FileUri} (absent : x.graph.get? u = none)
    {persist : Bool} {done : Result (SourceEntry × Outcome) × SourceIndex}
    (returns : x.indexFile t u persist = some done) :
    done.2.graph = ((described t u).map x.graph.insert).getD x.graph := by
  rw [indexFile, absent] at returns
  obtain ⟨found, examined, rfl⟩ := Option.map_eq_some_iff.mp returns
  rw [described, examined]
  cases found with
  | error e => rfl
  | ok result =>
      obtain ⟨e, o⟩ := result
      obtain ⟨rfl, _⟩ := examine_none_eq_ok.mp examined
      rfl

/-! ## What returns -/

theorem Progress.enter_index (p : Progress) (path : Path) (done : Result (SourceEntry × Outcome) × SourceIndex) :
    (p.enter path done).index = done.2 := by
  obtain ⟨_ | ⟨e, _ | _⟩, y⟩ := done <;> rfl

/-- A member of a batch is done when its file is. -/
theorem Progress.step_eq_some {t : FileTree} {p q : Progress} {path : Path} : p.step t path = some q ↔
    ∃ done, p.index.indexFile t path.normalize false = some done ∧ p.enter path done = q := Option.map_eq_some_iff

theorem Progress.steps_cons {t : FileTree} {p q : Progress} {path : Path} {rest : List Path} :
    (path :: rest).foldlM (Progress.step t) p = some q ↔
      ∃ mid, p.step t path = some mid ∧ rest.foldlM (Progress.step t) mid = some q := by
  rw [List.foldlM_cons]
  exact Option.bind_eq_some_iff

/-- A batch is done when all its members are. -/
theorem scanBatch_eq_some {t : FileTree} {s s' : ScanStats × SourceIndex} {batch : List Path} :
    scanBatch t s batch = some s' ↔ ∃ p, batch.foldlM (Progress.step t) ⟨s.1, [], s.2⟩ = some p ∧
      (p.stats, p.index.persist p.produced) = s' := Option.map_eq_some_iff

theorem batches_cons {t : FileTree} {s s' : ScanStats × SourceIndex} {batch : List Path} {rest : List (List Path)} :
    (batch :: rest).foldlM (scanBatch t) s = some s' ↔
      ∃ mid, scanBatch t s batch = some mid ∧ rest.foldlM (scanBatch t) mid = some s' := by
  rw [List.foldlM_cons]
  exact Option.bind_eq_some_iff

theorem scanBatches_eq_some {t : FileTree} {x : SourceIndex} {batches : List (List Path)}
    {done : ScanStats × SourceIndex} : x.scanBatches t batches = some done ↔
      ∃ last, batches.foldlM (scanBatch t) ({ files := batches.flatten.length }, x) = some last ∧
        (last.1, { last.2 with graph := last.2.graph.rebuild }) = done := Option.map_eq_some_iff

end SourceIndex

open SourceIndex

/-- Every resident entry is what its file calls for, and the edges towards entries are the transpose of the
    others. -/
structure Graph.Current (g : Graph) (t : FileTree) : Prop where
  transposed : g.Transposed
  described : ∀ {u e}, g.forward? u = some e → described t u = some e

namespace Graph.Current

theorem empty (t : FileTree) : Graph.empty.Current t where
  transposed := empty_transposed
  described := by
    intro u e live
    simp [forward?, get?, Graph.empty] at live

/-- Indexing a file leaves under its path the entry that the file calls for, and all else as it was. -/
theorem indexFile {x : SourceIndex} {t : FileTree} (c : x.graph.Current t) {u : FileUri} {persist : Bool}
    {done : Result (SourceEntry × Outcome) × SourceIndex} (returns : x.indexFile t u persist = some done) :
    done.2.graph.Current t ∧
      ∀ v, done.2.graph.forward? v = if v = u then SourceIndex.described t u else x.graph.forward? v := by
  cases live : x.graph.get? u with
  | some e =>
      have forward : x.graph.forward? u = some e.forward := by rw [forward?, live, Option.map_some]
      have current := c.described forward
      rw [indexFile_resident live current] at returns
      obtain rfl := Option.some.inj returns
      refine ⟨c, fun v => ?_⟩
      split
      · rename_i same
        rw [same, current, forward]
      · rfl
  | none =>
      have nothing : x.graph.forward? u = none := by rw [forward?, live, Option.map_none]
      rw [indexFile_absent live returns]
      cases called : SourceIndex.described t u with
      | none =>
          refine ⟨c, fun v => ?_⟩
          rw [Option.map_none, Option.getD_none]
          split
          · rename_i same
            rw [same, nothing]
          · rfl
      | some e =>
          obtain ⟨rfl, whole⟩ := described_uri called
          have forward := forward?_insert c.transposed e
          rw [whole] at forward
          refine ⟨⟨c.transposed.insert e, ?_⟩, forward⟩
          intro v d live
          rw [Option.map_some, Option.getD_some, forward] at live
          split at live
          · rename_i same
            rw [same, called, live]
          · exact c.described live

theorem resident_of_indexFile {x : SourceIndex} {t : FileTree} (c : x.graph.Current t) {u v : FileUri}
    {persist : Bool} {done : Result (SourceEntry × Outcome) × SourceIndex}
    (returns : x.indexFile t u persist = some done) (live : (done.2.graph.forward? v).isSome) :
    v = u ∨ (x.graph.forward? v).isSome := by
  rw [(c.indexFile returns).2] at live
  by_cases here : v = u
  · exact .inl here
  · rw [if_neg here] at live
    exact .inr live

/-! ## Scans -/

theorem steps {t : FileTree} {paths : List Path} {p q : Progress} (c : p.index.graph.Current t)
    (returns : paths.foldlM (Progress.step t) p = some q) :
    q.index.graph.Current t ∧ ∀ v, q.index.graph.forward? v =
      if v ∈ paths.map Path.normalize then SourceIndex.described t v else p.index.graph.forward? v := by
  induction paths generalizing p with
  | nil =>
      obtain rfl := Option.some.inj returns
      exact ⟨c, by simp⟩
  | cons path rest ih =>
      obtain ⟨mid, first, others⟩ := Progress.steps_cons.mp returns
      obtain ⟨done, indexed, rfl⟩ := Progress.step_eq_some.mp first
      obtain ⟨after, forward⟩ := c.indexFile indexed
      rw [← p.enter_index path done] at after forward
      obtain ⟨final, rest_forward⟩ := ih after others
      refine ⟨final, fun v => ?_⟩
      rw [rest_forward, forward, List.map_cons]
      by_cases here : v = path.normalize <;> by_cases later : v ∈ rest.map Path.normalize <;>
        simp [here, later]

theorem batches {t : FileTree} {batches : List (List Path)} {s s' : ScanStats × SourceIndex}
    (c : s.2.graph.Current t) (returns : batches.foldlM (scanBatch t) s = some s') :
    s'.2.graph.Current t ∧ ∀ v, s'.2.graph.forward? v =
      if v ∈ batches.flatten.map Path.normalize then SourceIndex.described t v else s.2.graph.forward? v := by
  induction batches generalizing s with
  | nil =>
      obtain rfl := Option.some.inj returns
      exact ⟨c, by simp⟩
  | cons batch rest ih =>
      obtain ⟨mid, first, others⟩ := batches_cons.mp returns
      obtain ⟨p, settled, rfl⟩ := scanBatch_eq_some.mp first
      obtain ⟨after, forward⟩ := steps c settled
      obtain ⟨final, rest_forward⟩ := ih after others
      refine ⟨final, fun v => ?_⟩
      have batch_forward : (p.index.persist p.produced).graph.forward? v =
          if v ∈ batch.map Path.normalize then SourceIndex.described t v else s.2.graph.forward? v :=
        forward v
      rw [rest_forward, batch_forward, List.flatten_cons, List.map_append]
      by_cases here : v ∈ batch.map Path.normalize <;>
        by_cases later : v ∈ rest.flatten.map Path.normalize <;> simp only [here, later, List.mem_append,
          or_true, true_or, or_self, if_true, if_false]

/-- A scan leaves under every path that it comes to the entry that the file calls for. -/
theorem scan {x : SourceIndex} {t : FileTree} (c : x.graph.Current t) {m : Matcher} {batchSize : Nat}
    {done : ScanStats × SourceIndex} (returns : x.scan t m batchSize = some done) :
    done.2.graph.Current t ∧ ∀ v, done.2.graph.forward? v =
      if v ∈ (m.walk t).map Path.normalize then SourceIndex.described t v else x.graph.forward? v := by
  obtain ⟨last, settled, rfl⟩ := scanBatches_eq_some.mp returns
  obtain ⟨after, forward⟩ := batches (s := ({ files := _ }, x)) c settled
  rw [flatten_pieces] at forward
  have same : last.2.graph.rebuild = last.2.graph := after.transposed.rebuild_eq
  simp only [same]
  exact ⟨after, forward⟩

/-! ## Events and queries -/

/-- The entries that are left after a change at one path, once that path is invalidated, are those whose
    files are as they were. -/
theorem invalidate {x : SourceIndex} {t after : FileTree} (c : x.graph.Current t) {u : FileUri}
    (same : ∀ v e, v ≠ u → x.graph.forward? v = some e → SourceIndex.described after v = some e) :
    (x.invalidate u).2.graph.Current after ∧
      ∀ v e, (x.invalidate u).2.graph.forward? v = some e → x.graph.forward? v = some e := by
  have cleared : x.graph.Cleared [u] (x.invalidate u).2.graph (x.graph.invalidate u).2 :=
    invalidate_cleared c.transposed u
  have kept : ∀ v e, (x.invalidate u).2.graph.forward? v = some e →
      v ∉ (x.graph.invalidate u).2 ∧ x.graph.forward? v = some e := by
    intro v e live
    rw [cleared.forward] at live
    split at live
    · simp at live
    · rename_i spared
      exact ⟨spared, live⟩
  refine ⟨⟨cleared.transposed, ?_⟩, fun v e live => (kept v e live).2⟩
  intro v e live
  obtain ⟨spared, before⟩ := kept v e live
  refine same v e ?_ before
  rintro rfl
  obtain ⟨d, resident, _⟩ := Option.map_eq_some_iff.mp before
  apply spared
  rw [cleared.mem_removed]
  exact ⟨v, List.mem_singleton_self v, .here (contains_iff.mpr ⟨d, resident⟩)⟩

/-- The reaction to an event is done some time, unless it has to read a text for ever. -/
theorem exists_handle_iff {x : SourceIndex} {t : FileTree} (transposed : x.graph.Transposed) {event : FileEvent}
    {u : FileUri} : (∃ done, x.handle t event u = some done) ↔ (event ≠ .deleted → ¬ Endless t u) := by
  have absent : (x.invalidate u).2.graph.get? u = none := by
    rw [← Option.map_eq_none_iff (f := SourceEntry.forward)]
    refine ((invalidate_cleared transposed u).forward u).trans ?_
    split
    · rfl
    · rename_i spared
      cases live : x.graph.get? u with
      | none => rw [forward?, live, Option.map_none]
      | some e =>
          have reached : x.graph.Reaches u u := .here (contains_iff.mpr ⟨e, live⟩)
          exact absurd (((invalidate_cleared transposed u).mem_removed u).mpr ⟨u, by simp, reached⟩) spared
  rw [← Option.isSome_iff_exists]
  cases event with
  | deleted => simp [SourceIndex.handle]
  | created | changed =>
      simp [SourceIndex.handle, SourceIndex.indexFile, absent, ← examine_none_eq_none, Option.isSome_iff_ne_none]

theorem handle {x : SourceIndex} {t after : FileTree} (c : x.graph.Current t) {u : FileUri}
    (same : ∀ v e, v ≠ u → x.graph.forward? v = some e → SourceIndex.described after v = some e)
    {event : FileEvent} {done : Result Unit × SourceIndex} (returns : x.handle after event u = some done) :
    done.2.graph.Current after ∧
      ∀ v, (done.2.graph.forward? v).isSome → v = u ∨ (x.graph.forward? v).isSome := by
  obtain ⟨cleared, kept⟩ := c.invalidate same
  have left : ∀ v, ((x.invalidate u).2.graph.forward? v).isSome → (x.graph.forward? v).isSome := by
    intro v live
    obtain ⟨e, live⟩ := Option.isSome_iff_exists.mp live
    exact Option.isSome_iff_exists.mpr ⟨e, kept v e live⟩
  cases event with
  | deleted =>
      obtain rfl := Option.some.inj returns
      exact ⟨cleared, fun v live => .inr (left v live)⟩
  | created | changed =>
      obtain ⟨indexed, here, rfl⟩ := Option.map_eq_some_iff.mp returns
      refine ⟨(cleared.indexFile here).1, fun v live => ?_⟩
      exact (cleared.resident_of_indexFile here live).imp_right (left v)

theorem getOrIndex {x : SourceIndex} {t : FileTree} (c : x.graph.Current t) {u : FileUri}
    {done : Result (Option SourceEntry) × SourceIndex} (returns : x.getOrIndex t u = some done) :
    done.2.graph.Current t ∧
      ∀ v, (done.2.graph.forward? v).isSome → v = u ∨ (x.graph.forward? v).isSome := by
  have unchanged : x.graph.Current t ∧ ∀ v, (x.graph.forward? v).isSome → v = u ∨ (x.graph.forward? v).isSome :=
    ⟨c, fun _ live => .inr live⟩
  rw [SourceIndex.getOrIndex] at returns
  split at returns
  · obtain rfl := Option.some.inj returns
    exact unchanged
  · split at returns
    · obtain ⟨indexed, here, rfl⟩ := Option.map_eq_some_iff.mp returns
      exact ⟨(c.indexFile here).1, fun v live => c.resident_of_indexFile here live⟩
    · obtain rfl := Option.some.inj returns
      exact unchanged

end Graph.Current

end QmlIndex
