import QmlIndex.Proofs.Graph.Consistency
import QmlIndex.Proofs.Graph.Forward
import QmlIndex.Proofs.Graph.Invalidation

/-! # Graphs after any run

A run is any sequence of operations from the empty graph, on any entries: lists of dependences in any
order, with repetitions, with the entry itself or with paths that are not live, and any lists of
dependents. The results about single operations hold of every graph that a run leads to.
-/

namespace QmlIndex.Graph

/-- What can be done to a graph. -/
inductive Operation where
  | insert (e : SourceEntry)
  | load (entries : List SourceEntry)
  | remove (u : FileUri)
  | invalidate (u : FileUri)
  | rebuild
  | clear
  deriving DecidableEq, Repr

/-- One operation; what it answers is dropped. -/
def apply (g : Graph) : Operation → Graph
  | .insert e => g.insert e
  | .load entries => Graph.load entries
  | .remove u => g.remove u
  | .invalidate u => (g.invalidate u).1
  | .rebuild => g.rebuild
  | .clear => empty

/-- The graph after a run from the empty graph. -/
def run (operations : List Operation) : Graph := operations.foldl apply empty

theorem run_snoc (operations : List Operation) (operation : Operation) :
    run (operations ++ [operation]) = (run operations).apply operation := by
  rw [run, List.foldl_append]
  rfl

/-- One operation keeps the two directions in step. -/
theorem Transposed.apply {g : Graph} (t : g.Transposed) (operation : Operation) :
    (g.apply operation).Transposed := by
  cases operation with
  | insert e => exact t.insert e
  | load entries => exact load_transposed entries
  | remove u => exact t.remove u
  | invalidate u => exact (invalidate_cleared t u).transposed
  | rebuild => exact t.rebuild
  | clear => exact empty_transposed

theorem run_transposed (operations : List Operation) : (run operations).Transposed := by
  suffices ∀ g : Graph, g.Transposed → (operations.foldl Graph.apply g).Transposed from
    this empty empty_transposed
  induction operations with
  | nil => exact fun _ t => t
  | cons operation rest ih => exact fun g t => ih _ (t.apply operation)

/-- The entries that an operation is given. -/
def Operation.entries : Operation → List SourceEntry
  | .insert e => [e]
  | .load entries => entries
  | .remove _ | .invalidate _ | .rebuild | .clear => []

theorem Transposed.given_or_live {g : Graph} (t : g.Transposed) {operation : Operation} {u : FileUri} {e : SourceEntry}
    (live : (g.apply operation).forward? u = some e) :
    (∃ d ∈ operation.entries, d.forward = e) ∨ g.forward? u = some e := by
  cases operation with
  | insert d =>
      rw [Graph.apply, forward?_with] at live
      split at live
      · exact .inl ⟨d, List.mem_singleton_self d, Option.some.inj live⟩
      · exact .inr live
  | load entries =>
      rw [Graph.apply, forward?_load] at live
      obtain ⟨d, found, same⟩ := Option.map_eq_some_iff.mp live
      exact .inl ⟨d, List.mem_reverse.mp (List.mem_of_find?_eq_some found), same⟩
  | remove v =>
      rw [Graph.apply, forward?_without] at live
      split at live
      · simp at live
      · exact .inr live
  | invalidate v =>
      rw [Graph.apply, (invalidate_cleared t v).forward] at live
      split at live
      · simp at live
      · exact .inr live
  | rebuild => exact .inr ((forward?_rebuild g u).symm.trans live)
  | clear => simp [Graph.apply, forward?, get?, empty] at live

/-- Every live entry was given to some operation of the run, up to the edges towards it. -/
theorem run_given (operations : List Operation) {u : FileUri} {e : SourceEntry}
    (live : (run operations).forward? u = some e) : ∃ o ∈ operations, ∃ d ∈ o.entries, d.forward = e := by
  suffices ∀ g : Graph, g.Transposed → (operations.foldl Graph.apply g).forward? u = some e →
      (∃ o ∈ operations, ∃ d ∈ o.entries, d.forward = e) ∨ g.forward? u = some e by
    rcases this empty empty_transposed live with given | before
    · exact given
    · simp [forward?, get?, empty] at before
  clear live
  induction operations with
  | nil => exact fun _ _ live => .inr live
  | cons operation rest ih =>
      intro g t live
      rcases ih (g.apply operation) (t.apply operation) live with ⟨o, later, given⟩ | before
      · exact .inl ⟨o, List.mem_cons_of_mem operation later, given⟩
      · rcases t.given_or_live before with given | before
        · exact .inl ⟨operation, List.mem_cons_self, given⟩
        · exact .inr before

/-- After every run: entries are kept under their own paths; the index lists under a path, live or not,
    the live entries that depend on it, and has no path with an empty list; a live entry lists the same
    ones, increasing and so each once; and the consistency check answers yes. -/
theorem run_backward_edges_exact (operations : List Operation) :
    (∀ u e, (run operations).get? u = some e → e.uri = u) ∧
    (∀ target source, source ∈ (run operations).dependentsOf target ↔
      ∃ e, (run operations).get? source = some e ∧ target ∈ e.dependsOn) ∧
    (∀ target sources, (run operations).dependents.get? target = some sources →
      sources ≠ [] ∧ Increasing sources) ∧
    (∀ u e, (run operations).get? u = some e →
      Increasing e.dependedBy ∧
      ∀ source, source ∈ e.dependedBy ↔
        ∃ d, (run operations).get? source = some d ∧ u ∈ d.dependsOn) ∧
    (run operations).isConsistent = true := by
  have t := run_transposed operations
  refine ⟨fun u e => t.own, fun target source => t.mem_dependentsOf, ?_, ?_, t.isConsistent⟩
  · intro target sources listed
    have same : (run operations).dependentsOf target = sources := by rw [dependentsOf, listed, Option.getD_some]
    refine ⟨fun nobody => t.occupied target (nobody ▸ listed), ?_⟩
    rw [← same]
    exact t.increasing target
  · intro u e live
    refine ⟨?_, fun source => t.mem_dependedBy live⟩
    rw [t.dependedBy_eq live]
    exact t.increasing u

/-- Invalidation after every run. A path that is not live changes nothing. From a live one it removes,
    each once and the path itself first, exactly the live entries that reach it, and every further one
    after an entry that it depends on. What is left is the graph of the remaining entries, which lose the
    removed ones among their dependents and nothing else. -/
theorem run_invalidate_exact (operations : List Operation) (u : FileUri) :
    ((run operations).contains u = false → (run operations).invalidate u = (run operations, [])) ∧
    ((run operations).contains u = true → ∃ after removed, (run operations).invalidate u = (after, removed) ∧
      removed.head? = some u ∧
      removed.Nodup ∧
      (∀ v, v ∈ removed ↔ (run operations).Reaches u v) ∧
      (∀ before v rest, removed = before ++ v :: rest → before ≠ [] →
        ∃ w ∈ before, (run operations).DependsOn v w) ∧
      after = load ((run operations).toList.filter fun e => e.uri ∉ removed) ∧
      ∀ v, after.get? v =
        if v ∈ removed then none
        else ((run operations).get? v).map fun e =>
          { e with dependedBy := e.dependedBy.filter (· ∉ removed) }) := by
  have t := run_transposed operations
  constructor
  · intro absent
    apply invalidate_of_absent
    simpa [contains_eq] using absent
  · intro live
    obtain ⟨e, live⟩ := contains_iff.mp live
    have cleared := invalidate_cleared t u
    obtain ⟨others, first⟩ := invalidate_of_live live
    rw [first] at cleared
    refine ⟨_, u :: others, Prod.ext rfl first, rfl, cleared.nodup, ?_, ?_, cleared.eq_load t, cleared.get?_eq t⟩
    · intro v
      simp [cleared.mem_removed]
    · intro before v rest split later
      rcases cleared.caused before v rest split with root | cause
      · obtain rfl := List.mem_singleton.mp root
        obtain ⟨first, before, rfl⟩ := List.exists_cons_of_ne_nil later
        obtain ⟨rfl, tail⟩ := List.cons.inj split
        have once := (List.nodup_cons.mp cleared.nodup).1
        simp [tail] at once
      · exact cause

/-- Invalidation of a list of paths after every run, one after the other. It removes, each once, exactly the live
    entries that reach one of the paths in the graph before, and leaves the graph of the remaining entries. In any
    other order it leaves the same graph and removes the same entries. -/
theorem run_invalidateAll_exact (operations : List Operation) (uris : List FileUri) :
    ∃ after removed, (run operations).invalidateAll uris = (after, removed) ∧
      removed.Nodup ∧
      (∀ v, v ∈ removed ↔ ∃ u ∈ uris, (run operations).Reaches u v) ∧
      after = load ((run operations).toList.filter fun e => e.uri ∉ removed) ∧
      (∀ v, after.get? v =
        if v ∈ removed then none
        else ((run operations).get? v).map fun e =>
          { e with dependedBy := e.dependedBy.filter (· ∉ removed) }) ∧
      ∀ others, uris.Perm others →
        ∃ again, (run operations).invalidateAll others = (after, again) ∧ removed.Perm again := by
  have t := run_transposed operations
  have cleared := invalidateAll_cleared t uris
  refine ⟨_, _, rfl, cleared.nodup, cleared.mem_removed, cleared.eq_load t, cleared.get?_eq t, fun others perm => ?_⟩
  obtain ⟨same, reordered⟩ := cleared.unique (invalidateAll_cleared t others) fun u => perm.mem_iff
  exact ⟨((run operations).invalidateAll others).2, Prod.ext same.symm rfl, reordered⟩

/-- Loading a list into any graph is clearing it and inserting the entries one by one. Entries of different paths may
    be inserted in any order, and computing the edges afresh changes nothing, after every run. -/
theorem run_constructions_agree (operations : List Operation) (entries : List SourceEntry) :
    (∀ g : Graph, g.apply (.load entries) = (entries.map Operation.insert).foldl apply (g.apply .clear)) ∧
    (∀ others, entries.Perm others → (entries.map SourceEntry.uri).Nodup →
      (entries.map Operation.insert).foldl apply (run operations) =
        (others.map Operation.insert).foldl apply (run operations)) ∧
    (run operations).apply .rebuild = run operations := by
  have t := run_transposed operations
  simp only [List.foldl_map]
  exact ⟨fun _ => load_eq_inserts entries, fun _ => t.inserts_perm, t.rebuild_eq⟩

end QmlIndex.Graph
