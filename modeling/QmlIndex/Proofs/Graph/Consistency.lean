import QmlIndex.Proofs.Graph.Transpose

/-! # The check of the edges against the direction of dependence

The check looks at the entries alone. It collects who depends on each live path, as often as the entries say
so, and uses up what it collected while it compares. Nothing is used up too early as long as no two entries
have one path, so the check accepts exactly the graphs whose entries list their dependents, in whatever order
it meets the entries. Those are the graphs whose entries stay as they are when the edges are computed afresh.
-/

namespace QmlIndex.Graph

/-- Every live entry lists exactly the live entries that depend on it, in order and each once. -/
def ListsDependents (g : Graph) : Prop :=
  ∀ u e, g.get? u = some e → Increasing e.dependedBy ∧ ∀ source, source ∈ e.dependedBy ↔ g.DependsOn source u

/-! ## What is collected -/

section Collect

variable {g : Graph} {m : OrdMap FileUri (List FileUri)} {counted source target : FileUri}

theorem mem_sources_tally (named : FileUri) :
    counted ∈ sources (g.tally source m named) target ↔
      (counted = source ∧ target = named ∧ g.contains target) ∨ counted ∈ sources m target := by
  rw [tally]
  by_cases live : g.contains named
  · rw [if_pos live, sources, OrdMap.get?_insert]
    by_cases same : target = named
    · subst same
      simp [live, sources, or_comm]
    · simp [same, sources]
  · rw [if_neg live]
    refine (or_iff_right ?_).symm
    rintro ⟨_, rfl, here⟩
    exact live here

theorem mem_sources_tallies (targets : List FileUri) :
    counted ∈ sources (targets.foldl (g.tally source) m) target ↔
      (counted = source ∧ target ∈ targets ∧ g.contains target) ∨ counted ∈ sources m target := by
  induction targets generalizing m with
  | nil => simp
  | cons named rest ih =>
      rw [List.foldl_cons, ih, mem_sources_tally, List.mem_cons]
      grind

/-- Under a path stand the entries that name it, if it is live. -/
theorem mem_sources_collect {entries : List SourceEntry} :
    source ∈ sources (g.collect entries) target ↔
      g.contains target ∧ ∃ e ∈ entries, e.uri = source ∧ target ∈ e.dependsOn := by
  suffices ∀ m, source ∈ sources (entries.foldl (fun m e => e.dependsOn.foldl (g.tally e.uri) m) m) target ↔
      (g.contains target ∧ ∃ e ∈ entries, e.uri = source ∧ target ∈ e.dependsOn) ∨ source ∈ sources m target by
    rw [collect, this]
    simp [sources]
  induction entries with
  | nil => simp
  | cons e rest ih =>
      intro m
      rw [List.foldl_cons, ih, mem_sources_tallies]
      simp only [List.mem_cons, exists_eq_or_imp]
      grind

end Collect

/-! ## What is compared -/

/-- What is used up for one entry is not missed by the others, which have other paths. -/
theorem agrees_iff {m : OrdMap FileUri (List FileUri)} {entries : List SourceEntry}
    (distinct : (entries.map SourceEntry.uri).Nodup) :
    agrees m entries = true ↔ ∀ e ∈ entries, e.dependedBy = sortPaths (sources m e.uri) := by
  induction entries generalizing m with
  | nil => simp [agrees]
  | cons e rest ih =>
      obtain ⟨fresh, distinct⟩ := List.nodup_cons.mp distinct
      have unused : ∀ d ∈ rest, sources (m.erase e.uri) d.uri = sources m d.uri := by
        intro d later
        have other : d.uri ≠ e.uri := fun same => fresh (List.mem_map.mpr ⟨d, later, same⟩)
        rw [sources, OrdMap.get?_erase, if_neg other, sources]
      rw [agrees, Bool.and_eq_true, beq_iff_eq, ih distinct, List.forall_mem_cons]
      refine and_congr_right fun _ => forall₂_congr fun d later => ?_
      rw [unused d later]

section Keyed

variable {g : Graph} (own : g.entries.KeyedBy SourceEntry.uri)
include own

/-- Whatever the order of the entries, what is collected under a live path is who depends on it. -/
theorem mem_sources_collect_iff {collected : List SourceEntry} (all : collected.Perm g.toList) {u source : FileUri}
    {e : SourceEntry} (live : g.get? u = some e) :
    source ∈ sources (g.collect collected) u ↔ g.DependsOn source u := by
  have here : g.contains u = true := OrdMap.contains_iff.mpr ⟨e, live⟩
  rw [mem_sources_collect, and_iff_right here]
  constructor
  · rintro ⟨d, listed, rfl, edge⟩
    exact ⟨d, own.mem_values.mp (all.mem_iff.mp listed), edge⟩
  · rintro ⟨d, at_source, edge⟩
    obtain rfl := own source d at_source
    exact ⟨d, all.mem_iff.mpr (own.mem_values.mpr at_source), rfl, edge⟩

/-- In every order of the entries the check accepts the graphs whose entries list their dependents. -/
theorem isConsistentIn_iff {collected compared : List SourceEntry} (all : collected.Perm g.toList)
    (each : compared.Perm g.toList) : g.isConsistentIn collected compared = true ↔ g.ListsDependents := by
  have distinct : (compared.map SourceEntry.uri).Nodup := (each.map SourceEntry.uri).nodup_iff.mpr own.nodup
  have right : ∀ {u e}, g.get? u = some e →
      (e.dependedBy = sortPaths (sources (g.collect collected) u) ↔
        Increasing e.dependedBy ∧ ∀ source, source ∈ e.dependedBy ↔ g.DependsOn source u) := by
    intro u e live
    simp only [eq_sortPaths_iff, mem_sources_collect_iff own all live]
  rw [isConsistentIn, agrees_iff distinct]
  constructor
  · intro compares u e live
    obtain rfl := own u e live
    exact (right live).mp (compares e (each.mem_iff.mpr (own.mem_values.mpr live)))
  · intro lists e listed
    have live := own.mem_values.mp (each.mem_iff.mp listed)
    exact (right live).mpr (lists e.uri e live)

theorem isConsistent_iff : g.isConsistent = true ↔ g.ListsDependents := isConsistentIn_iff own (.refl _) (.refl _)

/-- Entries list their dependents exactly if they stay as they are when the edges are computed afresh. -/
theorem listsDependents_iff_rebuild : g.ListsDependents ↔ g.rebuild.entries = g.entries := by
  have t : g.rebuild.Transposed := rebuild_transposed fun {u e} => own u e
  have edges : ∀ source u, g.rebuild.DependsOn source u ↔ g.DependsOn source u :=
    fun source => dependsOn_congr (forward?_rebuild g source)
  constructor
  · intro lists
    apply OrdMap.ext_get?
    intro u
    change g.rebuild.get? u = g.get? u
    rw [get?_rebuild]
    cases live : g.get? u with
    | none => rfl
    | some e =>
        obtain ⟨increasing, same⟩ := lists u e live
        have backward : g.rebuild.dependentsOf u = e.dependedBy :=
          (t.increasing u).ext increasing fun source => by rw [t.mem_dependentsOf, edges, same]
        rw [Option.map_some, backward]
  · intro same u e live
    have again : g.rebuild.get? u = some e := by rwa [get?, same]
    refine ⟨?_, fun source => (t.mem_dependedBy again).trans (edges source u)⟩
    rw [t.dependedBy_eq again]
    exact t.increasing u

end Keyed

/-- The check accepts a graph in which both directions agree. -/
theorem Transposed.isConsistent {g : Graph} (t : g.Transposed) : g.isConsistent = true := by
  rw [isConsistent_iff t.keyed, listsDependents_iff_rebuild t.keyed, t.rebuild_eq]

/-- The check of a graph whose entries are kept under their own paths, whatever its edges are: it accepts exactly if
    every live entry lists, in order and each once, the live entries that depend on it. In whatever order the entries
    are met when the edges are collected, and when they are compared, the answer is the same. -/
theorem consistency_check_exact (g : Graph) (own : g.entries.KeyedBy SourceEntry.uri) :
    (g.isConsistent = true ↔
      ∀ u e, g.get? u = some e →
        Increasing e.dependedBy ∧
        ∀ source, source ∈ e.dependedBy ↔ ∃ d, g.get? source = some d ∧ u ∈ d.dependsOn) ∧
    ∀ collected compared : List SourceEntry, collected.Perm g.toList → compared.Perm g.toList →
      g.isConsistentIn collected compared = g.isConsistent := by
  refine ⟨isConsistent_iff own, fun collected compared all each => ?_⟩
  rw [Bool.eq_iff_iff, isConsistentIn_iff own all each, isConsistent_iff own]

/-! ### Two entries that depend on each other -/

namespace Mutual

def path (name : String) : FileUri := Path.rootDir.child name

def entry (name : String) (dependsOn dependedBy : List FileUri) : SourceEntry where
  uri := path name
  contentHash := "hash"
  lastModified := 5
  imports := []
  exports := {}
  symbols := []
  dependsOn
  dependedBy

/-- It depends on B twice, on itself and on a path that is not live. -/
def first : SourceEntry := entry "A" [path "B", path "A", path "C", path "B"] [path "A", path "B"]

/-- It depends on A and says of its own dependents what it is given. -/
def second (dependedBy : List FileUri) : SourceEntry := entry "B" [path "A"] dependedBy

/-- The two, beside an index of dependents that has nothing to do with them. -/
def graph (dependedBy : List FileUri) : Graph where
  entries := OrdMap.ofList ([first, second dependedBy].map fun e => (e.uri, e))
  dependents := OrdMap.ofList [(path "B", [path "C"])]

theorem keyed (dependedBy : List FileUri) : (graph dependedBy).entries.KeyedBy SourceEntry.uri :=
  fun _ _ found => uri_of_byPath found

theorem backwards {dependedBy : List FileUri} (listed : (graph dependedBy).toList = [first, second dependedBy]) :
    [second dependedBy, first].Perm (graph dependedBy).toList :=
  listed ▸ .swap first (second dependedBy) []

end Mutual

open Mutual in
/-- The check accepts that B lists A once, though A names B twice, and rejects that B lists A twice. -/
theorem consistency_check_exact_mutual :
    (∀ source, source ∈ [path "A"] ↔ ∃ d, (graph [path "A"]).get? source = some d ∧ path "B" ∈ d.dependsOn) ∧
      (graph [path "A"]).isConsistentIn [second [path "A"], first] [first, second [path "A"]] = true ∧
      ¬ Increasing [path "A", path "A"] ∧
      (graph [path "A", path "A"]).isConsistentIn [first, second [path "A", path "A"]]
        [second [path "A", path "A"], first] = false := by
  have once : (graph [path "A"]).toList = [first, second [path "A"]] := by decide
  have twice : (graph [path "A", path "A"]).toList = [first, second [path "A", path "A"]] := by decide
  obtain ⟨accepts, same⟩ := consistency_check_exact (graph [path "A"]) (keyed _)
  obtain ⟨rejects, same'⟩ := consistency_check_exact (graph [path "A", path "A"]) (keyed _)
  have consistent : (graph [path "A"]).isConsistent = true := by decide
  have repeated : ¬ Increasing [path "A", path "A"] := fun increasing => by simpa using increasing.nodup
  refine ⟨?_, ?_, repeated, ?_⟩
  · exact (accepts.mp consistent (path "B") (second [path "A"]) (by decide)).2
  · rw [same _ _ (backwards once) (once ▸ .refl _)]
    exact consistent
  · rw [same' _ _ (twice ▸ .refl _) (backwards twice), Bool.eq_false_iff]
    intro consistent
    exact repeated (rejects.mp consistent (path "B") (second [path "A", path "A"]) (by decide)).1

end QmlIndex.Graph
