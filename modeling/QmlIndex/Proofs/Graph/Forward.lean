import Mathlib.Data.List.Find
import QmlIndex.Proofs.Graph.Transpose
import QmlIndex.Proofs.Keyed

/-! # The forward half of any graph

Insertion and removal patch the edges towards other entries, but they do to the forward half what their names
say, also in a graph whose two directions do not agree. Computing the edges afresh looks at nothing but the
forward half, so two graphs with the same forward half become the same graph.
-/

namespace QmlIndex.Graph

theorem forward_lose (source : FileUri) (e : SourceEntry) : (lose source e).forward = e.forward := rfl

theorem forward?_unlink (g : Graph) (source : FileUri) (targets : List FileUri) (u : FileUri) :
    (g.unlink source targets).forward? u = g.forward? u := by
  rw [forward?, get?_unlink, Option.map_map, forward?]
  congr 1
  funext e
  by_cases target : u ∈ targets <;> simp [target, forward_lose]

theorem forward?_without (g : Graph) (v u : FileUri) :
    (g.remove v).forward? u = if u = v then none else g.forward? u := by
  rw [remove]
  cases live : g.get? v with
  | none =>
      by_cases same : u = v
      · simp [same, forward?, live]
      · simp [same]
  | some e =>
      change (unlink _ v e.dependsOn).forward? u = _
      rw [forward?_unlink, forward?, get?, OrdMap.get?_erase]
      split <;> rfl

/-- Insertion changes the forward half at one path. -/
theorem forward?_with (g : Graph) (e : SourceEntry) (u : FileUri) :
    (g.insert e).forward? u = if u = e.uri then some e.forward else g.forward? u := by
  rw [insert_eq_add, forward?_add, forward?_without]
  split <;> rfl

/-! ## Computing the edges afresh -/

/-- The entries without the edges towards them. -/
def forwardEntries (g : Graph) : OrdMap FileUri SourceEntry := g.entries.map fun _ e => e.forward

theorem forwardEntries_congr {g h : Graph} (same : ∀ u, g.forward? u = h.forward? u) :
    g.forwardEntries = h.forwardEntries := by
  apply OrdMap.ext_get?
  intro u
  rw [forwardEntries, forwardEntries, OrdMap.get?_map, OrdMap.get?_map]
  exact same u

/-- Who depends on what follows from the forward half. -/
theorem transpose_toList (g : Graph) : transpose g.toList = transpose g.forwardEntries.values := by
  have values : g.forwardEntries.values = g.toList.map SourceEntry.forward := by
    simp [forwardEntries, OrdMap.map, OrdMap.values, toList]
  rw [values, transpose_eq, transpose_eq, List.foldl_map]
  rfl

theorem get?_rebuild_eq (g : Graph) (u : FileUri) :
    g.rebuild.get? u = (g.forward? u).map fun e => { e with dependedBy := g.rebuild.dependentsOf u } := by
  rw [get?_rebuild, forward?, Option.map_map]
  rfl

/-- Graphs with the same forward half become the same graph when their edges are computed afresh. -/
theorem rebuild_congr {g h : Graph} (same : ∀ u, g.forward? u = h.forward? u) : g.rebuild = h.rebuild := by
  have dependents : g.rebuild.dependents = h.rebuild.dependents := by
    change transpose g.toList = transpose h.toList
    rw [transpose_toList, transpose_toList, forwardEntries_congr same]
  have entries : g.rebuild.entries = h.rebuild.entries := by
    apply OrdMap.ext_get?
    intro u
    have same_entry : g.rebuild.get? u = h.rebuild.get? u := by
      rw [get?_rebuild_eq, get?_rebuild_eq, same, dependentsOf, dependentsOf, dependents]
    exact same_entry
  calc g.rebuild = ⟨g.rebuild.entries, g.rebuild.dependents⟩ := rfl
    _ = ⟨h.rebuild.entries, h.rebuild.dependents⟩ := by rw [entries, dependents]
    _ = h.rebuild := rfl

/-! ## Construction entry by entry -/

theorem Transposed.inserts {g : Graph} (t : g.Transposed) (entries : List SourceEntry) :
    (entries.foldl Graph.insert g).Transposed := by
  induction entries generalizing g with
  | nil => exact t
  | cons e rest ih => exact ih (t.insert e)

/-- The last entry of a path counts, and it counts more than what was there. -/
theorem forward?_inserts (g : Graph) (entries : List SourceEntry) (u : FileUri) :
    (entries.foldl insert g).forward? u =
      ((entries.reverse.find? fun e => e.uri = u).map SourceEntry.forward).or (g.forward? u) := by
  induction entries generalizing g with
  | nil => rfl
  | cons e rest ih =>
      rw [List.foldl_cons, ih, forward?_with, List.reverse_cons, List.find?_append]
      cases rest.reverse.find? fun e => e.uri = u with
      | some d => simp
      | none => by_cases same : u = e.uri <;> simp [same, eq_comm]

/-- Loading a list is inserting its entries one by one. -/
theorem load_eq_inserts (entries : List SourceEntry) : load entries = entries.foldl insert empty := by
  apply (load_transposed entries).ext (empty_transposed.inserts entries)
  intro u
  have nothing : empty.forward? u = none := rfl
  rw [forward?_load, forward?_inserts, nothing, Option.or_none]

/-- Entries of different paths may be inserted in any order. -/
theorem Transposed.inserts_perm {g : Graph} (t : g.Transposed) {entries others : List SourceEntry}
    (perm : entries.Perm others) (distinct : (entries.map SourceEntry.uri).Nodup) :
    entries.foldl Graph.insert g = others.foldl Graph.insert g := by
  apply (t.inserts entries).ext (t.inserts others)
  intro u
  have reversed : entries.reverse.Perm others.reverse :=
    (List.reverse_perm entries).trans (perm.trans (List.reverse_perm others).symm)
  have one : {e | e ∈ entries.reverse ∧ decide (e.uri = u) = true}.Subsingleton := by
    rintro d ⟨here, of_d⟩ e ⟨there, of_e⟩
    rw [List.mem_reverse] at here there
    exact eq_of_nodup_map distinct here there ((of_decide_eq_true of_d).trans (of_decide_eq_true of_e).symm)
  rw [forward?_inserts, forward?_inserts, List.find?_eq_find?_of_perm reversed one]

end QmlIndex.Graph
