import QmlIndex.Proofs.Graph.Edges
import QmlIndex.Proofs.Keyed

/-! # Both directions of dependence agree

A graph says who depends on whom three times over: forwards in the entries' own lists, backwards in the
index of dependents, and backwards again in the entries. `Transposed` says that the two backward forms
are the transpose of the forward one. Every operation keeps it, so it holds after every run, and a
transposed graph is determined by its forward half.
-/

namespace QmlIndex

/-- The entry as its document determines it, without the edges towards it. -/
def SourceEntry.forward (e : SourceEntry) : SourceEntry := { e with dependedBy := [] }

namespace Graph

/-- A live entry depends on a path, which need not be live. -/
def DependsOn (g : Graph) (source target : FileUri) : Prop :=
  ∃ e, g.get? source = some e ∧ target ∈ e.dependsOn

/-- Both backward forms of the edges are the transpose of the forward one. -/
structure Transposed (g : Graph) : Prop where
  /-- Every entry is kept under its own path. -/
  own : ∀ {u e}, g.get? u = some e → e.uri = u
  /-- The index lists under any path, live or not, exactly the live entries that depend on it. -/
  mem_dependentsOf : ∀ {source target}, source ∈ g.dependentsOf target ↔ g.DependsOn source target
  /-- The index lists them in order and each once. -/
  increasing : ∀ target, Increasing (g.dependentsOf target)
  /-- A path that nobody depends on is not in the index. -/
  occupied : ∀ target, g.dependents.get? target ≠ some []
  /-- A live entry lists the dependents that the index lists under its path. -/
  dependedBy_eq : ∀ {u e}, g.get? u = some e → e.dependedBy = g.dependentsOf u

/-- What the document of a live path determines of its entry. -/
def forward? (g : Graph) (u : FileUri) : Option SourceEntry := (g.get? u).map SourceEntry.forward

theorem dependsOn_iff {g : Graph} {source target : FileUri} :
    g.DependsOn source target ↔ ∃ e, g.forward? source = some e ∧ target ∈ e.dependsOn := by
  simp only [DependsOn, forward?, Option.map_eq_some_iff]
  constructor
  · rintro ⟨e, live, edge⟩
    exact ⟨e.forward, ⟨e, live, rfl⟩, edge⟩
  · rintro ⟨_, ⟨e, live, rfl⟩, edge⟩
    exact ⟨e, live, edge⟩

theorem dependsOn_congr {g h : Graph} {source : FileUri} (same : g.forward? source = h.forward? source)
    (target : FileUri) : g.DependsOn source target ↔ h.DependsOn source target := by
  rw [dependsOn_iff, dependsOn_iff, same]

namespace Transposed

variable {g h : Graph}

theorem mem_dependedBy (t : g.Transposed) {u : FileUri} {e : SourceEntry} (live : g.get? u = some e)
    {source : FileUri} : source ∈ e.dependedBy ↔ g.DependsOn source u := by
  rw [t.dependedBy_eq live, t.mem_dependentsOf]

theorem keyed (t : g.Transposed) : g.entries.KeyedBy SourceEntry.uri := fun _ _ => t.own

theorem mem_toList (t : g.Transposed) {e : SourceEntry} : e ∈ g.toList ↔ g.get? e.uri = some e := t.keyed.mem_values

/-- The index lists the same dependents in two transposed graphs with the same forward half. -/
theorem dependentsOf_congr (tg : g.Transposed) (th : h.Transposed) (same : ∀ u, g.forward? u = h.forward? u)
    (target : FileUri) : g.dependentsOf target = h.dependentsOf target := by
  refine (tg.increasing target).ext (th.increasing target) ?_
  intro source
  rw [tg.mem_dependentsOf, th.mem_dependentsOf]
  exact dependsOn_congr (same source) target

theorem dependents_get? (t : g.Transposed) (target : FileUri) :
    g.dependents.get? target = if g.dependentsOf target = [] then none else some (g.dependentsOf target) := by
  have occupied := t.occupied target
  rw [dependentsOf]
  cases here : g.dependents.get? target with
  | none => simp
  | some sources =>
      rw [here] at occupied
      have somebody : sources ≠ [] := fun nobody => occupied (by rw [nobody])
      simp [somebody]

theorem get?_eq (t : g.Transposed) (u : FileUri) :
    g.get? u = (g.forward? u).map fun e => { e with dependedBy := g.dependentsOf u } := by
  cases live : g.get? u with
  | none => simp [forward?, live]
  | some e => simp [forward?, live, SourceEntry.forward, ← t.dependedBy_eq live]

/-- A transposed graph is determined by its forward half. -/
theorem ext (tg : g.Transposed) (th : h.Transposed) (same : ∀ u, g.forward? u = h.forward? u) : g = h := by
  have backward := dependentsOf_congr tg th same
  have dependents : g.dependents = h.dependents := by
    apply OrdMap.ext_get?
    intro target
    rw [tg.dependents_get?, th.dependents_get?, backward]
  have entries : g.entries = h.entries := by
    apply OrdMap.ext_get?
    intro u
    have same_entry : g.get? u = h.get? u := by rw [tg.get?_eq, th.get?_eq, same, backward]
    exact same_entry
  cases g
  cases h
  subst entries dependents
  rfl

end Transposed

/-! ## Removal -/

theorem not_dependsOn_of_get? {g : Graph} {v target : FileUri} (gone : g.get? v = none) :
    ¬ g.DependsOn v target := by
  rintro ⟨e, live, _⟩
  simp [gone] at live

theorem not_dependsOn_of_not_mem {g : Graph} {v target : FileUri} {e : SourceEntry} (live : g.get? v = some e)
    (elsewhere : target ∉ e.dependsOn) : ¬ g.DependsOn v target := by
  rintro ⟨d, here, edge⟩
  obtain rfl : e = d := Option.some.inj (live.symm.trans here)
  exact elsewhere edge

section Removal

variable {g : Graph} (t : g.Transposed) {v : FileUri}
include t

theorem filter_dependentsOf {target : FileUri} (free : ¬ g.DependsOn v target) :
    (g.dependentsOf target).filter (· != v) = g.dependentsOf target := by
  rw [List.filter_eq_self]
  intro source listed
  have other : source ≠ v := by
    rintro rfl
    exact free (t.mem_dependentsOf.mp listed)
  simpa using other

theorem lose_eq_self {u : FileUri} {e : SourceEntry} (live : g.get? u = some e) (free : ¬ g.DependsOn v u) :
    lose v e = e := by
  rw [lose, t.dependedBy_eq live, filter_dependentsOf t free, ← t.dependedBy_eq live]

/-- Removal takes the entry off the list of every path. -/
theorem dependentsOf_remove (v target : FileUri) :
    (g.remove v).dependentsOf target = (g.dependentsOf target).filter (· != v) := by
  rw [remove]
  cases live : g.get? v with
  | none => exact (filter_dependentsOf t (not_dependsOn_of_get? live)).symm
  | some e =>
      change sources _ target = (sources g.dependents target).filter _
      rw [dependents_unlink, sources_forgets]
      split
      · rfl
      · rename_i elsewhere
        exact (filter_dependentsOf t (not_dependsOn_of_not_mem live elsewhere)).symm

/-- What is left are the other entries, each without the one that was removed among its dependents. -/
theorem get?_remove (v u : FileUri) :
    (g.remove v).get? u = if u = v then none else (g.get? u).map (lose v) := by
  rw [remove]
  cases live : g.get? v with
  | none =>
      by_cases same : u = v
      · simp [same, live]
      · rw [if_neg same]
        cases here : g.get? u with
        | none => rfl
        | some d => rw [Option.map_some, lose_eq_self t here (not_dependsOn_of_get? live)]
  | some e =>
      change ((unlink _ _ _).get? u) = _
      rw [get?_unlink, get?, OrdMap.get?_erase]
      by_cases same : u = v
      · simp [same]
      · rw [if_neg same, if_neg same]
        change (g.get? u).map _ = (g.get? u).map _
        cases here : g.get? u with
        | none => rfl
        | some d =>
            rw [Option.map_some, Option.map_some]
            split
            · rfl
            · rename_i elsewhere
              rw [lose_eq_self t here (not_dependsOn_of_not_mem live elsewhere)]

theorem forward?_remove (v u : FileUri) :
    (g.remove v).forward? u = if u = v then none else g.forward? u := by
  rw [forward?, get?_remove t]
  split
  · rfl
  · rw [Option.map_map]
    rfl

theorem dependsOn_remove (v source target : FileUri) :
    (g.remove v).DependsOn source target ↔ source ≠ v ∧ g.DependsOn source target := by
  rw [dependsOn_iff, dependsOn_iff, forward?_remove t]
  by_cases same : source = v <;> simp [same]

end Removal

theorem occupied_remove {g : Graph} (h : Occupied g.dependents) (v : FileUri) : Occupied (g.remove v).dependents := by
  rw [remove]
  cases g.get? v with
  | none => exact h
  | some e =>
      rw [dependents_unlink]
      exact occupied_patches (occupied_forget v) e.dependsOn h

theorem Transposed.remove {g : Graph} (t : g.Transposed) (v : FileUri) : (g.remove v).Transposed where
  own := by
    intro u e live
    rw [get?_remove t] at live
    split at live
    · simp at live
    · obtain ⟨d, here, rfl⟩ := Option.map_eq_some_iff.mp live
      exact (t.own here : d.uri = u)
  mem_dependentsOf := by
    intro source target
    rw [dependentsOf_remove t, dependsOn_remove t, List.mem_filter, t.mem_dependentsOf, bne_iff_ne, and_comm]
  increasing := by
    intro target
    rw [dependentsOf_remove t]
    exact (t.increasing target).filter _
  occupied := occupied_remove t.occupied v
  dependedBy_eq := by
    intro u e live
    rw [get?_remove t] at live
    split at live
    · simp at live
    · obtain ⟨d, here, rfl⟩ := Option.map_eq_some_iff.mp live
      rw [dependentsOf_remove t, ← t.dependedBy_eq here]
      rfl

/-! ## Insertion -/

/-- Add an entry under a path that has none. -/
def add (g : Graph) (e : SourceEntry) : Graph :=
  let g := g.link e.uri e.dependsOn
  { g with entries := g.entries.insert e.uri { e with dependedBy := g.dependentsOf e.uri } }

theorem insert_eq_add (g : Graph) (e : SourceEntry) : g.insert e = (g.remove e.uri).add e := rfl

theorem dependentsOf_add (g : Graph) (e : SourceEntry) (target : FileUri) :
    (g.add e).dependentsOf target =
      if target ∈ e.dependsOn then insertPath e.uri (g.dependentsOf target) else g.dependentsOf target := by
  change sources (g.link e.uri e.dependsOn).dependents target = _
  rw [dependents_link, sources_notes]
  rfl

theorem get?_add (g : Graph) (e : SourceEntry) (u : FileUri) :
    (g.add e).get? u =
      if u = e.uri then some { e with dependedBy := (g.add e).dependentsOf u }
      else (g.get? u).map fun d => if u ∈ e.dependsOn then gain e.uri d else d := by
  rw [get?, add, OrdMap.get?_insert]
  split
  · rename_i same
    rw [same]
    rfl
  · exact get?_link e.uri e.dependsOn g u

theorem forward?_add (g : Graph) (e : SourceEntry) (u : FileUri) :
    (g.add e).forward? u = if u = e.uri then some e.forward else g.forward? u := by
  rw [forward?, get?_add]
  split
  · rfl
  · rw [Option.map_map, forward?]
    congr 1
    funext d
    by_cases target : u ∈ e.dependsOn <;> simp [target, gain, SourceEntry.forward]

theorem dependsOn_add (g : Graph) (e : SourceEntry) (source target : FileUri) :
    (g.add e).DependsOn source target ↔
      if source = e.uri then target ∈ e.dependsOn else g.DependsOn source target := by
  rw [dependsOn_iff, dependsOn_iff, forward?_add]
  by_cases same : source = e.uri <;> simp [same, SourceEntry.forward]

theorem Transposed.add {g : Graph} (t : g.Transposed) {e : SourceEntry} (free : g.get? e.uri = none) :
    (g.add e).Transposed where
  own := by
    intro u d live
    rw [get?_add] at live
    split at live
    · rename_i same
      obtain rfl := Option.some.inj live
      exact same.symm
    · obtain ⟨d₀, here, rfl⟩ := Option.map_eq_some_iff.mp live
      have own : d₀.uri = u := t.own here
      split <;> exact own
  mem_dependentsOf := by
    intro source target
    rw [dependentsOf_add, dependsOn_add]
    by_cases same : source = e.uri
    · subst same
      by_cases edge : target ∈ e.dependsOn
      · simp [edge]
      · simp [edge, t.mem_dependentsOf, not_dependsOn_of_get? free]
    · by_cases edge : target ∈ e.dependsOn <;> simp [edge, same, t.mem_dependentsOf]
  increasing := by
    intro target
    rw [dependentsOf_add]
    split
    · exact increasing_insertPath e.uri (t.increasing target)
    · exact t.increasing target
  occupied := by
    change Occupied (g.link e.uri e.dependsOn).dependents
    rw [dependents_link]
    exact occupied_patches (occupied_note e.uri) e.dependsOn t.occupied
  dependedBy_eq := by
    intro u d live
    rw [get?_add] at live
    split at live
    · obtain rfl := Option.some.inj live
      rfl
    · obtain ⟨d₀, here, rfl⟩ := Option.map_eq_some_iff.mp live
      rw [dependentsOf_add, ← t.dependedBy_eq here]
      split <;> rfl

theorem Transposed.insert {g : Graph} (t : g.Transposed) (e : SourceEntry) : (g.insert e).Transposed := by
  rw [insert_eq_add]
  apply (t.remove e.uri).add
  simp [get?_remove t]

theorem forward?_insert {g : Graph} (t : g.Transposed) (e : SourceEntry) (u : FileUri) :
    (g.insert e).forward? u = if u = e.uri then some e.forward else g.forward? u := by
  rw [insert_eq_add, forward?_add, forward?_remove t]
  split <;> rfl

theorem get?_insert_self (g : Graph) (e : SourceEntry) :
    (g.insert e).get? e.uri = some { e with dependedBy := (g.insert e).dependentsOf e.uri } := by
  rw [insert_eq_add, get?_add, if_pos rfl]

/-- An entry is not changed by the insertion of another one that neither depends on it nor did so before. -/
theorem get?_insert_of_apart {g : Graph} (t : g.Transposed) {e : SourceEntry} {u : FileUri} (other : u ≠ e.uri)
    (before : ¬ g.DependsOn e.uri u) (now : u ∉ e.dependsOn) : (g.insert e).get? u = g.get? u := by
  rw [insert_eq_add, get?_add, if_neg other, get?_remove t, if_neg other]
  cases live : g.get? u with
  | none => rfl
  | some d => simp [now, lose_eq_self t live before]

/-! ## Construction from scratch -/

/-- Note an entry under all its targets. -/
def noteEntry (m : OrdMap FileUri (List FileUri)) (e : SourceEntry) : OrdMap FileUri (List FileUri) :=
  e.dependsOn.foldl (note e.uri) m

theorem transpose_eq (entries : List SourceEntry) : transpose entries = entries.foldl noteEntry .empty := rfl

theorem mem_sources_noteEntries (entries : List SourceEntry) (m : OrdMap FileUri (List FileUri))
    (source target : FileUri) :
    source ∈ sources (entries.foldl noteEntry m) target ↔
      (∃ e ∈ entries, e.uri = source ∧ target ∈ e.dependsOn) ∨ source ∈ sources m target := by
  induction entries generalizing m with
  | nil => simp
  | cons e rest ih =>
      rw [List.foldl_cons, ih, noteEntry, sources_notes]
      by_cases edge : target ∈ e.dependsOn
      · simp [edge, eq_comm, or_assoc, or_left_comm]
      · simp [edge]

theorem increasing_noteEntries (entries : List SourceEntry) {m : OrdMap FileUri (List FileUri)}
    (h : ∀ target, Increasing (sources m target)) (target : FileUri) :
    Increasing (sources (entries.foldl noteEntry m) target) := by
  induction entries generalizing m with
  | nil => exact h target
  | cons e rest ih =>
      apply ih
      intro target
      rw [noteEntry, sources_notes]
      split
      · exact increasing_insertPath e.uri (h target)
      · exact h target

theorem occupied_noteEntries (entries : List SourceEntry) {m : OrdMap FileUri (List FileUri)}
    (h : Occupied m) : Occupied (entries.foldl noteEntry m) := by
  induction entries generalizing m with
  | nil => exact h
  | cons e rest ih => exact ih (occupied_patches (occupied_note e.uri) e.dependsOn h)

theorem get?_rebuild (g : Graph) (u : FileUri) :
    g.rebuild.get? u = (g.get? u).map fun e => { e with dependedBy := g.rebuild.dependentsOf u } :=
  OrdMap.get?_map g.entries _ u

theorem forward?_rebuild (g : Graph) (u : FileUri) : g.rebuild.forward? u = g.forward? u := by
  rw [forward?, get?_rebuild, Option.map_map]
  rfl

/-- Computing the edges afresh needs nothing but the entries under their own paths. -/
theorem rebuild_transposed {g : Graph} (own : ∀ {u e}, g.get? u = some e → e.uri = u) :
    g.rebuild.Transposed where
  own := by
    intro u e live
    rw [get?_rebuild] at live
    obtain ⟨d, here, rfl⟩ := Option.map_eq_some_iff.mp live
    exact (own here : d.uri = u)
  mem_dependentsOf := by
    intro source target
    rw [dependsOn_congr (forward?_rebuild g source)]
    change source ∈ sources (transpose g.toList) target ↔ _
    rw [transpose_eq, mem_sources_noteEntries]
    simp only [toList, OrdMap.mem_values, sources, OrdMap.get?_empty, Option.getD_none, List.not_mem_nil,
      or_false]
    constructor
    · rintro ⟨e, ⟨u, live⟩, rfl, edge⟩
      obtain rfl : e.uri = u := own live
      exact ⟨e, live, edge⟩
    · rintro ⟨e, live, edge⟩
      exact ⟨e, ⟨source, live⟩, own live, edge⟩
  increasing := by
    intro target
    apply increasing_noteEntries
    intro target
    exact List.Pairwise.nil
  occupied := by
    apply occupied_noteEntries
    intro target
    simp
  dependedBy_eq := by
    intro u e live
    rw [get?_rebuild] at live
    obtain ⟨d, here, rfl⟩ := Option.map_eq_some_iff.mp live
    rfl

theorem Transposed.rebuild {g : Graph} (t : g.Transposed) : g.rebuild.Transposed := rebuild_transposed t.own

/-- Computing the edges of a transposed graph afresh changes nothing. -/
theorem Transposed.rebuild_eq {g : Graph} (t : g.Transposed) : g.rebuild = g :=
  t.rebuild.ext t (forward?_rebuild g)

theorem empty_transposed : empty.Transposed where
  own := by intro u e live; simp [get?, empty] at live
  mem_dependentsOf := by simp [dependentsOf, DependsOn, get?, empty]
  increasing := fun _ => List.Pairwise.nil
  occupied := by simp [empty]
  dependedBy_eq := by intro u e live; simp [get?, empty] at live

/-- The entries of a list by their paths; the last entry of a path counts. -/
theorem get?_byPath (entries : List SourceEntry) (u : FileUri) :
    (OrdMap.ofList (entries.map fun e => (e.uri, e))).get? u = entries.reverse.find? fun e => e.uri = u := by
  rw [OrdMap.ofList, OrdMap.get?_insertAll, ← List.map_reverse, List.find?_map, Option.map_map,
    OrdMap.get?_empty, Option.or_none]
  exact Option.map_id_apply

theorem uri_of_byPath {entries : List SourceEntry} {u : FileUri} {e : SourceEntry}
    (found : (OrdMap.ofList (entries.map fun e => (e.uri, e))).get? u = some e) : e.uri = u := by
  rw [get?_byPath] at found
  simpa using List.find?_some found

theorem forward?_load (entries : List SourceEntry) (u : FileUri) :
    (load entries).forward? u = (entries.reverse.find? fun e => e.uri = u).map SourceEntry.forward := by
  rw [load, forward?_rebuild, forward?, get?, get?_byPath]

theorem load_transposed (entries : List SourceEntry) : (load entries).Transposed := rebuild_transposed uri_of_byPath

end Graph

end QmlIndex
