import Mathlib.Data.List.Find
import QmlIndex.Proofs.Store.Keys
import QmlIndex.Proofs.Store.Refusals
import QmlIndex.Proofs.Store.Rows

/-! # The table of source files

The table holds a map from paths to entries if its rows are those of the entries, in any order. Every operation
on the table either fails and changes nothing, or does to the map what its name says.
-/

namespace QmlIndex

namespace Store

/-- The modules and their components are as they were. -/
structure SameModules (s after : Store) : Prop where
  modules : after.modules = s.modules
  components : after.components = s.components

theorem SameModules.refl (s : Store) : s.SameModules s := ⟨rfl, rfl⟩

theorem SameModules.trans {s middle after : Store} (first : s.SameModules middle) (second : middle.SameModules after) :
    s.SameModules after where
  modules := second.modules.trans first.modules
  components := second.components.trans first.components

/-- The modules, their components and what is refused are as they were. -/
structure KeepsModules (s after : Store) : Prop where
  modules : after.modules = s.modules
  components : after.components = s.components
  refusals : after.refusals = s.refusals

theorem KeepsModules.refl (s : Store) : s.KeepsModules s := ⟨rfl, rfl, rfl⟩

theorem KeepsModules.symm {s after : Store} (kept : s.KeepsModules after) : after.KeepsModules s :=
  ⟨kept.modules.symm, kept.components.symm, kept.refusals.symm⟩

theorem KeepsModules.trans {s middle after : Store} (first : s.KeepsModules middle) (second : middle.KeepsModules after) :
    s.KeepsModules after where
  modules := second.modules.trans first.modules
  components := second.components.trans first.components
  refusals := second.refusals.trans first.refusals

theorem KeepsModules.yields {s after : Store} {table : Table} (kept : s.KeepsModules after) (h : s.Yields table) :
    after.Yields table := by
  intro event
  rw [Grants, kept.refusals]
  exact h event

theorem KeepsModules.same {s after : Store} (kept : s.KeepsModules after) : s.SameModules after :=
  ⟨kept.modules, kept.components⟩

/-- At the end of a transaction everything is refused again that was refused before it. -/
theorem SameModules.keeps {s after : Store} (same : s.SameModules after) :
    s.KeepsModules (after.withRefusals s.refusals) :=
  ⟨same.modules, same.components, rfl⟩

/-- The rows are those of the entries of a map. -/
structure HoldsSources (s : Store) (m : OrdMap FileUri SourceEntry) : Prop where
  rows : s.sources.Perm (m.values.map SourceRow.ofEntry)
  own : m.KeyedBy SourceEntry.uri
  storable : ∀ e ∈ m.values, e.Storable

variable {s after : Store} {m : OrdMap FileUri SourceEntry}

theorem deleteSources_eq (s : Store) (p : SourceRow → Bool) : s.deleteSources p =
    if s.Refuses (.of .sources .delete (s.sources.countP p)) then .error (.storage .refused)
    else .ok { s.spend (.of .sources .delete (s.sources.countP p)) with sources := s.sources.filter (!p ·) } := by
  rw [deleteSources, permit_eq]
  split <;> rfl

theorem deleteSources_granted (yields : s.Yields .sources) (p : SourceRow → Bool) :
    s.deleteSources p =
      .ok { s.spend (.of .sources .delete (s.sources.countP p)) with sources := s.sources.filter (!p ·) } :=
  deleteSources_eq_ok.mpr ⟨(yields .delete).not_refuses, rfl⟩

theorem deleteSources_congr {p q : SourceRow → Bool} (same : ∀ r ∈ s.sources, p r = q r) :
    s.deleteSources p = s.deleteSources q := by
  have rows : s.sources.filter (!p ·) = s.sources.filter (!q ·) :=
    List.filter_congr fun r member => by rw [same r member]
  have count : s.sources.countP p = s.sources.countP q :=
    List.countP_congr fun r member => by rw [same r member]
  simp only [deleteSources_eq, rows, count]

/-- Rows that are of two kinds are counted once. -/
theorem countP_or {ρ : Type} (p q : ρ → Bool) (rows : List ρ) :
    rows.countP (fun r => p r || q r) = rows.countP p + (rows.filter (!p ·)).countP q := by
  induction rows with
  | nil => rfl
  | cons r rest ih =>
      cases here : p r with
      | true =>
          simp only [List.countP_cons, List.filter_cons, here, ih]
          simp
          omega
      | false =>
          simp only [List.countP_cons, List.filter_cons, here, ih]
          simp [List.countP_cons]
          omega

/-- Rows are deleted in two statements or in one. -/
theorem deleteSources_deleteSources (s : Store) (p q : SourceRow → Bool) :
    (s.deleteSources p >>= fun left => left.deleteSources q) = s.deleteSources fun r => p r || q r := by
  have rows : (s.sources.filter (!p ·)).filter (!q ·) = s.sources.filter fun r => !(p r || q r) := by
    simp only [List.filter_filter, Bool.not_or, Bool.and_comm]
  have total := Writes.of_add .sources .delete (s.sources.countP p) ((s.sources.filter (!p ·)).countP q)
  rw [deleteSources_eq s p, deleteSources_eq s fun r => p r || q r, countP_or, ← total, ← rows, ← spend_spend]
  by_cases first : s.Refuses (.of .sources .delete (s.sources.countP p))
  · rw [if_pos first, if_pos (refuses_add.mpr (.inl first))]
    rfl
  · rw [if_neg first]
    refine (deleteSources_eq _ q).trans (if_congr ?_ rfl rfl)
    exact ⟨fun second => refuses_add.mpr (.inr second), fun both => (refuses_add.mp both).resolve_left first⟩

/-- The rows of several paths are deleted one after the other, or all at once. -/
theorem dropSources_eq (s : Store) (paths : List String) :
    paths.foldlM dropSource s = s.deleteSources fun r => paths.any fun path => r.path == some path := by
  induction paths generalizing s with
  | nil =>
      have nothing : s.sources.countP (fun _ => false) = 0 := List.countP_eq_zero.mpr (by simp)
      have whole : s.sources.filter (fun _ => !false) = s.sources := List.filter_eq_self.mpr fun _ _ => rfl
      simp only [List.any_nil, deleteSources_eq, nothing, whole, if_neg not_refuses_zero, spend_zero]
      rfl
  | cons path rest ih =>
      simp only [List.foldlM_cons, ih, List.any_cons]
      exact deleteSources_deleteSources s _ _

/-- No two rows have one path, though any number of them may have none. -/
def KeyedByPath (s : Store) : Prop := (s.sources.filterMap SourceRow.path).Nodup

theorem HoldsSources.congr (h : s.HoldsSources m) (same : after.sources = s.sources) : after.HoldsSources m :=
  ⟨same ▸ h.rows, h.own, h.storable⟩

theorem HoldsSources.withRefusals (h : s.HoldsSources m) (l : List Refusal) : (s.withRefusals l).HoldsSources m :=
  h.congr rfl

theorem holdsSources_empty (nothing : s.sources = []) : s.HoldsSources .empty where
  rows := by simp [nothing]
  own := OrdMap.keyedBy_empty
  storable := by simp

/-- The entries that the rows decode to, in the order of the rows. -/
theorem HoldsSources.decode (h : s.HoldsSources m) :
    ∃ order : List SourceEntry, order.Perm m.values ∧ s.sources = order.map SourceRow.ofEntry ∧
      ∀ e ∈ order, (SourceRow.ofEntry e).decode = .ok e := by
  obtain ⟨order, perm, rows⟩ := exists_perm_of_perm_map h.rows
  exact ⟨order, perm, rows, fun e member => SourceRow.decode_ofEntry (h.storable e (perm.mem_iff.mp member))⟩

/-! ## Writing -/

theorem HoldsSources.put (h : s.HoldsSources m) {e : SourceEntry} (storable : e.Storable)
    (done : s.putSource (.ok (SourceRow.ofEntry e)) = .ok after) :
    after.HoldsSources (m.insert e.uri e) ∧ s.SameModules after := by
  obtain ⟨_, _, rfl⟩ := putSource_eq_ok.mp done
  refine ⟨⟨?_, h.own.insert e, ?_⟩, ⟨rfl, rfl⟩⟩
  · have others : (m.values.map SourceRow.ofEntry).filter
        (fun r => r.path.isNone || r.path != (SourceRow.ofEntry e).path) =
        (m.values.filter fun d => d.uri ≠ e.uri).map SourceRow.ofEntry := by
      rw [List.filter_map]
      congr 1
      apply List.filter_congr
      intro d member
      simp [SourceRow.ofEntry, bne, (h.storable d member).uri.beq_toString storable.uri]
    refine ((h.rows.filter _).append_right _).trans ?_
    rw [others, ← List.map_singleton, ← List.map_append]
    exact ((h.own.values_insert e).map _).symm
  · intro d member
    rcases OrdMap.mem_values_insert member with rfl | before
    · exact storable
    · exact h.storable d before

theorem HoldsSources.puts (h : s.HoldsSources m) {entries : List SourceEntry} (storable : ∀ e ∈ entries, e.Storable)
    (done : entries.foldlM (fun s e => s.putSource (.ok (SourceRow.ofEntry e))) s = .ok after) :
    after.HoldsSources (m.insertAll (entries.map fun e => (e.uri, e))) ∧ s.SameModules after := by
  induction entries generalizing s m with
  | nil =>
      obtain rfl : s = after := Except.ok.inj done
      exact ⟨h, .refl s⟩
  | cons e rest ih =>
      rw [List.foldlM_cons, bind_eq_ok] at done
      obtain ⟨middle, first, later⟩ := done
      obtain ⟨held, kept⟩ := h.put (storable e List.mem_cons_self) first
      obtain ⟨final, kept_rest⟩ := ih held (fun d member => storable d (List.mem_cons_of_mem e member)) later
      exact ⟨final, kept.trans kept_rest⟩

theorem same_puts {s after : Store} {entries : List SourceEntry}
    (done : entries.foldlM (fun s e => s.putSource (.ok (SourceRow.ofEntry e))) s = .ok after) : s.SameModules after := by
  induction entries generalizing s with
  | nil =>
      obtain rfl : s = after := Except.ok.inj done
      exact .refl s
  | cons e rest ih =>
      rw [List.foldlM_cons, bind_eq_ok] at done
      obtain ⟨middle, first, later⟩ := done
      have kept : s.SameModules middle := by
        obtain ⟨_, _, rfl⟩ := putSource_eq_ok.mp first
        exact ⟨rfl, rfl⟩
      exact kept.trans (ih later)

theorem keeps_save (s : Store) (entries : List SourceEntry) : s.KeepsModules (s.saveSources entries).2 := by
  rcases transact_cases s _ with ⟨fault, failed⟩ | ⟨n, after, body, same⟩
  · rw [saveSources, failed]
    exact .refl s
  · obtain ⟨stored, done, result⟩ := bind_eq_ok.mp body
    obtain ⟨rfl, rfl⟩ := Prod.mk.inj (Except.ok.inj result)
    rw [saveSources, same]
    exact (same_puts done).keeps

/-- Writing entries inserts them, from left to right. -/
theorem HoldsSources.save (h : s.HoldsSources m) {entries : List SourceEntry} (storable : ∀ e ∈ entries, e.Storable) :
    (∃ fault, s.saveSources entries = (.error fault, s)) ∨
      ∃ n after, s.saveSources entries = (.ok n, after) ∧
        after.HoldsSources (m.insertAll (entries.map fun e => (e.uri, e))) ∧ s.KeepsModules after := by
  rcases transact_cases s _ with failed | ⟨n, after, body, same⟩
  · exact .inl failed
  · obtain ⟨stored, done, result⟩ := bind_eq_ok.mp body
    obtain ⟨rfl, rfl⟩ := Prod.mk.inj (Except.ok.inj result)
    obtain ⟨held, kept⟩ := h.puts storable done
    exact .inr ⟨_, _, same, held.withRefusals _, kept.keeps⟩

theorem isVoid_toString {u : FileUri} (canonical : u.Canonical) : isVoid u.toString = false := by
  obtain ⟨rest, spelling⟩ := FileUri.toString_of_plain canonical.plain
  rw [isVoid, spelling]
  rfl

theorem saveSources_granted (yields : s.Yields .sources) {entries : List SourceEntry}
    (canonical : ∀ e ∈ entries, e.uri.Canonical) (hashed : ∀ e ∈ entries, isVoid e.contentHash = false) :
    (s.saveSources entries).1 = .ok entries.length := by
  have puts : ∃ after, entries.foldlM (fun s e => s.putSource (.ok (SourceRow.ofEntry e))) s = .ok after := by
    induction entries generalizing s with
    | nil => exact ⟨s, rfl⟩
    | cons e rest ih =>
        have checked : (SourceRow.ofEntry e).check = .ok () := by
          simp [SourceRow.check, SourceRow.ofEntry, requireText, isVoid_toString (canonical e List.mem_cons_self),
            hashed e List.mem_cons_self]
          rfl
        obtain ⟨middle, first⟩ : ∃ middle, s.putSource (.ok (SourceRow.ofEntry e)) = .ok middle :=
          ⟨_, putSource_eq_ok.mpr ⟨(yields .insert).not_refuses, checked, rfl⟩⟩
        have still : middle.Yields .sources := by
          obtain ⟨_, _, rfl⟩ := putSource_eq_ok.mp first
          exact yields.spend _
        obtain ⟨after, later⟩ := ih still
          (fun d member => canonical d (List.mem_cons_of_mem e member))
          (fun d member => hashed d (List.mem_cons_of_mem e member))
        rw [List.foldlM_cons, first]
        exact ⟨after, later⟩
  obtain ⟨after, done⟩ := puts
  rw [saveSources, done]
  rfl

/-! ## Deleting -/

theorem HoldsSources.filter (h : s.HoldsSources m) {p : SourceRow → Bool} {q : FileUri → SourceEntry → Bool}
    (same : ∀ e ∈ m.values, p (SourceRow.ofEntry e) = !q e.uri e) (done : s.deleteSources p = .ok after) :
    after.HoldsSources (m.filter q) ∧ s.SameModules after := by
  obtain ⟨_, rfl⟩ := deleteSources_eq_ok.mp done
  have values := h.own.values_filter q
  refine ⟨⟨?_, h.own.filter q, ?_⟩, ⟨rfl, rfl⟩⟩
  · refine (h.rows.filter _).trans ?_
    rw [List.filter_map, values]
    apply List.Perm.of_eq
    congr 1
    apply List.filter_congr
    intro e member
    simp [same e member]
  · intro e member
    rw [values, List.mem_filter] at member
    exact h.storable e member.1

/-- Deleting paths removes them from the map. -/
theorem HoldsSources.remove (h : s.HoldsSources m) {uris : List FileUri} (canonical : ∀ u ∈ uris, FileUri.Canonical u) :
    (∃ fault, s.removeSources uris = (.error fault, s)) ∨
      ∃ n after, s.removeSources uris = (.ok n, after) ∧
        after.HoldsSources (m.filter fun u _ => u ∉ uris) ∧ s.KeepsModules after := by
  have fold : ∀ (counted : Nat × Store) {result : Nat × Store} {m : OrdMap FileUri SourceEntry},
      counted.2.HoldsSources m → uris.foldlM deleteSource counted = .ok result →
        result.2.HoldsSources (m.filter fun u _ => u ∉ uris) ∧ counted.2.SameModules result.2 := by
    induction uris with
    | nil =>
        intro counted result m held done
        obtain rfl : counted = result := Except.ok.inj done
        have whole : (m.filter fun u _ => decide (u ∉ [])) = m := by
          apply OrdMap.ext_get?
          intro u
          rw [OrdMap.get?_filter]
          cases m.get? u <;> simp
        exact ⟨whole.symm ▸ held, .refl _⟩
    | cons u rest ih =>
        intro counted result m held done
        rw [List.foldlM_cons, bind_eq_ok] at done
        obtain ⟨middle, first, later⟩ := done
        rw [deleteSource, bind_eq_ok] at first
        obtain ⟨stored, deleted, same⟩ := first
        obtain rfl := Except.ok.inj same
        have here : ∀ e ∈ m.values,
            ((SourceRow.ofEntry e).path == some u.toString) = !decide (e.uri ≠ u) := by
          intro e member
          simp [SourceRow.ofEntry, (held.storable e member).uri.beq_toString (canonical u List.mem_cons_self)]
        obtain ⟨one, kept⟩ := held.filter (q := fun v _ => decide (v ≠ u)) here deleted
        obtain ⟨all, kept_rest⟩ := ih (fun v member => canonical v (List.mem_cons_of_mem u member)) _ one later
        refine ⟨?_, kept.trans kept_rest⟩
        have twice : ((m.filter fun v _ => decide (v ≠ u)).filter fun v _ => decide (v ∉ rest)) =
            m.filter fun v _ => decide (v ∉ u :: rest) := by
          apply OrdMap.ext_get?
          intro v
          rw [OrdMap.get?_filter, OrdMap.get?_filter, OrdMap.get?_filter, Option.filter_filter]
          simp
        exact twice ▸ all
  rcases transact_cases s (uris.foldlM deleteSource (0, s)) with failed | ⟨n, after, body, same⟩
  · exact .inl failed
  · obtain ⟨held, kept⟩ := fold (0, s) h body
    exact .inr ⟨n, _, same, held.withRefusals _, kept.keeps⟩

theorem removeSources_granted (yields : s.Yields .sources) (uris : List FileUri) :
    ∃ n after, s.removeSources uris = (.ok n, after) := by
  have fold : ∀ counted : Nat × Store, counted.2.Yields .sources → ∃ result, uris.foldlM deleteSource counted = .ok result := by
    induction uris with
    | nil => exact fun counted _ => ⟨counted, rfl⟩
    | cons u rest ih =>
        intro counted yields
        rw [List.foldlM_cons, deleteSource, deleteSources_granted yields]
        exact ih _ (yields.spend _)
  obtain ⟨result, done⟩ := fold (0, s) yields
  exact ⟨result.1, result.2.withRefusals s.refusals, by rw [removeSources, done]; rfl⟩

theorem clearSources_cases (s : Store) :
    (∃ fault, s.clearSources = (.error fault, s)) ∨
      ∃ after, s.clearSources = (.ok (), after) ∧ after.HoldsSources .empty ∧ s.KeepsModules after := by
  rcases run_cases s _ with failed | ⟨after, deleted, same⟩
  · exact .inl failed
  · obtain ⟨_, rfl⟩ := deleteSources_eq_ok.mp deleted
    exact .inr ⟨_, same, holdsSources_empty (by simp), ⟨rfl, rfl, rfl⟩⟩

theorem clearSources_granted (yields : s.Yields .sources) : s.clearSources.1 = .ok () := by
  rw [clearSources, deleteSources_granted yields]
  rfl

/-! ## Reading back -/

/-- The table answers for a path as the map does. -/
theorem HoldsSources.getSource (h : s.HoldsSources m) {u : FileUri} (canonical : u.Canonical) :
    s.getSource u = .ok (m.get? u) := by
  obtain ⟨order, perm, rows, decodes⟩ := h.decode
  have row : s.sourceRow? u = (order.find? fun e => e.uri = u).map SourceRow.ofEntry := by
    rw [sourceRow?, rows, List.find?_map]
    congr 1
    apply List.find?_congr
    intro e member
    simp [SourceRow.ofEntry, (h.storable e (perm.mem_iff.mp member)).uri.beq_toString canonical]
  rw [Store.getSource, row, ← h.own.find?_perm perm u]
  cases found : order.find? fun e => e.uri = u with
  | none => rfl
  | some e =>
      simp only [Option.map_some, decodes e (List.mem_of_find?_eq_some found)]
      rfl

/-- The entries whose files are as the entries say. -/
def currentSources (t : FileTree) (m : OrdMap FileUri SourceEntry) : OrdMap FileUri SourceEntry :=
  m.filter fun u e => t.hasTime u (some e.lastModified)

theorem currentSource?_ofEntry {t : FileTree} {e : SourceEntry} (storable : e.Storable) :
    currentSource? t (SourceRow.ofEntry e) = if t.hasTime e.uri (some e.lastModified) then some e else none := by
  rw [currentSource?, SourceRow.decode_ofEntry storable]

/-- If every row has a path of its own, the rows that are deleted are those that are not current. -/
theorem loadSources_eq (keyed : s.KeyedByPath) (named : ∀ r ∈ s.sources, r.path.isSome = true) (t : FileTree) :
    s.loadSources t = s.transact do
      let after ← s.deleteSources fun r => (currentSource? t r).isNone
      return (s.sources.filterMap (currentSource? t), after) := by
  have gone : ∀ r ∈ s.sources, ((stale (s.sources.map fun r => (r.path.getD "", currentSource? t r))).any
      fun path => r.path == some path) = (currentSource? t r).isNone := by
    intro r member
    obtain ⟨path, here⟩ := Option.isSome_iff_exists.mp (named r member)
    have iff := mem_stale_iff (f := currentSource? t) keyed named member here
    rw [Bool.eq_iff_iff, List.any_eq_true, Option.isNone_iff_eq_none, ← iff, here]
    simp
  rw [loadSources, withKeys_of_named named]
  simp only [bind, Except.bind, List.map_map, Function.comp_def, dropSources_eq, deleteSources_congr gone,
    List.filterMap_map]

theorem loadSources_of_nameless {r : SourceRow} (member : r ∈ s.sources) (nameless : r.path = none) (t : FileTree) :
    s.loadSources t = (undecodable 0, s) := by
  rw [loadSources, withKeys_of_nameless member nameless]
  rfl

theorem HoldsSources.named (h : s.HoldsSources m) : ∀ r ∈ s.sources, r.path.isSome = true := by
  intro r member
  obtain ⟨e, _, rfl⟩ := List.mem_map.mp (h.rows.mem_iff.mp member)
  rfl

/-- Entries of different paths have rows of different paths. -/
theorem HoldsSources.keyed (h : s.HoldsSources m) : s.KeyedByPath := by
  have spelled : ((m.values.map SourceRow.ofEntry).filterMap SourceRow.path) = m.values.map fun e => e.uri.toString := by
    rw [List.filterMap_map, ← List.filterMap_eq_map]
    rfl
  refine (h.rows.filterMap _).nodup_iff.mpr ?_
  rw [spelled, List.Nodup, List.pairwise_map]
  have distinct := List.pairwise_map.mp h.own.nodup
  refine distinct.imp_of_mem fun first second other same => other ?_
  exact ((h.storable _ first).uri.toString_inj (h.storable _ second).uri).mp same

/-- Reading back gives the entries that are still true, and leaves the rows of those. -/
theorem HoldsSources.load (h : s.HoldsSources m) (t : FileTree) :
    (∃ fault, s.loadSources t = (.error fault, s)) ∨
      ∃ entries after, s.loadSources t = (.ok entries, after) ∧ entries.Perm (currentSources t m).values ∧
        after.HoldsSources (currentSources t m) ∧ s.KeepsModules after := by
  rw [loadSources_eq h.keyed h.named]
  rcases transact_cases s _ with failed | ⟨entries, after, body, same⟩
  · exact .inl failed
  · obtain ⟨stored, deleted, result⟩ := bind_eq_ok.mp body
    obtain ⟨rfl, rfl⟩ := Prod.mk.inj (Except.ok.inj result)
    have stale : ∀ e ∈ m.values, (currentSource? t (SourceRow.ofEntry e)).isNone =
        !t.hasTime e.uri (some e.lastModified) := by
      intro e member
      rw [currentSource?_ofEntry (h.storable e member)]
      cases t.hasTime e.uri (some e.lastModified) <;> rfl
    obtain ⟨held, kept⟩ := h.filter (q := fun u e => t.hasTime u (some e.lastModified)) stale deleted
    refine .inr ⟨_, _, same, ?_, held.withRefusals _, kept.keeps⟩
    · obtain ⟨order, perm, rows, _⟩ := h.decode
      have kept : (s.sources.filterMap (currentSource? t)) =
          order.filter fun e => t.hasTime e.uri (some e.lastModified) := by
        rw [rows, List.filterMap_map]
        apply filterMap_eq_filter_of
        intro e member
        exact currentSource?_ofEntry (h.storable e (perm.mem_iff.mp member))
      rw [kept, currentSources, h.own.values_filter]
      exact perm.filter _

theorem loadSources_granted (yields : s.Yields .sources) (h : s.HoldsSources m) (t : FileTree) :
    ∃ entries after, s.loadSources t = (.ok entries, after) := by
  rw [loadSources_eq h.keyed h.named, deleteSources_granted yields]
  exact ⟨_, _, rfl⟩

end Store

end QmlIndex
