import QmlIndex.Store

/-! # Tables with keys

A table is read back row by row, each row beside its key, and the rows from which nothing was read are deleted by their
keys. If no two rows have one key, those rows are deleted and no others.
-/

namespace QmlIndex

namespace Store

variable {ρ α : Type} {key : ρ → Option String} {rows : List ρ}

theorem withKeys_of_named (named : ∀ r ∈ rows, (key r).isSome = true) :
    withKeys key rows = .ok (rows.map fun r => ((key r).getD "", r)) := by
  induction rows with
  | nil => rfl
  | cons r rest ih =>
      obtain ⟨k, here⟩ := Option.isSome_iff_exists.mp (named r List.mem_cons_self)
      have more := ih fun other member => named other (List.mem_cons_of_mem r member)
      rw [withKeys] at more
      rw [withKeys, List.mapM_cons, here, more]
      simp only [List.map_cons, here]
      rfl

/-- A row without a key makes the table unreadable. -/
theorem withKeys_of_nameless {r : ρ} (member : r ∈ rows) (nameless : key r = none) :
    withKeys key rows = undecodable 0 := by
  induction rows with
  | nil => cases member
  | cons first rest ih =>
      rw [withKeys, List.mapM_cons]
      cases here : key first with
      | none => rfl
      | some k =>
          rcases List.mem_cons.mp member with rfl | later
          · rw [nameless] at here
            cases here
          · have more := ih later
            rw [withKeys] at more
            rw [more]
            rfl

/-- Two rows with one key are one row. -/
theorem eq_of_key (distinct : (rows.filterMap key).Nodup) {a b : ρ} (first : a ∈ rows) (second : b ∈ rows) {k : String}
    (left : key a = some k) (right : key b = some k) : a = b := by
  induction rows with
  | nil => cases first
  | cons r rest ih =>
      cases here : key r with
      | none =>
          rw [List.filterMap_cons_none here] at distinct
          have other {c : ρ} (found : key c = some k) (member : c ∈ r :: rest) : c ∈ rest := by
            rcases List.mem_cons.mp member with rfl | later
            · rw [here] at found
              cases found
            · exact later
          exact ih distinct (other left first) (other right second)
      | some h =>
          rw [List.filterMap_cons_some here] at distinct
          obtain ⟨fresh, apart⟩ := List.nodup_cons.mp distinct
          have other {c : ρ} (found : key c = some h) : c ∉ rest := fun later =>
            fresh (List.mem_filterMap.mpr ⟨c, later, found⟩)
          rcases List.mem_cons.mp first with rfl | a_later <;> rcases List.mem_cons.mp second with rfl | b_later
          · rfl
          · obtain rfl := Option.some.inj (here.symm.trans left)
            exact absurd b_later (other right)
          · obtain rfl := Option.some.inj (here.symm.trans right)
            exact absurd a_later (other left)
          · exact ih apart a_later b_later

theorem mem_stale {f : ρ → Option α} {k : String} :
    k ∈ stale (rows.map fun r => ((key r).getD "", f r)) ↔ ∃ r ∈ rows, (key r).getD "" = k ∧ f r = none := by
  rw [stale, List.filterMap_map, List.mem_filterMap]
  apply exists_congr
  intro r
  cases found : f r <;> simp [found]

/-- A key is among those of the stale rows if its row is stale. -/
theorem mem_stale_iff {f : ρ → Option α} (distinct : (rows.filterMap key).Nodup)
    (named : ∀ r ∈ rows, (key r).isSome = true) {r : ρ} (member : r ∈ rows) {k : String} (here : key r = some k) :
    k ∈ stale (rows.map fun r => ((key r).getD "", f r)) ↔ f r = none := by
  rw [mem_stale]
  constructor
  · rintro ⟨other, listed, same, left_out⟩
    obtain ⟨h, found⟩ := Option.isSome_iff_exists.mp (named other listed)
    rw [found, Option.getD_some] at same
    rwa [← eq_of_key distinct listed member (same ▸ found) here]
  · intro left_out
    exact ⟨r, member, by rw [here, Option.getD_some], left_out⟩

end Store

end QmlIndex
