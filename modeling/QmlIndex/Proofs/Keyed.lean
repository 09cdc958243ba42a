import QmlIndex.Proofs.Lookup

/-! # Maps that are keyed by their values

Entries are kept under their own paths, and modules and components under their own names. Such a map is
determined by its values, in whatever order they are listed, so a table without order can hold it.
-/

namespace QmlIndex

/-- What is a permutation of an image is the image of a permutation. -/
theorem exists_perm_of_perm_map {α β : Type} {f : α → β} {l : List β} {source : List α} (h : l.Perm (source.map f)) :
    ∃ order : List α, order.Perm source ∧ l = order.map f := by
  generalize image : source.map f = target at h
  induction h generalizing source with
  | nil => exact ⟨[], by simpa using image, rfl⟩
  | cons b _ ih =>
      obtain ⟨a, rest, rfl, rfl, more⟩ := List.map_eq_cons_iff.mp image
      obtain ⟨order, perm, rfl⟩ := ih more
      exact ⟨a :: order, perm.cons a, rfl⟩
  | swap b c l =>
      obtain ⟨a, rest, rfl, rfl, more⟩ := List.map_eq_cons_iff.mp image
      obtain ⟨d, rest, rfl, rfl, rfl⟩ := List.map_eq_cons_iff.mp more
      exact ⟨d :: a :: rest, .swap a d rest, rfl⟩
  | trans _ _ first second =>
      obtain ⟨middle, perm, rfl⟩ := second image
      obtain ⟨order, perm', rfl⟩ := first rfl
      exact ⟨order, perm'.trans perm, rfl⟩

theorem filterMap_eq_filter_of {α : Type} {l : List α} {f : α → Option α} {p : α → Bool}
    (h : ∀ a ∈ l, f a = if p a then some a else none) : l.filterMap f = l.filter p := by
  induction l with
  | nil => rfl
  | cons a rest ih =>
      rw [List.filterMap_cons, List.filter_cons, h a List.mem_cons_self,
        ih fun b member => h b (List.mem_cons_of_mem a member)]
      cases p a <;> rfl

theorem eq_of_nodup_map {α β : Type} {f : α → β} {l : List α} (nodup : (l.map f).Nodup) {a b : α} (ha : a ∈ l)
    (hb : b ∈ l) (same : f a = f b) : a = b := by
  induction l with
  | nil => simp at ha
  | cons c rest ih =>
      obtain ⟨fresh, distinct⟩ := List.nodup_cons.mp nodup
      have other : ∀ {d : α}, d ∈ rest → f c ≠ f d := fun member same => fresh (List.mem_map.mpr ⟨_, member, same.symm⟩)
      rcases List.mem_cons.mp ha with rfl | first <;> rcases List.mem_cons.mp hb with rfl | second
      · rfl
      · exact absurd same (other second)
      · exact absurd same.symm (other first)
      · exact ih distinct first second

namespace OrdMap

variable {κ ν : Type} [Ord κ] {m : OrdMap κ ν} {key : ν → κ}

/-- Every value is kept under its own key. -/
def KeyedBy (m : OrdMap κ ν) (key : ν → κ) : Prop := ∀ k v, m.get? k = some v → key v = k

@[simp] theorem values_empty : (empty : OrdMap κ ν).values = [] := rfl

theorem keyedBy_empty : (empty : OrdMap κ ν).KeyedBy key := by
  intro k v found
  simp at found

section Lawful

variable [Std.TransOrd κ]

theorem nodup_keys (m : OrdMap κ ν) : m.keys.Nodup := by
  rw [keys, List.nodup_iff_pairwise_ne, List.pairwise_map]
  apply m.sorted.imp
  intro a b before same
  rw [same] at before
  exact compare_lt_asymm _ _ before before

variable [Std.LawfulEqOrd κ]

theorem mem_keys {k : κ} : k ∈ m.keys ↔ ∃ v, m.get? k = some v := by
  simp only [keys, List.mem_map, Prod.exists, get?_eq_some, exists_and_right, exists_eq_right]

theorem KeyedBy.insert [DecidableEq κ] (own : m.KeyedBy key) (v : ν) : (m.insert (key v) v).KeyedBy key := by
  intro k w found
  rw [get?_insert] at found
  split at found
  · rename_i same
    obtain rfl := Option.some.inj found
    exact same.symm
  · exact own k w found

theorem mem_values_insert [DecidableEq κ] {k : κ} {v w : ν} (h : w ∈ (m.insert k v).values) : w = v ∨ w ∈ m.values := by
  obtain ⟨key, found⟩ := OrdMap.mem_values.mp h
  rw [get?_insert] at found
  split at found
  · exact .inl (Option.some.inj found).symm
  · exact .inr (OrdMap.mem_values.mpr ⟨key, found⟩)

theorem mem_values_insertAll [DecidableEq κ] {l : List (κ × ν)} {v : ν} (h : v ∈ (m.insertAll l).values) :
    (∃ k, (k, v) ∈ l) ∨ v ∈ m.values := by
  induction l generalizing m with
  | nil => exact .inr h
  | cons e rest ih =>
      rcases ih (insertAll_cons m e rest ▸ h) with ⟨k, later⟩ | before
      · exact .inl ⟨k, List.mem_cons_of_mem e later⟩
      · rcases mem_values_insert before with rfl | before
        · exact .inl ⟨e.1, List.mem_cons_self⟩
        · exact .inr before

theorem KeyedBy.insertAll_entries [DecidableEq κ] {below above : OrdMap κ ν} (lower : below.KeyedBy key)
    (upper : above.KeyedBy key) : (below.insertAll above.entries).KeyedBy key := by
  intro k v found
  rw [get?_insertAll_entries, Option.or_eq_some_iff] at found
  rcases found with here | ⟨_, there⟩
  · exact upper k v here
  · exact lower k v there

theorem KeyedBy.filter (own : m.KeyedBy key) (p : κ → ν → Bool) : (m.filter p).KeyedBy key := by
  intro k v found
  rw [get?_filter, Option.filter_eq_some_iff] at found
  exact own k v found.1

theorem KeyedBy.erase (own : m.KeyedBy key) (k : κ) : (m.erase k).KeyedBy key := own.filter _

theorem KeyedBy.mem_values (own : m.KeyedBy key) {v : ν} : v ∈ m.values ↔ m.get? (key v) = some v := by
  rw [OrdMap.mem_values]
  constructor
  · rintro ⟨k, found⟩
    rw [own k v found]
    exact found
  · intro found
    exact ⟨key v, found⟩

theorem KeyedBy.inj (own : m.KeyedBy key) {v w : ν} (hv : v ∈ m.values) (hw : w ∈ m.values) (same : key v = key w) :
    v = w := by
  rw [own.mem_values] at hv hw
  rw [same, hw] at hv
  exact (Option.some.inj hv).symm

theorem KeyedBy.map_values (own : m.KeyedBy key) : m.values.map key = m.keys := by
  rw [values, keys, List.map_map]
  apply List.map_congr_left
  rintro ⟨k, v⟩ member
  exact own k v (get?_eq_some.mpr member)

/-- No two values of a keyed map have one key. -/
theorem KeyedBy.nodup (own : m.KeyedBy key) : (m.values.map key).Nodup := by
  rw [own.map_values]
  exact nodup_keys m

theorem KeyedBy.nodup_values (own : m.KeyedBy key) : m.values.Nodup :=
  List.Pairwise.of_map key (fun _ _ different same => different (congrArg key same)) own.nodup

theorem KeyedBy.values_filter (own : m.KeyedBy key) (p : κ → ν → Bool) :
    (m.filter p).values = m.values.filter fun v => p (key v) v := by
  simp only [values, OrdMap.filter, List.filter_map]
  congr 1
  apply List.filter_congr
  rintro ⟨k, v⟩ member
  simp [own k v (get?_eq_some.mpr member)]

theorem KeyedBy.values_erase [DecidableEq κ] (own : m.KeyedBy key) (k : κ) :
    (m.erase k).values = m.values.filter fun v => key v ≠ k := by
  rw [OrdMap.erase, own.values_filter]
  apply List.filter_congr
  intro v _
  by_cases same : key v = k
  · simp [same, Std.ReflCmp.compare_self]
  · have other : compare k (key v) ≠ .eq := fun eq => same (Std.LawfulEqCmp.eq_of_compare eq).symm
    simp [same, other]

/-- An insertion puts one value in place of the value with its key. -/
theorem KeyedBy.values_insert [DecidableEq κ] (own : m.KeyedBy key) (v : ν) :
    (m.insert (key v) v).values.Perm (m.values.filter (fun w => key w ≠ key v) ++ [v]) := by
  have fresh : (m.values.filter (fun w => key w ≠ key v) ++ [v]).Nodup := by
    refine List.nodup_append.mpr ⟨own.nodup_values.filter _, by simp, ?_⟩
    rintro w before _ last rfl
    obtain rfl := List.mem_singleton.mp last
    simp at before
  refine (List.perm_ext_iff_of_nodup (own.insert v).nodup_values fresh).mpr fun w => ?_
  rw [(own.insert v).mem_values, get?_insert, List.mem_append, List.mem_filter, own.mem_values, List.mem_singleton]
  by_cases same : key w = key v
  · simp [same, eq_comm]
  · have other : w ≠ v := fun eq => same (congrArg key eq)
    simp [same, other]

/-- The values in any order make the map again. -/
theorem KeyedBy.find?_perm [DecidableEq κ] (own : m.KeyedBy key) {l : List ν} (perm : l.Perm m.values) (k : κ) :
    (l.find? fun v => key v = k) = m.get? k := by
  apply Option.ext
  intro v
  constructor
  · intro found
    obtain rfl : key v = k := by simpa using List.find?_some found
    exact own.mem_values.mp (perm.mem_iff.mp (List.mem_of_find?_eq_some found))
  · intro found
    obtain rfl := own k v found
    have listed : v ∈ l := perm.mem_iff.mpr (own.mem_values.mpr found)
    cases here : l.find? fun w => key w = key v with
    | none => simpa using List.find?_eq_none.mp here v listed
    | some w =>
        have same : key w = key v := by simpa using List.find?_some here
        have other := perm.mem_iff.mp (List.mem_of_find?_eq_some here)
        rw [own.inj other (perm.mem_iff.mp listed) same]

theorem KeyedBy.ofList_perm [DecidableEq κ] (own : m.KeyedBy key) {l : List ν} (perm : l.Perm m.values) :
    ofList (l.map fun v => (key v, v)) = m := by
  apply ext_get?
  intro k
  rw [ofList, get?_insertAll, get?_empty, Option.or_none, ← List.map_reverse, List.find?_map, Option.map_map]
  have back : (l.reverse.find? fun v => key v = k) = m.get? k := own.find?_perm (l.reverse_perm.trans perm) k
  rw [← back]
  exact Option.map_id_apply

end Lawful

end OrdMap

end QmlIndex
