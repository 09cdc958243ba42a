import QmlIndex.OrdMap

/-! # What a look-up finds

Every operation on an ordered map, said by what it does to look-ups. Entries are listed by increasing
key, so two maps in which all look-ups agree are the same map.
-/

namespace QmlIndex

/-- Two lists that increase along a strict order and have the same members are the same. -/
theorem eq_of_pairwise_of_mem_iff {α : Type} {less : α → α → Prop} {l₁ l₂ : List α}
    (asymm : ∀ a b, less a b → ¬ less b a) (increasing₁ : l₁.Pairwise less)
    (increasing₂ : l₂.Pairwise less) (same : ∀ a, a ∈ l₁ ↔ a ∈ l₂) : l₁ = l₂ := by
  have nodup : ∀ {l : List α}, l.Pairwise less → l.Nodup := by
    intro l increasing
    apply increasing.imp
    rintro a b before rfl
    exact asymm a a before before
  have perm : l₁.Perm l₂ := (List.perm_ext_iff_of_nodup (nodup increasing₁) (nodup increasing₂)).mpr same
  refine perm.eq_of_pairwise ?_ increasing₁ increasing₂
  intro a b _ _ before after
  exact absurd after (asymm a b before)

theorem compare_lt_asymm {κ : Type} [Ord κ] [Std.OrientedOrd κ] (a b : κ) (h : compare a b = .lt) :
    compare b a ≠ .lt := by
  rw [Std.OrientedCmp.gt_of_lt h]
  decide

namespace OrdMap

variable {κ ν μ : Type} [Ord κ]

theorem find_mem [Std.LawfulEqOrd κ] {k : κ} {v : ν} {l : List (κ × ν)} (h : find k l = some v) :
    (k, v) ∈ l := by
  induction l with
  | nil => simp [find] at h
  | cons head rest ih =>
      obtain ⟨a, w⟩ := head
      rw [find] at h
      split at h
      · rename_i same
        obtain rfl := Std.LawfulEqCmp.eq_of_compare same
        obtain rfl := Option.some.inj h
        exact List.mem_cons_self
      · exact List.mem_cons_of_mem _ (ih h)

theorem find_of_mem [Std.OrientedOrd κ] {k : κ} {v : ν} {l : List (κ × ν)}
    (sorted : l.Pairwise fun a b => compare a.1 b.1 = .lt) (h : (k, v) ∈ l) : find k l = some v := by
  induction l with
  | nil => simp at h
  | cons head rest ih =>
      obtain ⟨a, w⟩ := head
      obtain ⟨first, more⟩ := List.pairwise_cons.mp sorted
      rcases List.mem_cons.mp h with same | member
      · obtain ⟨rfl, rfl⟩ := Prod.mk.inj same
        rw [find, if_pos Std.ReflCmp.compare_self]
      · have greater : compare k a = .gt := Std.OrientedCmp.gt_of_lt (first (k, v) member)
        rw [find, if_neg (by simp [greater])]
        exact ih more member

@[simp]
theorem get?_empty (k : κ) : (empty : OrdMap κ ν).get? k = none := rfl

theorem contains_iff {m : OrdMap κ ν} {k : κ} : m.contains k ↔ ∃ v, m.get? k = some v :=
  Option.isSome_iff_exists

theorem find_put [Std.LawfulEqOrd κ] [DecidableEq κ] (k : κ) (v : ν) (l : List (κ × ν)) (key : κ) :
    find key (put k v l) = if key = k then some v else find key l := by
  induction l with
  | nil => simp [put, find, Std.LawfulEqCmp.compare_eq_iff_eq]
  | cons head rest ih =>
      obtain ⟨a, w⟩ := head
      simp only [put]
      split
      · simp [find, Std.LawfulEqCmp.compare_eq_iff_eq]
      · rename_i same
        obtain rfl := Std.LawfulEqCmp.eq_of_compare same
        simp only [find, Std.LawfulEqCmp.compare_eq_iff_eq]
        split <;> rfl
      · rename_i greater
        have other : a ≠ k := by
          rintro rfl
          simp [Std.ReflCmp.compare_self] at greater
        simp only [find, ih, Std.LawfulEqCmp.compare_eq_iff_eq]
        by_cases here : key = a
        · simp [here, other]
        · simp [here]

section Lawful

variable [Std.TransOrd κ] [Std.LawfulEqOrd κ]

/-- A look-up finds exactly the listed entries. -/
theorem get?_eq_some {m : OrdMap κ ν} {k : κ} {v : ν} : m.get? k = some v ↔ (k, v) ∈ m.entries :=
  ⟨find_mem, find_of_mem m.sorted⟩

/-- Two maps in which all look-ups agree are the same. -/
theorem ext_get? {m n : OrdMap κ ν} (h : ∀ k, m.get? k = n.get? k) : m = n := by
  have same : m.entries = n.entries := by
    refine eq_of_pairwise_of_mem_iff (fun a b => compare_lt_asymm a.1 b.1) m.sorted n.sorted ?_
    rintro ⟨k, v⟩
    rw [← get?_eq_some, ← get?_eq_some, h]
  cases m
  cases n
  subst same
  rfl

theorem get?_insert [DecidableEq κ] (m : OrdMap κ ν) (k : κ) (v : ν) (key : κ) :
    (m.insert k v).get? key = if key = k then some v else m.get? key :=
  find_put k v m.entries key

theorem get?_filter (m : OrdMap κ ν) (p : κ → ν → Bool) (key : κ) :
    (m.filter p).get? key = (m.get? key).filter (p key) := by
  apply Option.ext
  intro v
  rw [Option.filter_eq_some_iff, get?_eq_some, get?_eq_some]
  exact List.mem_filter

theorem get?_erase [DecidableEq κ] (m : OrdMap κ ν) (k key : κ) :
    (m.erase k).get? key = if key = k then none else m.get? key := by
  rw [erase, get?_filter]
  by_cases same : key = k
  · subst same
    cases m.get? key <;> simp [Std.ReflCmp.compare_self]
  · have other : compare k key ≠ .eq := fun eq => same (Std.LawfulEqCmp.eq_of_compare eq).symm
    cases m.get? key <;> simp [same, other]

theorem get?_map (m : OrdMap κ ν) (f : κ → ν → μ) (key : κ) :
    (m.map f).get? key = (m.get? key).map (f key) := by
  apply Option.ext
  intro v
  simp only [Option.map_eq_some_iff, get?_eq_some, map, List.mem_map, Prod.mk.injEq, Prod.exists]
  constructor
  · rintro ⟨k, w, member, rfl, rfl⟩
    exact ⟨w, member, rfl⟩
  · rintro ⟨w, member, rfl⟩
    exact ⟨key, w, member, rfl, rfl⟩

theorem mem_values {m : OrdMap κ ν} {v : ν} : v ∈ m.values ↔ ∃ k, m.get? k = some v := by
  simp only [values, List.mem_map, Prod.exists, get?_eq_some]
  constructor
  · rintro ⟨k, w, member, rfl⟩
    exact ⟨k, member⟩
  · rintro ⟨k, member⟩
    exact ⟨k, v, member, rfl⟩

theorem insertAll_cons (m : OrdMap κ ν) (e : κ × ν) (l : List (κ × ν)) :
    m.insertAll (e :: l) = (m.insert e.1 e.2).insertAll l := rfl

/-- The last entry of a key counts. -/
theorem get?_insertAll [DecidableEq κ] (m : OrdMap κ ν) (l : List (κ × ν)) (key : κ) :
    (m.insertAll l).get? key =
      ((l.reverse.find? fun e => e.1 = key).map Prod.snd).or (m.get? key) := by
  induction l generalizing m with
  | nil => rfl
  | cons head rest ih =>
      obtain ⟨k, v⟩ := head
      rw [insertAll_cons, ih, get?_insert, List.reverse_cons, List.find?_append]
      cases rest.reverse.find? fun e => e.1 = key with
      | some e => simp
      | none =>
          by_cases same : key = k
          · simp [same]
          · simp [same, Ne.symm same]

/-- The entries of a map make it again. -/
theorem ofList_entries [DecidableEq κ] (m : OrdMap κ ν) : ofList m.entries = m := by
  apply ext_get?
  intro k
  rw [ofList, get?_insertAll, get?_empty, Option.or_none]
  cases here : m.entries.reverse.find? fun e => e.1 = k with
  | none =>
      cases found : m.get? k with
      | none => rfl
      | some v =>
          have listed := List.mem_reverse.mpr (get?_eq_some.mp found)
          simpa using List.find?_eq_none.mp here (k, v) listed
  | some e =>
      obtain rfl : e.1 = k := by simpa using List.find?_some here
      exact (get?_eq_some.mpr (List.mem_reverse.mp (List.mem_of_find?_eq_some here))).symm

/-- One map put over another: what the upper one has counts. -/
theorem get?_insertAll_entries [DecidableEq κ] (below above : OrdMap κ ν) (k : κ) :
    (below.insertAll above.entries).get? k = (above.get? k).or (below.get? k) := by
  have upper : ((above.entries.reverse.find? fun e => e.1 = k).map Prod.snd) = above.get? k := by
    have same := congrArg (fun m => m.get? k) (ofList_entries above)
    rwa [ofList, get?_insertAll, get?_empty, Option.or_none] at same
  rw [get?_insertAll, upper]

end Lawful

end OrdMap

end QmlIndex
