/-! # Choosing from lists

Going through a list and keeping the better one of two elements ends with an element that is as good as all. A list is
split at an element in one way only if neither of two splits could be further on than the other.
-/

namespace QmlIndex

/-- Keeping one of two elements, such that the kept one is as good as both. -/
structure Picks {α : Type} (good : α → α → Prop) (pick : α → α → α) : Prop where
  refl : ∀ a, good a a
  trans : ∀ {a b c}, good a b → good b c → good a c
  left : ∀ a b, good (pick a b) a
  right : ∀ a b, good (pick a b) b
  either : ∀ a b, pick a b = a ∨ pick a b = b

theorem Picks.foldl {α : Type} {good : α → α → Prop} {pick : α → α → α} (h : Picks good pick) (a : α) (l : List α) :
    l.foldl pick a ∈ a :: l ∧ ∀ b ∈ a :: l, good (l.foldl pick a) b := by
  induction l generalizing a with
  | nil => simp [h.refl]
  | cons b l ih =>
      obtain ⟨member, best⟩ := ih (pick a b)
      have first := best _ List.mem_cons_self
      rw [List.foldl_cons]
      constructor
      · rcases List.mem_cons.mp member with same | later
        · rw [same]
          rcases h.either a b with same | same <;> simp [same]
        · exact List.mem_cons_of_mem _ (List.mem_cons_of_mem _ later)
      · intro c listed
        rcases List.mem_cons.mp listed with rfl | listed
        · exact h.trans first (h.left c b)
        · rcases List.mem_cons.mp listed with rfl | listed
          · exact h.trans first (h.right a c)
          · exact best c (List.mem_cons_of_mem _ listed)

theorem split_unique {α : Type} {before after before' after' : List α} {a b : α}
    (same : before ++ a :: after = before' ++ b :: after') (left : ∀ between, before' ≠ before ++ a :: between)
    (right : ∀ between, before ≠ before' ++ b :: between) : before = before' ∧ a = b ∧ after = after' := by
  rcases List.append_eq_append_iff.mp same with ⟨between, further, rest⟩ | ⟨between, further, rest⟩
  · cases between with
    | nil =>
        obtain ⟨rfl, rfl⟩ := List.cons.inj rest
        exact ⟨by rw [further, List.append_nil], rfl, rfl⟩
    | cons c between =>
        obtain ⟨rfl, _⟩ := List.cons.inj rest
        exact absurd further (left between)
  · cases between with
    | nil =>
        obtain ⟨rfl, rfl⟩ := List.cons.inj rest
        exact ⟨by rw [further, List.append_nil], rfl, rfl⟩
    | cons c between =>
        obtain ⟨rfl, _⟩ := List.cons.inj rest
        exact absurd further (right between)

end QmlIndex
