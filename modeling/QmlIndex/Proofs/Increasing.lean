import QmlIndex.SourceEntry
import QmlIndex.Proofs.Lookup

/-! # Increasing lists of paths

Edge lists are increasing in path order and so free of repetition; such a list is determined by its
members. Insertion keeps lists increasing, and inserting a path twice is inserting it once.
-/

namespace QmlIndex

/-- Strictly increasing in path order. -/
def Increasing (l : List Path) : Prop := l.Pairwise fun a b => compare a b = .lt

namespace Increasing

/-- An increasing list is determined by its members. -/
theorem ext {l₁ l₂ : List Path} (h₁ : Increasing l₁) (h₂ : Increasing l₂) (same : ∀ p, p ∈ l₁ ↔ p ∈ l₂) :
    l₁ = l₂ :=
  eq_of_pairwise_of_mem_iff compare_lt_asymm h₁ h₂ same

theorem nodup {l : List Path} (h : Increasing l) : l.Nodup := by
  refine List.Pairwise.imp ?_ h
  rintro p q before rfl
  exact compare_lt_asymm p p before before

theorem filter {l : List Path} (h : Increasing l) (p : Path → Bool) : Increasing (l.filter p) :=
  List.Pairwise.filter p h

end Increasing

@[simp]
theorem mem_insertPath {p q : Path} {l : List Path} : q ∈ insertPath p l ↔ q = p ∨ q ∈ l := by
  induction l with
  | nil => simp [insertPath]
  | cons r rest ih =>
      simp only [insertPath]
      split
      · simp
      · rename_i same
        obtain rfl := Std.LawfulEqCmp.eq_of_compare same
        simp
      · simp only [List.mem_cons, ih]
        exact or_left_comm

theorem insertPath_ne_nil (p : Path) (l : List Path) : insertPath p l ≠ [] :=
  List.ne_nil_of_mem (mem_insertPath.mpr (.inl rfl))

theorem increasing_insertPath (p : Path) {l : List Path} (h : Increasing l) : Increasing (insertPath p l) := by
  induction l with
  | nil => simp [insertPath, Increasing]
  | cons q rest ih =>
      obtain ⟨first, more⟩ := List.pairwise_cons.mp h
      simp only [insertPath]
      split
      · rename_i less
        refine List.pairwise_cons.mpr ⟨?_, h⟩
        intro r member
        rcases List.mem_cons.mp member with rfl | member
        · exact less
        · exact Std.TransCmp.lt_trans less (first r member)
      · exact h
      · rename_i greater
        refine List.pairwise_cons.mpr ⟨?_, ih more⟩
        intro r member
        rcases mem_insertPath.mp member with rfl | member
        · exact Std.OrientedCmp.lt_of_gt greater
        · exact first r member

@[simp]
theorem insertPath_insertPath (p : Path) (l : List Path) : insertPath p (insertPath p l) = insertPath p l := by
  induction l with
  | nil => simp [insertPath, Std.ReflCmp.compare_self]
  | cons q rest ih =>
      simp only [insertPath]
      split
      · simp [insertPath, Std.ReflCmp.compare_self]
      · rename_i same
        simp [insertPath, same]
      · rename_i greater
        simp [insertPath, greater, ih]

@[simp]
theorem mem_sortPaths {p : Path} {l : List Path} : p ∈ sortPaths l ↔ p ∈ l := by
  induction l with
  | nil => simp [sortPaths]
  | cons q rest ih =>
      rw [sortPaths, List.foldr_cons, mem_insertPath, List.mem_cons]
      exact or_congr_right ih

theorem increasing_sortPaths (l : List Path) : Increasing (sortPaths l) := by
  induction l with
  | nil => exact List.Pairwise.nil
  | cons q rest ih => exact increasing_insertPath q ih

theorem eq_sortPaths_iff {l₁ l₂ : List Path} : l₁ = sortPaths l₂ ↔ Increasing l₁ ∧ ∀ p, p ∈ l₁ ↔ p ∈ l₂ := by
  constructor
  · rintro rfl
    exact ⟨increasing_sortPaths l₂, fun p => mem_sortPaths⟩
  · rintro ⟨increasing, same⟩
    exact increasing.ext (increasing_sortPaths l₂) fun p => (same p).trans mem_sortPaths.symm

end QmlIndex
