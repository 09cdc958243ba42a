/-! # Pieces of a list

Cutting a list into pieces of one size: the blocks of a digest, the batches of a scan.
-/

namespace QmlIndex

/-- Cut a list into pieces of `n + 1` elements, of which only the last may be shorter. -/
def pieces {α : Type} (n : Nat) : List α → List (List α)
  | [] => []
  | a :: rest => (a :: rest.take n) :: pieces n (rest.drop n)
termination_by l => l.length
decreasing_by
  simp only [List.length_cons, List.length_drop]
  omega

/-- Nothing is lost, and the order is kept. -/
theorem flatten_pieces {α : Type} (n : Nat) (l : List α) : (pieces n l).flatten = l := by
  fun_induction pieces n l with
  | case1 => rfl
  | case2 a rest ih => simp [ih]

end QmlIndex
