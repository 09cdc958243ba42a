/-! # Signed words

Numbers that are stored or written must fit a signed 64-bit word.
-/

namespace QmlIndex.Word

/-- One more than the greatest word. -/
def bound : Nat := 9223372036854775808

/-- Whether an integer is the value of a word. -/
def fits (i : Int) : Bool := -(bound : Int) ≤ i ∧ i < bound

/-- The word with a value. -/
def ofInt? (i : Int) : Option Int64 := if fits i then some (Int64.ofInt i) else none

theorem fits_toInt (w : Int64) : fits w.toInt = true := by
  have least := w.le_toInt
  have greatest := w.toInt_lt
  exact decide_eq_true (by unfold bound; omega)

/-- Every word is the word with its value. -/
theorem ofInt?_toInt (w : Int64) : ofInt? w.toInt = some w := by
  simp [ofInt?, fits_toInt]

end QmlIndex.Word
