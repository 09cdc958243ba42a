/-! # Sets of characters given by ranges of code points

The character classes below are data of the Unicode standard. Each is a table of closed ranges, and
membership is the obvious test.
-/

namespace QmlIndex.Text

/-- Whether `c` lies in one of the closed ranges of `table`. -/
def inRanges (table : List (Nat × Nat)) (c : Char) : Bool :=
  table.any fun range => range.1 ≤ c.toNat && c.toNat ≤ range.2

end QmlIndex.Text
