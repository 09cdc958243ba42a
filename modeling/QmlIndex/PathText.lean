import QmlIndex.Path

/-! # Paths as they are written

Two spellings of one path are one `Path`, but patterns are matched against the spelling, and messages show
it. A spelling is handled as the list of its fields between separators; empty fields and `.` at either end
never count.
-/

namespace QmlIndex.PathText

open Text

/-- Go on from one spelling with another; an absolute one starts afresh. -/
def join (base next : String) : String :=
  if next.toList.head? = some '/' then next
  else if base.isEmpty || base.toList.getLast? = some '/' then base ++ next
  else base ++ "/" ++ next

/-- The absolute spelling of a path seen from a directory. Repeated separators and `.` are dropped; two
separators in front and one at the end are kept. -/
def absolute (cwd path : String) : String :=
  let s := path.toList
  let body := "/".intercalate ((Path.ofChars s).parts.filterMap fun
    | .root => none
    | .current => none
    | part => some part.text)
  let base :=
    if s.head? ≠ some '/' then if body.isEmpty then cwd else join cwd body
    else if "//".toList.isPrefixOf s && !"///".toList.isPrefixOf s then "//" ++ body
    else "/" ++ body
  if s.getLast? = some '/' then join base "" else base

/-- Whether a field between separators stands for nothing. -/
def isIdle (field : List Char) : Bool := field.isEmpty || field == ['.']

/-- Drop idle fields at the end. -/
def trimRight (fs : List (List Char)) : List (List Char) := (fs.reverse.dropWhile isIdle).reverse

/-- Drop idle fields at both ends. -/
def trim (fs : List (List Char)) : List (List Char) := trimRight (fs.dropWhile isIdle)

/-- Take the parts of a directory off the front of a spelling. -/
def dropParts : List Part → List (List Char) → Option (List (List Char))
  | [], fs => some fs
  | _ :: _, [] => none
  | part :: parts, f :: fs =>
    if isIdle f then dropParts (part :: parts) fs
    else if f = part.text.toList then dropParts parts fs
    else none

/-- The fields of a spelling below an absolute directory. -/
def below? (root : Path) (text : String) : Option (List (List Char)) :=
  if text.toList.head? = some '/' then
    (dropParts root.parts.tail (fields '/' text.toList)).map trim
  else none

/-- The spelling of the directory that a spelling lies in. -/
def parent? (fs : List (List Char)) : Option (List (List Char)) :=
  if fs.isEmpty then none else some (trimRight fs.dropLast)

theorem trimRight_length_le (fs : List (List Char)) : (trimRight fs).length ≤ fs.length := by
  have shorter := (List.dropWhile_sublist (l := fs.reverse) isIdle).length_le
  simpa [trimRight] using shorter

theorem parent?_length {fs dir : List (List Char)} (h : parent? fs = some dir) : dir.length < fs.length := by
  cases fs with
  | nil => simp [parent?] at h
  | cons f rest =>
    simp only [parent?, List.isEmpty_cons, Bool.false_eq_true, if_false, Option.some.injEq] at h
    have shorter := trimRight_length_le (f :: rest).dropLast
    rw [h] at shorter
    simp at shorter ⊢
    omega

/-- Put fields together again. -/
def unfields : List (List Char) → List Char
  | [] => []
  | [f] => f
  | f :: fs => f ++ '/' :: unfields fs

end QmlIndex.PathText
