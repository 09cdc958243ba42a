import QmlIndex.Text.Blank
import QmlIndex.Text.Fields

/-! # Versions

`MAJOR` or `MAJOR.MINOR`, both of them unsigned 32-bit numbers in decimal. Whatever is no version is
treated leniently: it is compatible with everything and sorts below every version.
-/

namespace QmlIndex

open Text

structure Version where
  major : Nat
  minor : Nat
  deriving DecidableEq, Repr, Inhabited

namespace Version

instance : Ord Version := ⟨fun a b => (compare a.major b.major).then (compare a.minor b.minor)⟩

/-- A decimal number that fits 32 bits. -/
def number? (s : List Char) : Option Nat :=
  if s.isEmpty || !s.all Char.isDigit then none
  else
    let n := s.foldl (fun n d => n * 10 + (d.toNat - 48)) 0
    if n < UInt32.size then some n else none

/-- Read a version; white space around it does not matter, and a missing minor number is zero. -/
def parse? (s : String) : Option Version := do
  match fields '.' (trim s.toList) with
  | [major] => return ⟨← number? major, 0⟩
  | [major, minor] => return ⟨← number? major, ← number? minor⟩
  | _ => none

/-- Whether something declared at one version is there for a request at another: the major numbers agree
and the declared minor number is not greater. -/
def satisfies (declared requested : String) : Bool :=
  match parse? declared, parse? requested with
  | some d, some r => d.major == r.major && d.minor ≤ r.minor
  | _, _ => true

/-- Order of optional versions; absent and unreadable ones come first. -/
def compareOptional (a b : Option String) : Ordering := compare (a.bind parse?) (b.bind parse?)

end Version

end QmlIndex
