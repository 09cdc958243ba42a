import QmlIndex.Word

/-! # JSON values

Records keep their fields in the order in which they were written. Two values exist only to be refused
or ignored: a number that is no integer, and a value that is well formed but denotes nothing because a
string in it escapes half of a surrogate pair.
-/

namespace QmlIndex

inductive Json where
  | null
  | bool (b : Bool)
  | int (i : Int)
  /-- A number with a fraction or an exponent, or `-0`. -/
  | real
  | str (s : String)
  /-- A string with a lone surrogate, or a record with such a string for a key. -/
  | broken
  | arr (items : List Json)
  | obj (fields : List (String × Json))
  deriving Repr, Inhabited

namespace Json

/-! ## Reading values apart -/

def str? : Json → Option String
  | str s => some s
  | _ => none

def bool? : Json → Option Bool
  | bool b => some b
  | _ => none

def int? : Json → Option Int
  | int i => some i
  | _ => none

def nat? : Json → Option Nat
  | int (.ofNat n) => some n
  | _ => none

/-- An integer from zero up to, but not including, `bound`. -/
def natBelow? (bound : Nat) (j : Json) : Option Nat := do
  let i ← j.int?
  if 0 ≤ i ∧ i < bound then some i.toNat else none

/-- An integer that fits a signed 64-bit word. -/
def int64? (j : Json) : Option Int64 := j.int? >>= Word.ofInt?

/-- A list, each item read in turn. -/
def list? {α : Type} (read : Json → Option α) : Json → Option (List α)
  | arr items => items.mapM read
  | _ => none

/-- A value that may be `null`. -/
def nullable? {α : Type} (read : Json → Option α) : Json → Option (Option α)
  | null => some none
  | j => (read j).map some

/-- The value of a named field. -/
def lookup (name : String) (fields : List (String × Json)) : Option Json :=
  (fields.find? fun f => f.1 == name).map Prod.snd

/-- The fields of a record in the order of `names`, each `none` if it is not written. A known field must
not be written twice; other fields do not matter. A record may also be written as the list of all its
fields. -/
def record? (names : List String) : Json → Option (List (Option Json))
  | arr items => if items.length = names.length then some (items.map some) else none
  | obj fields =>
    if names.all fun n => (fields.filter fun f => f.1 == n).length ≤ 1 then
      some (names.map (lookup · fields))
    else none
  | _ => none

/-- A field that must be written. -/
def required {α : Type} (read : Json → Option α) : Option Json → Option α
  | some j => read j
  | none => none

/-- A field that may be left out or `null`. -/
def optional {α : Type} (read : Json → Option α) : Option Json → Option (Option α)
  | some j => nullable? read j
  | none => some none

/-- One of a set of names. It is written as a string, or as a record whose one field has that name and
the value `null`. -/
def variant? {α : Type} (read : String → Option α) : Json → Option α
  | str s => read s
  | obj [(s, null)] => read s
  | _ => none

/-- A value that may be absent. -/
def ofOption {α : Type} (write : α → Json) : Option α → Json
  | some a => write a
  | none => null

end Json

end QmlIndex
