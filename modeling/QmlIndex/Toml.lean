/-! # Settings files

The value of a TOML document. A document is a table; pairs and headers are entered into it one after the
other, and most of the rules say when that must fail: no key is given twice, a table is opened by at most
one header, and a table made by dotted keys is only extended by dotted keys.
-/

namespace QmlIndex.Toml

/-- How a table came to be. -/
inductive Origin where
  /-- Opened by a header of its own. -/
  | header
  /-- On the way to a table that a header opened. -/
  | passed
  /-- On the way to a dotted key. -/
  | dotted
  deriving DecidableEq, Repr, Inhabited

/-- What a key stands for. -/
inductive Item where
  | string (s : String)
  | integer (i : Int)
  | boolean (b : Bool)
  /-- A float, or a date or time. No setting has such a value. -/
  | scalar
  | array (items : List Item)
  /-- A table written between braces; it cannot be extended. -/
  | inline (fields : List (String × Item))
  | table (origin : Origin) (fields : List (String × Item))
  /-- Tables that were opened under one key by double headers. -/
  | tables (rows : List (List (String × Item)))
  deriving Repr, Inhabited

/-- The fields of a table in the order in which they were entered. -/
abbrev Fields := List (String × Item)

namespace Fields

def get? (t : Fields) (key : String) : Option Item := (t.find? fun f => f.1 == key).map Prod.snd

/-- Put an item under a key, in place of what is there. -/
def set (t : Fields) (key : String) (item : Item) : Fields :=
  match t with
  | [] => [(key, item)]
  | (k, old) :: rest => if k = key then (key, item) :: rest else (k, old) :: set rest key item

/-- Change the table at a path, making the tables on the way that are not there. `origin` is how the
table itself came to be. -/
def descend (isDotted : Bool) (change : Origin → Fields → Option Fields) (origin : Origin) (t : Fields) :
    List String → Option Fields
  | [] => change origin t
  | key :: path =>
    match t.get? key with
    | none => do
      let made := if isDotted then Origin.dotted else Origin.passed
      return t.set key (.table made (← descend isDotted change made [] path))
    | some (.table inner fields) =>
      if isDotted && inner = .header then none
      else do return t.set key (.table inner (← descend isDotted change inner fields path))
    | some (.tables rows) => do
      let last ← rows.getLast?
      return t.set key (.tables (rows.dropLast ++ [← descend isDotted change .header last path]))
    | some _ => none

/-- Enter a pair whose key is written with dots. -/
def enter (t : Fields) (path : List String) (key : String) (item : Item) : Option Fields :=
  descend true (fun origin fields =>
    if (origin == .dotted) == path.isEmpty then none
    else if (fields.get? key).isSome then none
    else some (fields.set key item)) .header t path

/-- Open the table of a header. -/
def openTable (t : Fields) (path : List String) (key : String) : Option Fields :=
  descend false (fun _ fields =>
    match fields.get? key with
    | none => some (fields.set key (.table .header []))
    | some (.table .passed inner) => some (fields.set key (.table .header inner))
    | some _ => none) .header t path

/-- Open one more table of a double header. -/
def openRow (t : Fields) (path : List String) (key : String) : Option Fields :=
  descend false (fun _ fields =>
    match fields.get? key with
    | none => some (fields.set key (.tables [[]]))
    | some (.tables rows) => some (fields.set key (.tables (rows ++ [[]])))
    | some _ => none) .header t path

end Fields

end QmlIndex.Toml
