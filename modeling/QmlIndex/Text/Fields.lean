/-! # Cutting text at a character -/

namespace QmlIndex.Text

/-- The fields between the occurrences of `sep`; there is always at least one. -/
def fields (sep : Char) : List Char → List (List Char)
  | [] => [[]]
  | c :: rest =>
    match fields sep rest with
    | [] => [[c]]
    | field :: more => if c = sep then [] :: field :: more else (c :: field) :: more

/-- The text before and after the first `sep`. -/
def cutFirst (sep : Char) : List Char → Option (List Char × List Char)
  | [] => none
  | c :: rest =>
    if c = sep then some ([], rest)
    else (cutFirst sep rest).map fun (before, after) => (c :: before, after)

/-- The text after the last `sep`. -/
def afterLast (sep : Char) (s : List Char) : Option (List Char) :=
  if s.contains sep then some (s.reverse.takeWhile (· != sep)).reverse else none

/-- What follows `start` at the beginning of a text. -/
def dropStart? (start : List Char) (s : List Char) : Option (List Char) :=
  if start.isPrefixOf s then some (s.drop start.length) else none

/-- The lines of a text. A line ends at a line feed, and a carriage return before it belongs to the line
end; the last line needs no end. -/
def lines (s : List Char) : List (List Char) :=
  let all := fields '\n' s
  let ended := all.dropLast.map fun line =>
    if line.getLast? = some '\r' then line.dropLast else line
  match all.getLast? with
  | some [] => ended
  | some last => ended ++ [last]
  | none => ended

end QmlIndex.Text
