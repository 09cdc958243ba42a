import QmlIndex.Json

/-! # Writing JSON

Two forms: the compact form without any white space, which is stored, and the indented form, which is
shown. In both a string escapes quotes, backslashes and control characters and nothing else.
-/

namespace QmlIndex.Json

/-- The lower-case hexadecimal digit of a number below sixteen. -/
def hexDigit (n : Nat) : Char := if n < 10 then Char.ofNat (48 + n) else Char.ofNat (87 + n)

/-- How one character stands inside a string. -/
def escape (c : Char) : List Char :=
  if c = '"' then ['\\', '"']
  else if c = '\\' then ['\\', '\\']
  else if c = '\n' then ['\\', 'n']
  else if c = '\r' then ['\\', 'r']
  else if c = '\t' then ['\\', 't']
  else if c.toNat = 8 then ['\\', 'b']
  else if c.toNat = 12 then ['\\', 'f']
  else if c.toNat < 32 then
    ['\\', 'u', '0', '0', hexDigit (c.toNat / 16), hexDigit (c.toNat % 16)]
  else [c]

/-- A string with its quotes. -/
def quote (s : String) : List Char := '"' :: s.toList.flatMap escape ++ ['"']

/-- The decimal digits of an integer. -/
def intChars (i : Int) : List Char :=
  if i < 0 then '-' :: Nat.toDigits 10 i.natAbs else Nat.toDigits 10 i.natAbs

mutual

/-- The compact form. Values that denote nothing are written as `null`. -/
def compact : Json → List Char
  | null => "null".toList
  | bool true => "true".toList
  | bool false => "false".toList
  | int i => intChars i
  | real => "null".toList
  | str s => quote s
  | broken => "null".toList
  | arr items => '[' :: compactItems items ++ [']']
  | obj fields => '\x7b' :: compactFields fields ++ ['\x7d']

def compactItems : List Json → List Char
  | [] => []
  | [j] => compact j
  | j :: rest => compact j ++ ',' :: compactItems rest

def compactFields : List (String × Json) → List Char
  | [] => []
  | [(k, j)] => quote k ++ ':' :: compact j
  | (k, j) :: rest => quote k ++ ':' :: compact j ++ ',' :: compactFields rest

end

/-- The compact form as a string. -/
def render (j : Json) : String := String.ofList (compact j)

/-- A new line, indented by two blanks a level. -/
def newLine (level : Nat) : List Char := '\n' :: List.replicate (2 * level) ' '

mutual

/-- The indented form, for a value whose surroundings are indented by `level`. -/
def indented (level : Nat) : Json → List Char
  | arr (j :: rest) => '[' :: indentedItems (level + 1) (j :: rest) ++ newLine level ++ [']']
  | obj (f :: rest) => '\x7b' :: indentedFields (level + 1) (f :: rest) ++ newLine level ++ ['\x7d']
  | j => compact j

def indentedItems (level : Nat) : List Json → List Char
  | [] => []
  | [j] => newLine level ++ indented level j
  | j :: rest => newLine level ++ indented level j ++ ',' :: indentedItems level rest

def indentedFields (level : Nat) : List (String × Json) → List Char
  | [] => []
  | [(k, j)] => newLine level ++ quote k ++ ':' :: ' ' :: indented level j
  | (k, j) :: rest =>
    newLine level ++ quote k ++ ':' :: ' ' :: indented level j ++ ',' :: indentedFields level rest

end

/-- The indented form as a string. -/
def pretty (j : Json) : String := String.ofList (indented 0 j)

end QmlIndex.Json
