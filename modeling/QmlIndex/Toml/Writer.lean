import QmlIndex.Toml.Scalar

/-! # Writing settings files

A string is written in the plainest of six forms that can hold it. Only strings that need escapes are
escaped.
-/

namespace QmlIndex.Toml

/-- The length of the longest run of a character. -/
def longestRun (q : Char) (s : List Char) : Nat :=
  (s.foldl (fun (best, now) c =>
    let now := if c = q then now + 1 else 0
    (max best now, now)) (0, 0)).1

/-- Characters that cannot be written as they are anywhere. -/
def isControl (c : Char) : Bool := (c.toNat < 32 || c.toNat = 127) && c ≠ '\t' && c ≠ '\n'

/-- A hexadecimal digit, in capitals. -/
def hexDigit (n : Nat) : Char := if n < 10 then Char.ofNat (48 + n) else Char.ofNat (55 + n)

/-- The escape of a character that needs one. -/
def escape? (keepLines : Bool) (c : Char) : Option (List Char) :=
  if c = Char.ofNat 8 then some ['\\', 'b']
  else if c = '\t' then some ['\\', 't']
  else if c = '\n' then if keepLines then none else some ['\\', 'n']
  else if c = Char.ofNat 12 then some ['\\', 'f']
  else if c = '\r' then some ['\\', 'r']
  else if c = '\\' then some ['\\', '\\']
  else if isControl c then
    some ['\\', 'u', '0', '0', hexDigit (c.toNat / 16), hexDigit (c.toNat % 16)]
  else none

/-- Write characters with escapes. Of a run of quotes every one is escaped that would be one more than
`most`; `seen` quotes stand right before. -/
def escaped (keepLines : Bool) (most : Nat) (seen : Nat) : List Char → List Char
  | [] => []
  | c :: rest =>
    if c = '"' then
      if seen < most then '"' :: escaped keepLines most (seen + 1) rest
      else '\\' :: '"' :: escaped keepLines most 0 rest
    else (escape? keepLines c).getD [c] ++ escaped keepLines most 0 rest

/-- A string of one line with escapes. -/
def basic (s : List Char) : List Char := '"' :: escaped false 0 0 s ++ ['"']

/-- A string of one line without escapes. -/
def literal (s : List Char) : List Char := '\'' :: s ++ ['\'']

/-- What goes between opening quotes and a string that has several lines. -/
def firstLineEnd (s : List Char) : List Char := if s.contains '\n' then ['\n'] else []

/-- A string of several lines with escapes. -/
def basicLines (s : List Char) : List Char :=
  "\"\"\"".toList ++ firstLineEnd s ++ escaped true 2 0 s ++ "\"\"\"".toList

/-- A string of several lines without escapes. -/
def literalLines (s : List Char) : List Char :=
  "'''".toList ++ firstLineEnd s ++ s ++ "'''".toList

/-- Write a string. -/
def string (text : String) : List Char :=
  let s := text.toList
  let hasControl := s.any isControl
  let hasBackslash := s.contains '\\'
  let hasLines := s.contains '\n'
  let doubles := longestRun '"' s
  let singles := longestRun '\'' s
  if !hasControl && !hasBackslash && doubles = 0 && !hasLines then basic s
  else if !hasControl && singles = 0 && !hasLines then literal s
  else if !hasControl && !hasBackslash && doubles ≤ 2 then basicLines s
  else if !hasControl && singles ≤ 2 then literalLines s
  else if hasLines then basicLines s
  else basic s

/-- Write a list of strings: on one line if there is at most one, and else each on a line of its own. -/
def strings : List String → List Char
  | [] => ['[', ']']
  | [s] => '[' :: string s ++ [']']
  | l => "[\n".toList ++ (l.flatMap fun s => "    ".toList ++ string s ++ ",\n".toList) ++ [']']

/-- Write a key with a value on a line. -/
def line (key : String) (value : List Char) : List Char :=
  key.toList ++ " = ".toList ++ value ++ ['\n']

end QmlIndex.Toml
