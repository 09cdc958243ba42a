import QmlIndex.Json

/-! # Reading JSON

The text is cut into lexemes, and the lexemes drive a machine whose stack holds the lists and records
that are open. Both steps go through their input once, so depth is no limit.
-/

namespace QmlIndex.Json

/-! ## Lexemes -/

inductive Lexeme where
  | openList
  | closeList
  | openRecord
  | closeRecord
  | comma
  | colon
  /-- A string; `none` if it escapes half of a surrogate pair. -/
  | text (s : Option String)
  /-- A number, `true`, `false` or `null`. -/
  | scalar (j : Json)
  deriving Repr, Inhabited

/-- The value of a hexadecimal digit. -/
def hexValue? (c : Char) : Option Nat :=
  if c.isDigit then some (c.toNat - 48)
  else if 'a' ≤ c && c ≤ 'f' then some (c.toNat - 87)
  else if 'A' ≤ c && c ≤ 'F' then some (c.toNat - 55)
  else none

/-- The four hexadecimal digits of an escape. -/
def hex4? (a b c d : Char) : Option Nat := do
  return (((← hexValue? a) * 16 + (← hexValue? b)) * 16 + (← hexValue? c)) * 16 + (← hexValue? d)

/-- The character that a short escape stands for. -/
def shortEscape? : Char → Option Char
  | '"' => some '"'
  | '\\' => some '\\'
  | '/' => some '/'
  | 'b' => some (Char.ofNat 8)
  | 'f' => some (Char.ofNat 12)
  | 'n' => some '\n'
  | 'r' => some '\r'
  | 't' => some '\t'
  | _ => none

/-- One unit of a string's inside: a character, or one half of a surrogate pair. -/
inductive Unit16 where
  | char (c : Char)
  | high (n : Nat)
  | low (n : Nat)
  deriving DecidableEq, Repr

/-- The unit of a code from an escape. -/
def unitOf (n : Nat) : Unit16 :=
  if 0xD800 ≤ n && n < 0xDC00 then .high n
  else if 0xDC00 ≤ n && n < 0xE000 then .low n
  else .char (Char.ofNat n)

/-- The units of a string up to its closing quote, and the rest of the text. -/
def units? : List Char → Option (List Unit16 × List Char)
  | '"' :: rest => some ([], rest)
  | '\\' :: 'u' :: a :: b :: c :: d :: rest =>
    match hex4? a b c d with
    | some n => (units? rest).map fun (us, after) => (unitOf n :: us, after)
    | none => none
  | '\\' :: e :: rest =>
    match shortEscape? e with
    | some c => (units? rest).map fun (us, after) => (.char c :: us, after)
    | none => none
  | c :: rest =>
    if c.toNat < 32 || c = '\\' then none
    else (units? rest).map fun (us, after) => (.char c :: us, after)
  | [] => none

/-- The characters of a list of units; `none` if a half of a pair stands alone. -/
def joinUnits : List Unit16 → Option (List Char)
  | [] => some []
  | .char c :: rest => (joinUnits rest).map (c :: ·)
  | .high h :: .low l :: rest =>
    (joinUnits rest).map (Char.ofNat (0x10000 + (h - 0xD800) * 0x400 + (l - 0xDC00)) :: ·)
  | .high _ :: _ => none
  | .low _ :: _ => none

/-- Whether a character can be part of a number. -/
def isNumberChar (c : Char) : Bool := c.isDigit || c == '-' || c == '+' || c == '.' || c == 'e' || c == 'E'

/-- The value of a run of decimal digits. -/
def digitsValue (ds : List Char) : Nat := ds.foldl (fun n d => n * 10 + (d.toNat - 48)) 0

/-- Whether what follows the integer part is a fraction and an exponent, each of them optional. -/
def isFractionExponent (s : List Char) : Bool :=
  let afterFraction : Option (List Char) :=
    match s with
    | '.' :: d :: rest => if d.isDigit then some (rest.dropWhile Char.isDigit) else none
    | '.' :: [] => none
    | _ => some s
  match afterFraction with
  | none => false
  | some [] => true
  | some (e :: rest) =>
    (e == 'e' || e == 'E') &&
      (let digits := match rest with
        | '+' :: more => more
        | '-' :: more => more
        | _ => rest
      !digits.isEmpty && digits.all Char.isDigit)

/-- The number that a run of characters spells. -/
def number? (s : List Char) : Option Json :=
  let (negative, body) := match s with
    | '-' :: rest => (true, rest)
    | _ => (false, s)
  let digits := body.takeWhile Char.isDigit
  let rest := body.dropWhile Char.isDigit
  if digits.isEmpty || (digits.length > 1 && digits.head? == some '0') then none
  else if rest.isEmpty then
    let n := digitsValue digits
    if negative then (if n = 0 then some .real else some (.int (-(n : Int)))) else some (.int n)
  else if isFractionExponent rest then some .real
  else none

/-- The word that a run of letters spells. -/
def word? (s : List Char) : Option Json :=
  if s = "true".toList then some (.bool true)
  else if s = "false".toList then some (.bool false)
  else if s = "null".toList then some .null
  else none

theorem units?_length {s : List Char} {us : List Unit16} {after : List Char}
    (h : units? s = some (us, after)) : after.length < s.length := by
  fun_induction units? s generalizing us after <;> grind [Option.map_eq_some_iff]

/-- The first lexeme of `c :: rest`, and what follows it. -/
def nextLexeme (c : Char) (rest : List Char) : Option (Lexeme × List Char) :=
  match c with
  | '[' => some (.openList, rest)
  | ']' => some (.closeList, rest)
  | '\x7b' => some (.openRecord, rest)
  | '\x7d' => some (.closeRecord, rest)
  | ',' => some (.comma, rest)
  | ':' => some (.colon, rest)
  | '"' => (units? rest).map fun (us, after) => (.text ((joinUnits us).map String.ofList), after)
  | _ =>
    if isNumberChar c && !c.isAlpha then
      (number? (c :: rest.takeWhile isNumberChar)).map fun j => (.scalar j, rest.dropWhile isNumberChar)
    else
      (word? (c :: rest.takeWhile Char.isAlpha)).map fun j => (.scalar j, rest.dropWhile Char.isAlpha)

theorem length_dropWhile_le {α : Type} (p : α → Bool) (l : List α) : (l.dropWhile p).length ≤ l.length :=
  (List.dropWhile_sublist p).length_le

theorem nextLexeme_length {c : Char} {rest after : List Char} {l : Lexeme}
    (h : nextLexeme c rest = some (l, after)) : after.length < (c :: rest).length := by
  unfold nextLexeme at h
  have numbers := length_dropWhile_le isNumberChar rest
  have words := length_dropWhile_le Char.isAlpha rest
  split at h <;> try (simp_all; done)
  · simp only [Option.map_eq_some_iff, Prod.mk.injEq, Prod.exists] at h
    obtain ⟨us, a, found, _, rfl⟩ := h
    have := units?_length found
    simp
    omega
  · split at h
    · simp only [Option.map_eq_some_iff, Prod.mk.injEq] at h
      obtain ⟨j, _, _, rfl⟩ := h
      simp
      omega
    · simp only [Option.map_eq_some_iff, Prod.mk.injEq] at h
      obtain ⟨j, _, _, rfl⟩ := h
      simp
      omega

/-- The blanks between lexemes. -/
def isSpace (c : Char) : Bool := c == ' ' || c == '\n' || c == '\t' || c == '\r'

/-- Cut a text into lexemes. -/
def lexemes : List Char → Option (List Lexeme)
  | [] => some []
  | c :: rest =>
    if isSpace c then lexemes rest
    else
      match _h : nextLexeme c rest with
      | some (l, after) => (lexemes after).map (l :: ·)
      | none => none
termination_by s => s.length
decreasing_by
  · simp
  · exact nextLexeme_length _h

/-! ## The machine -/

/-- A list or record that is open. Items and fields are kept last first. -/
inductive Frame where
  | list (items : List Json)
  /-- `key` is the name of the field being read; a record with a broken key denotes nothing. -/
  | record (fields : List (String × Json)) (key : Option String) (whole : Bool)
  deriving Repr, Inhabited

/-- What may come next. -/
inductive Expect where
  | value
  /-- A value, or the end of a list that is still empty. -/
  | firstItem
  /-- A key, or the end of a record that is still empty. -/
  | firstKey
  | key
  | colon
  /-- A comma, or the end of the innermost list or record. -/
  | more
  /-- Nothing: the value is complete. -/
  | nothing (result : Json)
  deriving Repr, Inhabited

/-- The machine: what may come next, and what is open. -/
structure Machine where
  expect : Expect
  stack : List Frame
  deriving Repr, Inhabited

namespace Machine

/-- A value is complete: it goes into what is open, or is the result. -/
def finish (j : Json) : List Frame → Machine
  | [] => ⟨.nothing j, []⟩
  | .list items :: rest => ⟨.more, .list (j :: items) :: rest⟩
  | .record fields (some k) whole :: rest => ⟨.more, .record ((k, j) :: fields) none whole :: rest⟩
  | .record fields none _ :: rest => ⟨.more, .record fields none false :: rest⟩

/-- Close the innermost list. -/
def closeList : List Frame → Option Machine
  | .list items :: rest => some (finish (.arr items.reverse) rest)
  | _ => none

/-- Close the innermost record. -/
def closeRecord : List Frame → Option Machine
  | .record fields _ whole :: rest => some (finish (if whole then .obj fields.reverse else .broken) rest)
  | _ => none

/-- A value starts. -/
def start (stack : List Frame) : Lexeme → Option Machine
  | .openList => some ⟨.firstItem, .list [] :: stack⟩
  | .openRecord => some ⟨.firstKey, .record [] none true :: stack⟩
  | .text (some s) => some (finish (.str s) stack)
  | .text none => some (finish .broken stack)
  | .scalar j => some (finish j stack)
  | _ => none

/-- A key is read. -/
def readKey (stack : List Frame) : Lexeme → Option Machine
  | .text key =>
    match stack with
    | .record fields _ whole :: rest => some ⟨.colon, .record fields key (whole && key.isSome) :: rest⟩
    | _ => none
  | _ => none

/-- One lexeme. -/
def step (m : Machine) (l : Lexeme) : Option Machine :=
  match m.expect, l with
  | .firstItem, .closeList => closeList m.stack
  | .firstItem, l => start m.stack l
  | .value, l => start m.stack l
  | .firstKey, .closeRecord => closeRecord m.stack
  | .firstKey, l => readKey m.stack l
  | .key, l => readKey m.stack l
  | .colon, .colon => some ⟨.value, m.stack⟩
  | .more, .closeList => closeList m.stack
  | .more, .closeRecord => closeRecord m.stack
  | .more, .comma =>
    match m.stack with
    | .list _ :: _ => some ⟨.value, m.stack⟩
    | .record .. :: _ => some ⟨.key, m.stack⟩
    | [] => none
  | _, _ => none

/-- The value that a list of lexemes spells. -/
def run (m : Machine) : List Lexeme → Option Json
  | [] =>
    match m.expect with
    | .nothing j => some j
    | _ => none
  | l :: rest =>
    match m.step l with
    | some m => m.run rest
    | none => none

end Machine

/-- Read a text that holds exactly one value. -/
def parse (s : String) : Option Json := do
  Machine.run ⟨.value, []⟩ (← lexemes s.toList)

end QmlIndex.Json
