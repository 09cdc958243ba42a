import QmlIndex.Toml
import QmlIndex.Word

/-! # Strings, numbers and dates of settings files

Strings are read from their opening quote on. Everything else that is no list and no table is one run of
letters, digits and a few marks, so a run is taken whole and must be spelled right as a whole.
-/

namespace QmlIndex.Toml

/-- Characters that may stand in strings and comments as they are. -/
def isPrintable (c : Char) : Bool := c == '\t' || (32 ≤ c.toNat && c.toNat != 127)

def isBlank (c : Char) : Bool := c == ' ' || c == '\t'

def dropBlanks (s : List Char) : List Char := s.dropWhile isBlank

/-- What follows a line end at the beginning of a text. -/
def afterLineEnd? : List Char → Option (List Char)
  | '\n' :: rest => some rest
  | '\r' :: '\n' :: rest => some rest
  | _ => none

/-! ## Strings -/

/-- The value of a digit in a base up to sixteen. -/
def digit? (base : Nat) (c : Char) : Option Nat :=
  let value? :=
    if c.isDigit then some (c.toNat - 48)
    else if 'a' ≤ c && c ≤ 'f' then some (c.toNat - 87)
    else if 'A' ≤ c && c ≤ 'F' then some (c.toNat - 55)
    else none
  value?.filter (· < base)

/-- The value of digits in a base. -/
def digits? (base : Nat) (ds : List Char) : Option Nat :=
  ds.foldlM (fun n c => do return n * base + (← digit? base c)) 0

/-- The character with a code, unless the code is half of a surrogate pair or too large. -/
def charOf? (n : Nat) : Option Char := if n.isValidChar then some (Char.ofNat n) else none

/-- The character that a short escape stands for. -/
def shortEscape? : Char → Option Char
  | 'b' => some (Char.ofNat 8)
  | 't' => some '\t'
  | 'n' => some '\n'
  | 'f' => some (Char.ofNat 12)
  | 'r' => some '\r'
  | '"' => some '"'
  | '\\' => some '\\'
  | _ => none

/-- A text that was read, and what follows it. -/
abbrev Scanned := Option (List Char × List Char)

/-- One more character in front of what is read. -/
def Scanned.push (c : Char) (r : Scanned) : Scanned := r.map fun (s, rest) => (c :: s, rest)

/-- One more character in front, if there is one. -/
def Scanned.push? (c : Option Char) (r : Scanned) : Scanned := c.bind fun c => r.push c

/-- A string of one line with escapes, up to its closing quote. -/
def basicText : List Char → Scanned
  | '"' :: rest => some ([], rest)
  | '\\' :: 'u' :: a :: b :: c :: d :: rest =>
    (basicText rest).push? ((digits? 16 [a, b, c, d]).bind charOf?)
  | '\\' :: 'U' :: a :: b :: c :: d :: e :: f :: g :: h :: rest =>
    (basicText rest).push? ((digits? 16 [a, b, c, d, e, f, g, h]).bind charOf?)
  | '\\' :: e :: rest => (basicText rest).push? (shortEscape? e)
  | c :: rest => if isPrintable c && c ≠ '\\' then (basicText rest).push c else none
  | [] => none

/-- A string of one line without escapes, up to its closing quote. -/
def literalText : List Char → Scanned
  | '\'' :: rest => some ([], rest)
  | c :: rest => if isPrintable c then (literalText rest).push c else none
  | [] => none

/-- Whether only blanks stand before the end of the line. -/
def endsLine (s : List Char) : Bool := (afterLineEnd? (dropBlanks s)).isSome

/-- A string of several lines with escapes, up to its closing quotes. A backslash at the end of a line
takes away everything up to the next visible character; `skipping` says that this is under way. -/
def basicBlock (skipping : Bool) : List Char → Scanned
  | '"' :: '"' :: '"' :: '"' :: '"' :: rest => some (['"', '"'], rest)
  | '"' :: '"' :: '"' :: '"' :: rest => some (['"'], rest)
  | '"' :: '"' :: '"' :: rest => some ([], rest)
  | '\\' :: 'u' :: a :: b :: c :: d :: rest =>
    (basicBlock false rest).push? ((digits? 16 [a, b, c, d]).bind charOf?)
  | '\\' :: 'U' :: a :: b :: c :: d :: e :: f :: g :: h :: rest =>
    (basicBlock false rest).push? ((digits? 16 [a, b, c, d, e, f, g, h]).bind charOf?)
  | '\\' :: e :: rest =>
    if endsLine (e :: rest) then basicBlock true (e :: rest)
    else (basicBlock false rest).push? (shortEscape? e)
  | '\r' :: '\n' :: rest => if skipping then basicBlock true rest else (basicBlock false rest).push '\n'
  | '\n' :: rest => if skipping then basicBlock true rest else (basicBlock false rest).push '\n'
  | c :: rest =>
    if skipping && isBlank c then basicBlock true rest
    else if isPrintable c && c ≠ '\\' then (basicBlock false rest).push c
    else none
  | [] => none

/-- A string of several lines without escapes, up to its closing quotes. -/
def literalBlock : List Char → Scanned
  | '\'' :: '\'' :: '\'' :: '\'' :: '\'' :: rest => some (['\'', '\''], rest)
  | '\'' :: '\'' :: '\'' :: '\'' :: rest => some (['\''], rest)
  | '\'' :: '\'' :: '\'' :: rest => some ([], rest)
  | '\r' :: '\n' :: rest => (literalBlock rest).push '\n'
  | '\n' :: rest => (literalBlock rest).push '\n'
  | c :: rest => if isPrintable c then (literalBlock rest).push c else none
  | [] => none

/-- Drop a line end right after opening quotes. -/
def dropFirstLineEnd (s : List Char) : List Char := (afterLineEnd? s).getD s

/-- A string of any kind, from its opening quote on. -/
def quoted? : List Char → Scanned
  | '"' :: '"' :: '"' :: rest => basicBlock false (dropFirstLineEnd rest)
  | '"' :: rest => basicText rest
  | '\'' :: '\'' :: '\'' :: rest => literalBlock (dropFirstLineEnd rest)
  | '\'' :: rest => literalText rest
  | _ => none

/-! ## Numbers -/

/-- The digits of a number in which single underscores may stand between digits. -/
def ungrouped? (base : Nat) : List Char → Option (List Char)
  | [] => none
  | [d] => if (digit? base d).isSome then some [d] else none
  | d :: '_' :: rest => if (digit? base d).isSome then (ungrouped? base rest).map (d :: ·) else none
  | d :: rest => if (digit? base d).isSome then (ungrouped? base rest).map (d :: ·) else none

/-- Whether a number is written with its sign, and what follows the sign. -/
def splitSign : List Char → Bool × List Char
  | '-' :: rest => (true, rest)
  | '+' :: rest => (false, rest)
  | s => (false, s)

/-- A decimal number has no leading zero. -/
def decimalDigits? (s : List Char) : Option (List Char) :=
  if s.head? = some '0' && s.length > 1 then none else ungrouped? 10 s

/-- An integer, if it fits a signed 64-bit word. -/
def fit? (i : Int) : Option Item := if Word.fits i then some (.integer i) else none

def integer? (run : List Char) : Option Item := do
  match run with
  | '0' :: 'x' :: ds => fit? (← digits? 16 (← ungrouped? 16 ds))
  | '0' :: 'o' :: ds => fit? (← digits? 8 (← ungrouped? 8 ds))
  | '0' :: 'b' :: ds => fit? (← digits? 2 (← ungrouped? 2 ds))
  | _ =>
    let (isNegative, ds) := splitSign run
    let n ← digits? 10 (← decimalDigits? ds)
    fit? (if isNegative then -n else n)

/-- The number `m · 10 ^ scale`, written with a sign, must not round to infinity; only a negative one may. -/
def isFinite (m : Nat) (scale : Int) : Bool :=
  let magnitude := (toString m).length + scale
  if m = 0 || magnitude < 308 then true
  else if magnitude > 310 then false
  else
    let bound := (1 <<< 1024) - (1 <<< 970)
    if scale < 0 then m < bound * Nat.pow 10 scale.natAbs else m * Nat.pow 10 scale.natAbs < bound

/-- A number with a fraction, an exponent or both. -/
def float? (run : List Char) : Option Item := do
  let (isNegative, body) := splitSign run
  let isExponent (c : Char) : Bool := c == 'e' || c == 'E'
  let mantissa := body.takeWhile (!isExponent ·)
  let exponent ← match body.dropWhile (!isExponent ·) with
    | [] => some 0
    | _ :: e => do
      let (isNegative, ds) := splitSign e
      let n ← digits? 10 (← ungrouped? 10 ds)
      some (if isNegative then -(n : Int) else n)
  let whole ← decimalDigits? (mantissa.takeWhile (· != '.'))
  let fraction ← match mantissa.dropWhile (· != '.') with
    | [] => if body.any isExponent then some [] else none
    | _ :: ds => ungrouped? 10 ds
  let m ← digits? 10 (whole ++ fraction)
  if isNegative || isFinite m (exponent - fraction.length) then some .scalar else none

/-- The words for numbers that are not finite. -/
def isSpecial (run : List Char) : Bool :=
  let word := (splitSign run).2
  word = "inf".toList || word = "nan".toList

/-! ## Dates and times -/

/-- A number of two digits up to a bound. -/
def two? (a b : Char) (most : Nat) : Option Nat := (digits? 10 [a, b]).filter (· ≤ most)

/-- The number of days of a month. -/
def daysIn (year month : Nat) : Nat :=
  if month = 2 then
    if year % 4 = 0 && (year % 100 ≠ 0 || year % 400 = 0) then 29 else 28
  else if month = 4 || month = 6 || month = 9 || month = 11 then 30
  else 31

/-- What follows a date. -/
def afterDate? : List Char → Option (List Char)
  | a :: b :: c :: d :: '-' :: e :: f :: '-' :: g :: h :: rest => do
    let year ← digits? 10 [a, b, c, d]
    let month ← two? e f 12
    let day ← two? g h 31
    if 1 ≤ month && 1 ≤ day && day ≤ daysIn year month then some rest else none
  | _ => none

/-- What follows a time of day. -/
def afterTime? : List Char → Option (List Char)
  | a :: b :: ':' :: c :: d :: ':' :: e :: f :: rest => do
    let _ ← two? a b 23
    let _ ← two? c d 59
    let _ ← two? e f 60
    match rest with
    | '.' :: ds => if ds.head?.any Char.isDigit then some (ds.dropWhile Char.isDigit) else none
    | _ => some rest
  | _ => none

/-- Whether a text is a time of day, which may name its offset. -/
def isTimeOffset (s : List Char) : Bool :=
  match afterTime? s with
  | some [] => true
  | some ['Z'] => true
  | some ['z'] => true
  | some [sign, a, b, ':', c, d] =>
    (sign == '+' || sign == '-') && (two? a b 23).isSome && (two? c d 59).isSome
  | _ => false

/-- Whether a run is a time, or a date that may go on with a time. -/
def isMoment (run : List Char) : Bool :=
  afterTime? run == some [] ||
    match afterDate? run with
    | some [] => true
    | some (t :: rest) => (t == 'T' || t == 't') && isTimeOffset rest
    | none => false

/-! ## Runs -/

/-- Characters of the runs that spell numbers, words and dates. -/
def isRunChar (c : Char) : Bool := c.isAlphanum || c == '_' || c == '+' || c == '-' || c == '.' || c == ':'

/-- What a run spells. -/
def run? (run : List Char) : Option Item :=
  if run = "true".toList then some (.boolean true)
  else if run = "false".toList then some (.boolean false)
  else if isSpecial run || isMoment run then some .scalar
  else (float? run).orElse fun _ => integer? run

/-- A value that is one run; a date may go on with a time after a blank. -/
def runValue? (s : List Char) : Option (Item × List Char) := do
  let run := s.takeWhile isRunChar
  let rest := s.dropWhile isRunChar
  let item ← run? run
  match rest with
  | ' ' :: more =>
    if afterDate? run = some [] && isTimeOffset (more.takeWhile isRunChar) then
      return (item, more.dropWhile isRunChar)
    else return (item, rest)
  | _ => return (item, rest)

end QmlIndex.Toml
