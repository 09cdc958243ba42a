import QmlIndex.Text.Blank
import QmlIndex.Text.Fields

/-! # Ignore rules

One line of an ignore file is one rule. A rule without a separator holds at any depth, a rule that ends in
a separator holds for directories only, and a rule that starts with `!` takes earlier rules back. Rules
are matched byte by byte: `?` and sets stand for one byte.
-/

namespace QmlIndex.Ignore

open Text

/-- One part of a rule's pattern. -/
inductive Part where
  | literal (c : Char)
  /-- `?` -/
  | any
  /-- `*` -/
  | run
  /-- A leading `**` with the separator after it. -/
  | anyDirsBefore
  /-- A closing `/**`. -/
  | anyPathAfter
  /-- `/**/` between components. -/
  | anyDirsBetween
  /-- `[...]`, as closed ranges of characters. -/
  | set (negated : Bool) (ranges : List (Char × Char))
  /-- `{...,...}` -/
  | oneOf (branches : List (List Part))
  deriving Repr, Inhabited

/-! ## Reading -/

/-- Add a character to a set being read: the end of a range, or a character of its own. Ranges are kept
last first; a range must not run backwards. -/
def addToSet (ranges : List (Char × Char)) (inRange : Bool) (c : Char) : Option (List (Char × Char)) :=
  if inRange then
    match ranges with
    | (lo, _) :: rest => if c < lo then none else some ((lo, c) :: rest)
    | [] => none
  else some ((c, c) :: ranges)

/-- How the reading of a set ends. -/
inductive SetReading where
  | closed (ranges : List (Char × Char)) (rest : List Char)
  /-- There is no closing bracket. -/
  | unclosed
  /-- A range runs backwards. -/
  | backwards
  deriving Repr, Inhabited

/-- Read a set up to its closing bracket. -/
def readSet : List Char → Bool → Bool → List (Char × Char) → SetReading
  | [], _, _, _ => .unclosed
  | ']' :: rest, first, inRange, ranges =>
    if first then readSet rest false inRange ((']', ']') :: ranges)
    else .closed (if inRange then ('-', '-') :: ranges else ranges).reverse rest
  | '-' :: rest, first, inRange, ranges =>
    if first then readSet rest false inRange (('-', '-') :: ranges)
    else if inRange then
      match addToSet ranges true '-' with
      | some ranges => readSet rest false false ranges
      | none => .backwards
    else readSet rest false true ranges
  | c :: rest, _, inRange, ranges =>
    match addToSet ranges inRange c with
    | some ranges => readSet rest false false ranges
    | none => .backwards

/-- The set after an opening bracket. -/
def readSetStart (s : List Char) : Bool × SetReading :=
  match s with
  | '!' :: rest => (true, readSet rest true false [])
  | '^' :: rest => (true, readSet rest true false [])
  | _ => (false, readSet s true false [])

theorem readSet_length {s rest : List Char} {first inRange : Bool} {ranges out : List (Char × Char)}
    (h : readSet s first inRange ranges = .closed out rest) : rest.length < s.length := by
  fun_induction readSet s first inRange ranges <;> grind

theorem readSetStart_length {s rest : List Char} {negated : Bool} {out : List (Char × Char)}
    (h : readSetStart s = (negated, .closed out rest)) : rest.length < s.length := by
  unfold readSetStart at h
  split at h <;> simp only [Prod.mk.injEq] at h <;> have := readSet_length h.2 <;> grind

/-- The alternatives that are open, innermost first: the finished branches, and the parts before the
brace, both last first. -/
structure OpenBrace where
  branches : List (List Part)
  before : List Part
  deriving Repr, Inhabited

/-- The parts read so far, last first, inside the braces that are open. -/
structure Reading where
  parts : List Part := []
  braces : List OpenBrace := []
  /-- A bracket without a closing one was found, so brackets are ordinary from here on. -/
  literalBrackets : Bool := false
  deriving Repr, Inhabited

namespace Reading

def push (r : Reading) (p : Part) : Reading := { r with parts := p :: r.parts }

/-- Two stars that are no component of their own are two runs. -/
def pushRuns (r : Reading) : Reading := (r.push .run).push .run

/-- In place of the separator before it, the parts for a component of two stars. -/
def pushDirs (r : Reading) (isLast : Bool) : Reading :=
  match r.parts with
  | .anyDirsBefore :: _ => r
  | .anyPathAfter :: _ => r
  | _ :: rest => { r with parts := (if isLast then .anyPathAfter else .anyDirsBetween) :: rest }
  | [] => r

end Reading

/-- Read two stars; `rest` follows them and `previous` stands before them. The answer says whether a
separator of `rest` was taken too. -/
def readStars (r : Reading) (previous : Option Char) (rest : List Char) : Reading × Bool :=
  if r.parts.isEmpty then
    match rest with
    | [] => (r.push .anyDirsBefore, false)
    | '/' :: _ => (r.push .anyDirsBefore, true)
    | _ => (r.pushRuns, false)
  else if previous ≠ some '/' then (r.pushRuns, false)
  else
    match rest with
    | [] => (r.pushDirs true, false)
    | '/' :: _ => (r.pushDirs false, true)
    | c :: _ =>
      if !r.braces.isEmpty && (c == ',' || c == '\x7d') then (r.pushDirs true, false)
      else (r.pushRuns, false)

/-- Read the rest of a pattern; `none` if it is not well formed. -/
def readParts (r : Reading) (previous : Option Char) : List Char → Option (List Part)
  | [] => if r.braces.isEmpty then some r.parts.reverse else none
  | '?' :: rest => readParts (r.push .any) (some '?') rest
  | '*' :: '*' :: rest =>
    match readStars r previous rest, rest with
    | (r, true), _ :: rest => readParts r (some '/') rest
    | (r, _), rest => readParts r (some '*') rest
  | '*' :: rest => readParts (r.push .run) (some '*') rest
  | '\x7b' :: rest =>
    readParts { r with parts := [], braces := ⟨[], r.parts⟩ :: r.braces } (some '\x7b') rest
  | '\x7d' :: rest =>
    match r.braces with
    | [] => none
    | b :: braces =>
      let branches := (r.parts.reverse :: b.branches).reverse
      readParts { r with parts := .oneOf branches :: b.before, braces } (some '\x7d') rest
  | ',' :: rest =>
    match r.braces with
    | [] => readParts (r.push (.literal ',')) (some ',') rest
    | b :: braces =>
      readParts { r with parts := [], braces := ⟨r.parts.reverse :: b.branches, b.before⟩ :: braces }
        (some ',') rest
  | '\\' :: rest =>
    match rest with
    | [] => none
    | c :: rest => readParts (r.push (.literal c)) (some c) rest
  | '[' :: rest =>
    if r.literalBrackets then readParts (r.push (.literal '[')) (some '[') rest
    else
      match _h : readSetStart rest with
      | (negated, .closed ranges after) => readParts (r.push (.set negated ranges)) (some ']') after
      | (_, .unclosed) =>
        readParts { r.push (.literal '[') with literalBrackets := true } (some '[') rest
      | (_, .backwards) => none
  | c :: rest => readParts (r.push (.literal c)) (some c) rest
termination_by s => s.length
decreasing_by
  all_goals simp_wf
  all_goals first
    | omega
    | (have shorter := readSetStart_length _h; omega)

/-! ## Matching -/

def bytesOf (c : Char) : List UInt8 := (String.singleton c).toUTF8.toList

/-- The byte ranges of a set. A character of several bytes counts byte by byte; in a range only the last
byte of its start and the first byte of its end make a range. -/
def byteRanges (r : Char × Char) : List (UInt8 × UInt8) :=
  let singles (bs : List UInt8) := bs.map fun b => (b, b)
  if r.1 = r.2 then singles (bytesOf r.1)
  else
    match (bytesOf r.1).getLast?, bytesOf r.2 with
    | some lo, hi :: more => singles (bytesOf r.1).dropLast ++ (lo, hi) :: singles more
    | _, _ => []

def inSet (ranges : List (Char × Char)) (b : UInt8) : Bool :=
  (ranges.flatMap byteRanges).any fun r => r.1 ≤ b && b ≤ r.2

/-- The separator. -/
def slash : UInt8 := 47

/-- All ends of a text, the text itself first. -/
def ends : List UInt8 → List (List UInt8)
  | [] => [[]]
  | b :: rest => (b :: rest) :: ends rest

/-- What is left after each separator. -/
def afterSlashes : List UInt8 → List (List UInt8)
  | [] => []
  | b :: rest => if b = slash then rest :: afterSlashes rest else afterSlashes rest

/-- What is left after a run that stays within one directory. -/
def afterRun : List UInt8 → List (List UInt8)
  | [] => [[]]
  | b :: rest => (b :: rest) :: (if b = slash then [] else afterRun rest)

/-- What follows `start` at the beginning of a text. -/
def afterBytes : List UInt8 → List UInt8 → List (List UInt8)
  | [], s => [s]
  | b :: start, c :: s => if b = c then afterBytes start s else []
  | _ :: _, [] => []

mutual

/-- What a part can leave of a text. -/
def Part.rests : Part → List UInt8 → List (List UInt8)
  | .literal c, s => afterBytes (bytesOf c) s
  | .any, s =>
    match s with
    | b :: rest => if b = slash then [] else [rest]
    | [] => []
  | .run, s => afterRun s
  | .anyDirsBefore, s => s :: afterSlashes s
  | .anyPathAfter, s =>
    match s with
    | b :: rest => if b = slash then ends rest else []
    | [] => []
  | .anyDirsBetween, s =>
    match s with
    | b :: rest => if b = slash then rest :: afterSlashes rest else []
    | [] => []
  | .set negated ranges, s =>
    match s with
    | b :: rest => if inSet ranges b != negated then [rest] else []
    | [] => []
  | .oneOf branches, s =>
    if allEmpty branches then [s] else branchRests branches s

/-- What one of several branches can leave; an empty branch is no branch. -/
def branchRests : List (List Part) → List UInt8 → List (List UInt8)
  | [], _ => []
  | branch :: more, s =>
    (if writesNothing branch then [] else sequenceRests branch s) ++ branchRests more s

/-- What a sequence of parts can leave. -/
def sequenceRests : List Part → List UInt8 → List (List UInt8)
  | [], s => [s]
  | part :: parts, s => (part.rests s).flatMap (sequenceRests parts)

/-- Whether a sequence has nothing to match. -/
def writesNothing : List Part → Bool
  | [] => true
  | .oneOf branches :: parts => allEmpty branches && writesNothing parts
  | _ :: _ => false

/-- Whether no branch has anything to match. -/
def allEmpty : List (List Part) → Bool
  | [] => true
  | branch :: more => writesNothing branch && allEmpty more

end

/-- Whether a pattern matches a whole path. A pattern of two stars matches everything. -/
def matchesPath (parts : List Part) (path : List UInt8) : Bool :=
  match parts with
  | [.anyDirsBefore] => true
  | _ => (sequenceRests parts path).any List.isEmpty

/-! ## Rules -/

/-- A rule of an ignore file. -/
structure Rule where
  parts : List Part
  /-- The rule takes earlier ones back. -/
  isException : Bool
  onlyDirectories : Bool
  deriving Repr, Inhabited

namespace Rule

/-- Drop white space at the end, unless the last blank is escaped. -/
def trimEnd (line : List Char) : List Char :=
  if "\\ ".toList.isSuffixOf line then line
  else (line.reverse.dropWhile isBlank).reverse

/-- The pattern of a rule as it is matched: at any depth unless it says otherwise, and a closing `/**`
means something below the directory. -/
def pattern (line : List Char) (isAnchored : Bool) : List Char :=
  let line :=
    if !isAnchored && !line.contains '/' && !("**/".toList.isPrefixOf line) && line ≠ "**".toList then
      "**/".toList ++ line
    else line
  if "/**".toList.isSuffixOf line then line ++ "/*".toList else line

/-- The rule of a line; `none` for comments, blank lines and patterns that are not well formed. -/
def ofLine (line : List Char) : Option Rule :=
  if line.head? = some '#' then none
  else
    let line := trimEnd line
    if line.isEmpty then none
    else
      let (isException, isAnchored, line) :=
        match line with
        | '\\' :: '!' :: rest => (false, false, '!' :: rest)
        | '\\' :: '#' :: rest => (false, false, '#' :: rest)
        | '!' :: '/' :: rest => (true, true, rest)
        | '!' :: rest => (true, false, rest)
        | '/' :: rest => (false, true, rest)
        | _ => (false, false, line)
      let (onlyDirectories, line) :=
        if line.getLast? = some '/' then
          let line := line.dropLast
          (true, if line.getLast? = some '\\' then line.dropLast else line)
        else (false, line)
      (readParts {} none (pattern line isAnchored)).map fun parts => ⟨parts, isException, onlyDirectories⟩

end Rule

/-- What a list of rules says of a path. -/
inductive Verdict where
  | ignored
  | kept
  | silent
  deriving DecidableEq, Repr, Inhabited

namespace Verdict

/-- The first that is not silent. -/
def orElse : Verdict → Verdict → Verdict
  | silent, v => v
  | v, _ => v

end Verdict

/-- The rules of one file, or of several one after the other. -/
abbrev Rules := List Rule

namespace Rules

/-- The rules of the lines of a text; a mark at the very beginning is no part of the first line. -/
def ofText (text : List Char) : Rules :=
  (lines (text.dropWhile (· == '\ufeff'))).filterMap Rule.ofLine

/-- The last rule that matches decides. -/
def verdict (rules : Rules) (path : List Char) (isDirectory : Bool) : Verdict :=
  let bytes := (String.ofList path).toUTF8.toList
  let hits := rules.reverse.find? fun r =>
    (!r.onlyDirectories || isDirectory) && matchesPath r.parts bytes
  match hits with
  | some r => if r.isException then .kept else .ignored
  | none => .silent

end Rules

end QmlIndex.Ignore
