import QmlIndex.Error

/-! # File patterns

A pattern selects files by their path below the workspace root. `*` and `?` stay within one directory,
`**` as a whole component stands for any number of directories, and `[...]` is a set of characters.
-/

namespace QmlIndex

/-- One part of a pattern. -/
inductive GlobToken where
  | char (c : Char)
  /-- `?` -/
  | anyChar
  /-- `*` -/
  | anyRun
  /-- A component `**` with the separator after it. -/
  | anyDirs
  /-- `[...]`, as closed ranges of characters. -/
  | within (ranges : List (Char × Char))
  /-- `[!...]` -/
  | except (ranges : List (Char × Char))
  deriving DecidableEq, Repr, Inhabited

/-- A pattern. -/
structure Glob where
  tokens : List GlobToken
  deriving DecidableEq, Repr, Inhabited

namespace Glob

/-- Why a text is no pattern. -/
inductive Fault where
  | tooManyStars
  | strayDoubleStar
  | badSet
  deriving DecidableEq, Repr, Inhabited

def Fault.text : Fault → String
  | tooManyStars => "wildcards are either regular \x60*\x60 or recursive \x60**\x60"
  | strayDoubleStar => "recursive wildcards must form a single path component"
  | badSet => "invalid range pattern"

/-- The ranges of a set; `a-z` is a range wherever a character follows the dash. -/
def ranges : List Char → List (Char × Char)
  | a :: '-' :: b :: rest => (a, b) :: ranges rest
  | a :: rest => (a, a) :: ranges rest
  | [] => []

/-- Split before the first `]`. -/
def untilBracket (s : List Char) : Option (List Char × List Char) :=
  match s.dropWhile (· != ']') with
  | _ :: after => some (s.takeWhile (· != ']'), after)
  | [] => none

/-- The set after an opening bracket, and what follows it. Its first character may be `]`. -/
def set? (s : List Char) : Option (GlobToken × List Char) :=
  match s with
  | '!' :: a :: rest => (untilBracket rest).map fun (body, after) => (.except (ranges (a :: body)), after)
  | '!' :: [] => none
  | a :: rest => (untilBracket rest).map fun (body, after) => (.within (ranges (a :: body)), after)
  | [] => none

theorem untilBracket_length {s body after : List Char} (h : untilBracket s = some (body, after)) :
    after.length < s.length := by
  unfold untilBracket at h
  have shorter := (List.dropWhile_sublist (l := s) (· != ']')).length_le
  split at h
  · rename_i rest drop
    simp only [Option.some.injEq, Prod.mk.injEq] at h
    obtain ⟨_, rfl⟩ := h
    rw [drop, List.length_cons] at shorter
    omega
  · simp at h

theorem set?_length {s after : List Char} {token : GlobToken} (h : set? s = some (token, after)) :
    after.length < s.length := by
  unfold set? at h
  split at h
  · simp only [Option.map_eq_some_iff, Prod.mk.injEq, Prod.exists] at h
    obtain ⟨body, rest, found, _, rfl⟩ := h
    have := untilBracket_length found
    simp
    omega
  · simp at h
  · simp only [Option.map_eq_some_iff, Prod.mk.injEq, Prod.exists] at h
    obtain ⟨body, rest, found, _, rfl⟩ := h
    have := untilBracket_length found
    simp
    omega
  · simp at h

/-- Read the rest of a pattern. `index` is the number of characters before it, `previous` the last of
them, and an error names the index it is about. -/
def parseFrom (index : Nat) (previous : Option Char) :
    List Char → Except (Nat × Fault) (List GlobToken)
  | [] => .ok []
  | '?' :: rest => return .anyChar :: (← parseFrom (index + 1) (some '?') rest)
  | '*' :: '*' :: '*' :: _ => .error (index + 2, .tooManyStars)
  | '*' :: '*' :: rest =>
    if previous.all (· == '/') then
      match rest with
      | [] => .ok [.anyDirs]
      | '/' :: rest => return .anyDirs :: (← parseFrom (index + 3) (some '/') rest)
      | _ => .error (index + 2, .strayDoubleStar)
    else .error (index - 1, .strayDoubleStar)
  | '*' :: rest => return .anyRun :: (← parseFrom (index + 1) (some '*') rest)
  | '[' :: rest =>
    match _h : set? rest with
    | some (token, after) =>
      return token :: (← parseFrom (index + 1 + (rest.length - after.length)) (some ']') after)
    | none => .error (index, .badSet)
  | c :: rest => return .char c :: (← parseFrom (index + 1) (some c) rest)
termination_by s => s.length
decreasing_by
  · simp
  · simp; omega
  · simp
  · have := set?_length _h
    simp
    omega
  · simp

/-- Read a pattern. -/
def parse (s : String) : Result Glob :=
  match parseFrom 0 none s.toList with
  | .ok tokens => .ok ⟨tokens⟩
  | .error (index, fault) => .error (.pattern index fault.text)

/-! ## Matching -/

def inRanges (ranges : List (Char × Char)) (c : Char) : Bool := ranges.any fun r => r.1 ≤ c && c ≤ r.2

/-- What is left after a run that stays within one directory. -/
def afterRun : List Char → List (List Char)
  | [] => [[]]
  | c :: rest => (c :: rest) :: (if c = '/' then [] else afterRun rest)

/-- What is left after each separator. -/
def afterSeparators : List Char → List (List Char)
  | [] => []
  | c :: rest => if c = '/' then rest :: afterSeparators rest else afterSeparators rest

/-- What a part of a pattern can leave of a text. -/
def rests (token : GlobToken) (s : List Char) : List (List Char) :=
  match token with
  | .anyRun => afterRun s
  | .anyDirs => s :: afterSeparators s ++ [[]]
  | .char c =>
    match s with
    | d :: rest => if d = c then [rest] else []
    | [] => []
  | .anyChar =>
    match s with
    | d :: rest => if d = '/' then [] else [rest]
    | [] => []
  | .within ranges =>
    match s with
    | d :: rest => if d ≠ '/' && inRanges ranges d then [rest] else []
    | [] => []
  | .except ranges =>
    match s with
    | d :: rest => if d ≠ '/' && !inRanges ranges d then [rest] else []
    | [] => []

/-- Whether the parts of a pattern can leave nothing of a text. -/
def matchesTokens : List GlobToken → List Char → Bool
  | [], s => s.isEmpty
  | token :: tokens, s => (rests token s).any (matchesTokens tokens)

/-- Whether a pattern selects a path, written from the workspace root. -/
def selects (g : Glob) (path : List Char) : Bool := matchesTokens g.tokens path

end Glob

end QmlIndex
