import QmlIndex.Text.Fields

/-! # Paths

A path is the list of its parts. Repeated and trailing separators, and `.` anywhere but at the start of a
relative path, are no parts, so spellings that differ only in those are one path. Nothing here looks at a
file system.
-/

namespace QmlIndex

open Text

/-- One part of a path. -/
inductive Part where
  /-- The leading separator of an absolute path. -/
  | root
  /-- A leading `.` of a relative path. -/
  | current
  /-- `..` -/
  | parent
  | name (text : String)
  deriving DecidableEq, Repr, Inhabited

namespace Part

/-- The parts that are no names come before all names. -/
def rank : Part → Nat
  | root => 0
  | current => 1
  | parent => 2
  | name _ => 3

/-- The text of a name; the other parts have none. -/
def label : Part → String
  | name text => text
  | _ => ""

instance : Ord Part := ⟨fun a b => (compare a.rank b.rank).then (compare a.label b.label)⟩

/-- How a part is written. -/
def text : Part → String
  | root => "/"
  | current => "."
  | parent => ".."
  | name text => text

theorem compare_eq (a b : Part) :
    compare a b = (compare a.rank b.rank).then (compare a.label b.label) := rfl

instance : Std.OrientedOrd Part where
  eq_swap {a b} := by
    simp only [compare_eq, Ordering.swap_then, ← Std.OrientedCmp.eq_swap]

instance : Std.TransOrd Part where
  isLE_trans {a b c} := by
    simp only [compare_eq, Ordering.isLE_then_iff_and]
    intro ⟨h₁, h₂⟩ ⟨h₃, h₄⟩
    refine ⟨Std.TransCmp.isLE_trans h₁ h₃, ?_⟩
    rcases h₂ with h₂ | h₂
    · exact .inl (Std.TransCmp.lt_of_lt_of_isLE h₂ h₃)
    · rcases h₄ with h₄ | h₄
      · exact .inl (Std.TransCmp.lt_of_isLE_of_lt h₁ h₄)
      · exact .inr (Std.TransCmp.isLE_trans h₂ h₄)

instance : Std.LawfulEqOrd Part where
  eq_of_compare {a b} := by
    rw [compare_eq, Ordering.then_eq_eq]
    intro ⟨h₁, h₂⟩
    have sameRank := Std.LawfulEqCmp.eq_of_compare h₁
    have sameLabel := Std.LawfulEqCmp.eq_of_compare h₂
    cases a <;> cases b <;> simp_all [rank, label]

end Part

/-- A path, as the list of its parts. Paths are ordered part by part, so a directory's contents stand
together. -/
structure Path where
  parts : List Part
  deriving DecidableEq, Repr, Inhabited

namespace Path

instance : Ord Path := ⟨fun a b => compare a.parts b.parts⟩

theorem compare_eq (a b : Path) : compare a b = compare a.parts b.parts := rfl

instance : Std.OrientedOrd Path where
  eq_swap {a b} := by simp only [compare_eq]; exact Std.OrientedCmp.eq_swap

instance : Std.TransOrd Path where
  isLE_trans {a b c} := by simp only [compare_eq]; exact Std.TransCmp.isLE_trans

instance : Std.LawfulEqOrd Path where
  eq_of_compare {a b} := by
    rw [compare_eq]
    intro h
    have := Std.LawfulEqCmp.eq_of_compare h
    cases a; cases b; simp_all

/-- The part that a stretch between separators stands for, if any. -/
def part? (field : List Char) : Option Part :=
  if field = [] || field = ['.'] then none
  else if field = ['.', '.'] then some .parent
  else some (.name (String.ofList field))

/-- Read a path as it is written. -/
def ofChars (s : List Char) : Path :=
  let fs := fields '/' s
  let body := fs.filterMap part?
  if s.head? = some '/' then ⟨.root :: body⟩
  else if fs.head? = some ['.'] then ⟨.current :: body⟩
  else ⟨body⟩

def ofString (s : String) : Path := ofChars s.toList

/-- Whether the text of a path asks for a directory: it ends with a separator or with a part `.`. -/
def wantsDirectory (s : String) : Bool :=
  match (fields '/' s.toList).getLast? with
  | some last => last = [] || last = ['.']
  | none => false

/-- Whether the text of a path is a name, or ends with one, and separators after it. -/
def endsInSeparator (s : String) : Bool :=
  match (fields '/' s.toList).reverse with
  | [] :: rest =>
    match (rest.dropWhile List.isEmpty).head?.bind part? with
    | some (.name _) => true
    | _ => false
  | _ => false

/-- Write a path with single separators. -/
def toString (p : Path) : String :=
  match p.parts with
  | .root :: rest => "/" ++ "/".intercalate (rest.map Part.text)
  | parts => "/".intercalate (parts.map Part.text)

/-- The root directory. -/
def rootDir : Path := ⟨[.root]⟩

def isAbsolute (p : Path) : Bool := p.parts.head? == some .root

/-- Go on from `p`; an absolute path starts afresh. -/
def join (p q : Path) : Path :=
  if q.isAbsolute then q
  else
    match p.parts, q.parts with
    | [], _ => q
    | _, .current :: rest => ⟨p.parts ++ rest⟩
    | _, _ => ⟨p.parts ++ q.parts⟩

/-- The directory a path lies in. The root directory and the empty path have none. -/
def parent? (p : Path) : Option Path :=
  match p.parts.getLast? with
  | none | some .root => none
  | some _ => some ⟨p.parts.dropLast⟩

/-- The last part, if it is a name. -/
def fileName? (p : Path) : Option String :=
  match p.parts.getLast? with
  | some (.name text) => some text
  | _ => none

/-- The parts below a directory. -/
def below? (base p : Path) : Option (List Part) :=
  if base.parts.isPrefixOf p.parts then some (p.parts.drop base.parts.length) else none

/-- The path of a name in a directory. -/
def child (p : Path) (name : String) : Path := ⟨p.parts ++ [.name name]⟩

/-- Whether a path lies in a directory, at any depth, or is the directory. -/
def isAbove (base p : Path) : Bool := base.parts.isPrefixOf p.parts

/-- The beginnings of a path from the second part on, the path itself last. -/
def ancestry (p : Path) : List Path := (List.range (p.parts.length - 1)).map fun i => ⟨p.parts.take (i + 2)⟩

/-- One more part for a path that has no `.`, and `..` only in front: `..` takes back a name, is lost at
the root, and is kept otherwise. -/
def extend (done : List Part) : Part → List Part
  | .root => [.root]
  | .current => done
  | .name text => done ++ [.name text]
  | .parent =>
    match done.getLast? with
    | some (.name _) => done.dropLast
    | _ => if done.head? = some .root then done else done ++ [.parent]

/-- Fold away `.` and `..` as far as that can be done on the text alone. -/
def normalize (p : Path) : Path := ⟨p.parts.foldl extend []⟩

end Path

end QmlIndex
