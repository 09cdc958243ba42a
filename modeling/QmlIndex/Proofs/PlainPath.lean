import QmlIndex.FileUri

/-! # Plain paths

A path is plain if it consists of the root and names. Normalisation makes every absolute path plain and
leaves plain paths as they are, so documents are known by plain paths. A path is canonical if reading its
spelling as a URI gives it back.
-/

namespace QmlIndex

namespace Path

/-- The root and names, without `.` and `..`. -/
def Plain (p : Path) : Prop := ∃ names : List String, p.parts = .root :: names.map Part.name

theorem extend_plain (names : List String) (part : Part) :
    ∃ more : List String, extend (.root :: names.map Part.name) part = .root :: more.map Part.name := by
  cases part with
  | root => exact ⟨[], rfl⟩
  | current => exact ⟨names, rfl⟩
  | name text => exact ⟨names ++ [text], by simp [extend]⟩
  | parent =>
      rcases List.eq_nil_or_concat names with rfl | ⟨before, last, rfl⟩
      · exact ⟨[], rfl⟩
      · have shape : (Part.root :: (before.concat last).map Part.name) =
            (Part.root :: before.map Part.name) ++ [.name last] := by simp
        refine ⟨before, ?_⟩
        rw [shape, extend, List.getLast?_concat]
        exact List.dropLast_concat

theorem foldl_extend_plain (parts : List Part) (names : List String) :
    ∃ more : List String, parts.foldl extend (.root :: names.map Part.name) = .root :: more.map Part.name := by
  induction parts generalizing names with
  | nil => exact ⟨names, rfl⟩
  | cons part rest ih =>
      obtain ⟨more, next⟩ := extend_plain names part
      rw [List.foldl_cons, next]
      exact ih more

/-- Normalisation makes absolute paths plain. -/
theorem normalize_plain {p : Path} {rest : List Part} (absolute : p.parts = .root :: rest) : p.normalize.Plain := by
  rw [Plain, normalize, absolute]
  exact foldl_extend_plain rest []

theorem foldl_extend_names (done : List Part) (names : List String) :
    (names.map Part.name).foldl extend done = done ++ names.map Part.name := by
  induction names generalizing done with
  | nil => simp
  | cons text rest ih =>
      rw [List.map_cons, List.foldl_cons, ih]
      simp [extend]

theorem Plain.normalize_eq {p : Path} (plain : p.Plain) : p.normalize = p := by
  obtain ⟨names, shape⟩ := plain
  rw [normalize, shape, List.foldl_cons, foldl_extend_names]
  cases p
  exact congrArg mk shape.symm

end Path

namespace FileUri

/-- The path is what its spelling says. -/
def Canonical (u : FileUri) : Prop := FileUri.parse u.toString = .ok u

theorem ofChars_absolute {s : List Char} (h : s.head? = some '/') :
    ∃ rest, (Path.ofChars s).parts = .root :: rest := by
  simp only [Path.ofChars, h, if_pos]
  exact ⟨_, rfl⟩

theorem parse_eq_ok {s : String} {u : FileUri} (h : parse s = .ok u) :
    ∃ raw : List Char, raw = (Text.dropStart? scheme s.toList).getD s.toList ∧ raw.head? = some '/' ∧
      u = (Path.ofChars raw).normalize := by
  refine ⟨_, rfl, ?_⟩
  simp only [parse] at h
  split at h
  · simp at h
  · split at h
    · simp at h
    · rename_i absolute
      exact ⟨Decidable.not_not.mp absolute, (Except.ok.inj h).symm⟩

theorem Canonical.plain {u : FileUri} (canonical : u.Canonical) : u.Plain := by
  obtain ⟨raw, _, absolute, same⟩ := parse_eq_ok canonical
  obtain ⟨rest, shape⟩ := ofChars_absolute absolute
  rw [same]
  exact Path.normalize_plain shape

theorem toString_of_plain {u : FileUri} (plain : u.Plain) : ∃ rest, u.toString.toList = '/' :: rest := by
  obtain ⟨names, shape⟩ := plain
  simp only [Path.toString, shape, String.toList_append]
  exact ⟨_, rfl⟩

/-- The spelling of a canonical path leads back to it wherever it is read. -/
theorem Canonical.ofPath_toString {u : FileUri} (canonical : u.Canonical) :
    FileUri.ofPath .rootDir u.toString = .ok u := by
  obtain ⟨rest, spelling⟩ := toString_of_plain canonical.plain
  obtain ⟨raw, from_spelling, absolute, same⟩ := parse_eq_ok canonical
  have no_scheme : Text.dropStart? scheme u.toString.toList = none := by
    rw [spelling]
    rfl
  rw [no_scheme, Option.getD_none] at from_spelling
  subst from_spelling
  obtain ⟨parts, shape⟩ := ofChars_absolute absolute
  have nonempty : u.toString ≠ "" := by
    intro empty
    rw [empty] at spelling
    simp at spelling
  have joined : Path.rootDir.join (Path.ofString u.toString) = Path.ofString u.toString := by
    rw [Path.join, if_pos]
    simp [Path.isAbsolute, Path.ofString, shape]
  rw [ofPath, if_neg nonempty, joined, Path.ofString, ← same]

end FileUri

end QmlIndex
