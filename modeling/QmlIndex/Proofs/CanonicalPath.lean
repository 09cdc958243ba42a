import QmlIndex.Proofs.PlainPath
import QmlIndex.Proofs.Text.Fields

/-! # Canonical paths

A canonical path is the root and names that a spelling can hold: no name is empty, a dot or two dots, and no
name has a separator in it. So everything that is read from a spelling and made absolute is canonical, and a
reference in a document leads to a canonical path again.
-/

namespace QmlIndex

namespace Path

/-- A name that stands for itself between two separators. -/
structure IsName (n : String) : Prop where
  part : part? n.toList = some (.name n)
  free : '/' ∉ n.toList

instance (n : String) : Decidable (IsName n) :=
  decidable_of_iff (part? n.toList = some (.name n) ∧ '/' ∉ n.toList)
    ⟨fun both => ⟨both.1, both.2⟩, fun good => ⟨good.part, good.free⟩⟩

/-- A part that a spelling can have. -/
def Spelled : Part → Prop
  | .name n => IsName n
  | _ => True

/-- The root, and names that stand for themselves. -/
def Clean (p : Path) : Prop := ∃ names : List String, (∀ n ∈ names, IsName n) ∧ p.parts = .root :: names.map Part.name

theorem Clean.plain {p : Path} (clean : p.Clean) : p.Plain := by
  obtain ⟨names, _, shape⟩ := clean
  exact ⟨names, shape⟩

theorem Clean.spelled {p : Path} (clean : p.Clean) : ∀ part ∈ p.parts, Spelled part := by
  obtain ⟨names, good, shape⟩ := clean
  intro part member
  rw [shape, List.mem_cons, List.mem_map] at member
  rcases member with rfl | ⟨n, listed, rfl⟩
  · trivial
  · exact good n listed

theorem spelled_of_part? {field : List Char} {part : Part} (free : '/' ∉ field) (h : part? field = some part) :
    Spelled part := by
  have whole := h
  rw [part?] at h
  split at h
  · simp at h
  · split at h
    · obtain rfl := Option.some.inj h
      trivial
    · obtain rfl := Option.some.inj h
      exact ⟨by rw [String.toList_ofList]; exact whole, by rwa [String.toList_ofList]⟩

theorem ofChars_spelled (s : List Char) : ∀ part ∈ (ofChars s).parts, Spelled part := by
  have body : ∀ part ∈ (Text.fields '/' s).filterMap part?, Spelled part := by
    intro part member
    obtain ⟨field, listed, found⟩ := List.mem_filterMap.mp member
    exact spelled_of_part? (Text.not_mem_of_mem_fields listed) found
  intro part member
  simp only [ofChars] at member
  split at member
  · rcases List.mem_cons.mp member with rfl | later
    · trivial
    · exact body part later
  · split at member
    · rcases List.mem_cons.mp member with rfl | later
      · trivial
      · exact body part later
    · exact body part member

/-! ## Normalisation -/

/-- A step of normalisation brings in no part but the one that it reads. -/
theorem mem_extend {done : List Part} {part other : Part} (h : other ∈ extend done part) :
    other ∈ done ∨ other = part := by
  cases part with
  | root => exact .inr (List.mem_singleton.mp h)
  | current => exact .inl h
  | name text =>
      rcases List.mem_append.mp h with before | last
      · exact .inl before
      · exact .inr (List.mem_singleton.mp last)
  | parent =>
      simp only [extend] at h
      split at h
      · exact .inl (List.dropLast_subset _ h)
      · split at h
        · exact .inl h
        · rcases List.mem_append.mp h with before | last
          · exact .inl before
          · exact .inr (List.mem_singleton.mp last)

theorem mem_foldl_extend {parts done : List Part} {part : Part} (h : part ∈ parts.foldl extend done) :
    part ∈ done ∨ part ∈ parts := by
  induction parts generalizing done with
  | nil => exact .inl h
  | cons first rest ih =>
      rcases ih h with stepped | later
      · rcases mem_extend stepped with before | rfl
        · exact .inl before
        · exact .inr List.mem_cons_self
      · exact .inr (List.mem_cons_of_mem first later)

theorem mem_normalize {p : Path} {part : Part} (h : part ∈ p.normalize.parts) : part ∈ p.parts :=
  (mem_foldl_extend h).resolve_left List.not_mem_nil

/-- Normalisation makes absolute paths clean if they are made of parts that were spelled. -/
theorem normalize_clean {p : Path} {rest : List Part} (absolute : p.parts = .root :: rest)
    (spelled : ∀ part ∈ p.parts, Spelled part) : p.normalize.Clean := by
  obtain ⟨names, shape⟩ := normalize_plain absolute
  refine ⟨names, fun n member => ?_, shape⟩
  have listed : Part.name n ∈ p.normalize.parts := by simp [shape, member]
  exact spelled _ (mem_normalize listed)

/-! ## Joining -/

theorem join_spelled {p q : Path} (left : ∀ part ∈ p.parts, Spelled part) (right : ∀ part ∈ q.parts, Spelled part) :
    ∀ part ∈ (p.join q).parts, Spelled part := by
  rw [join]
  split
  · exact right
  · split
    · exact right
    · rename_i rest shape _
      intro part member
      rw [shape] at right
      rcases List.mem_append.mp member with before | after
      · exact left part before
      · exact right part (List.mem_cons_of_mem _ after)
    · intro part member
      rcases List.mem_append.mp member with before | after
      · exact left part before
      · exact right part after

theorem join_absolute {p q : Path} {rest : List Part} (absolute : p.parts = .root :: rest) :
    ∃ more, (p.join q).parts = .root :: more := by
  rw [join]
  split
  · rename_i alone
    cases shape : q.parts with
    | nil => simp [isAbsolute, shape] at alone
    | cons part more =>
        obtain rfl : part = .root := by simpa [isAbsolute, shape] using alone
        exact ⟨more, rfl⟩
  · split
    · simp_all
    · rw [absolute]
      exact ⟨_, rfl⟩
    · rw [absolute]
      exact ⟨_, rfl⟩

theorem normalize_join_clean {p q : Path} (clean : p.Clean) (spelled : ∀ part ∈ q.parts, Spelled part) :
    (p.join q).normalize.Clean := by
  obtain ⟨names, _, shape⟩ := id clean
  obtain ⟨rest, absolute⟩ := join_absolute (q := q) shape
  exact normalize_clean absolute (join_spelled clean.spelled spelled)

theorem clean_rootDir : rootDir.Clean := ⟨[], by simp, rfl⟩

theorem Clean.child {p : Path} {n : String} (clean : p.Clean) (good : IsName n) : (p.child n).Clean := by
  obtain ⟨names, all, shape⟩ := clean
  refine ⟨names ++ [n], fun m member => ?_, by simp [Path.child, shape]⟩
  rcases List.mem_append.mp member with before | last
  · exact all m before
  · exact List.mem_singleton.mp last ▸ good

theorem Clean.parent {p dir : Path} (clean : p.Clean) (h : p.parent? = some dir) : dir.Clean := by
  obtain ⟨names, good, shape⟩ := clean
  rcases List.eq_nil_or_concat names with rfl | ⟨before, last, rfl⟩
  · simp [parent?, shape] at h
  · have whole : p.parts = (.root :: before.map Part.name) ++ [.name last] := by simp [shape]
    simp only [parent?, whole, List.getLast?_concat, List.dropLast_concat, Option.some.injEq] at h
    subst h
    exact ⟨before, fun n member => good n (by simp [member]), rfl⟩

theorem Clean.parent_isSome {p : Path} (clean : p.Clean) (below : p ≠ rootDir) : ∃ dir, p.parent? = some dir := by
  obtain ⟨names, good, shape⟩ := clean
  rcases List.eq_nil_or_concat names with rfl | ⟨before, last, rfl⟩
  · exact absurd (by cases p; simpa [rootDir] using shape) below
  · have whole : p.parts = (.root :: before.map Part.name) ++ [.name last] := by simp [shape]
    exact ⟨_, by simp only [parent?, whole, List.getLast?_concat]; rfl⟩

/-! ## Spelling -/

theorem toString_clean {names : List String} :
    (Path.mk (.root :: names.map Part.name)).toString.toList =
      '/' :: ['/'].intercalate (names.map String.toList) := by
  simp only [toString, List.map_map, String.toList_append, String.toList_intercalate]
  rfl

/-- A part that stands for itself between two separators. -/
structure Stands (part : Part) : Prop where
  back : part? part.text.toList = some part
  free : '/' ∉ part.text.toList

theorem IsName.stands {n : String} (good : IsName n) : Stands (.name n) := ⟨good.part, good.free⟩

theorem stands_parent : Stands .parent := ⟨by decide, by decide⟩

theorem stands_names {names : List String} (good : ∀ n ∈ names, IsName n) :
    ∀ part ∈ names.map Part.name, Stands part := by
  intro part member
  obtain ⟨n, listed, rfl⟩ := List.mem_map.mp member
  exact (good n listed).stands

theorem filterMap_part? {parts : List Part} (stand : ∀ part ∈ parts, Stands part) :
    (parts.map fun part => part.text.toList).filterMap part? = parts := by
  induction parts with
  | nil => rfl
  | cons part rest ih =>
      rw [List.map_cons, List.filterMap_cons_some (stand part List.mem_cons_self).back,
        ih fun other member => stand other (List.mem_cons_of_mem part member)]

/-- Parts that were put together with separators are found again. -/
theorem fields_text {part : Part} {rest : List Part} (stand : ∀ other ∈ part :: rest, Stands other) :
    Text.fields '/' (['/'].intercalate ((part :: rest).map fun other => other.text.toList)) =
      (part :: rest).map fun other => other.text.toList := by
  have free : ∀ f ∈ (part :: rest).map fun other => other.text.toList, '/' ∉ f := by
    intro f member
    obtain ⟨other, listed, rfl⟩ := List.mem_map.mp member
    exact (stand other listed).free
  exact Text.fields_intercalate free

theorem filterMap_fields_text {parts : List Part} (stand : ∀ part ∈ parts, Stands part) :
    (Text.fields '/' (['/'].intercalate (parts.map fun part => part.text.toList))).filterMap part? = parts := by
  cases parts with
  | nil => rfl
  | cons part rest => rw [fields_text stand, filterMap_part? stand]

theorem fields_toString {n : String} {rest : List String} (good : ∀ m ∈ n :: rest, IsName m) :
    Text.fields '/' (Path.mk (.root :: (n :: rest).map Part.name)).toString.toList =
      [] :: (n :: rest).map String.toList := by
  have names := fields_text (stands_names good)
  rw [← List.map_cons, List.map_map] at names
  rw [toString_clean]
  exact (Text.fields_append List.not_mem_nil _).trans (congrArg ([] :: ·) names)

theorem ofChars_toString {p : Path} (clean : p.Clean) : ofChars p.toString.toList = p := by
  obtain ⟨names, good, shape⟩ := clean
  obtain rfl : p = ⟨.root :: names.map Part.name⟩ := by cases p; exact congrArg Path.mk shape
  have first : Text.fields '/' ('/' :: ['/'].intercalate (names.map String.toList)) =
      [] :: Text.fields '/' (['/'].intercalate (names.map String.toList)) :=
    Text.fields_append List.not_mem_nil _
  have back := filterMap_fields_text (stands_names good)
  rw [List.map_map] at back
  rw [toString_clean]
  simp only [ofChars, List.head?_cons, if_pos]
  rw [first]
  exact congrArg (fun body => Path.mk (.root :: body)) back

end Path

namespace FileUri

theorem parse_clean {text : String} {u : FileUri} (h : parse text = .ok u) : u.Clean := by
  obtain ⟨raw, _, absolute, rfl⟩ := parse_eq_ok h
  obtain ⟨rest, shape⟩ := ofChars_absolute absolute
  exact Path.normalize_clean shape (Path.ofChars_spelled raw)

theorem canonical_iff_clean {u : FileUri} : u.Canonical ↔ u.Clean := by
  constructor
  · exact parse_clean
  · intro clean
    obtain ⟨rest, spelling⟩ := toString_of_plain clean.plain
    have no_scheme : Text.dropStart? scheme u.toString.toList = none := by
      rw [spelling]
      rfl
    have nonempty : u.toString.toList ≠ [] := by simp [spelling]
    have absolute : ¬ u.toString.toList.head? ≠ some '/' := by simp [spelling]
    rw [Canonical, parse, no_scheme, Option.getD_none, if_neg nonempty, if_neg absolute,
      Path.ofChars_toString clean, clean.plain.normalize_eq]

/-- Canonical paths with one spelling are one path. -/
theorem Canonical.toString_inj {u v : FileUri} (hu : u.Canonical) (hv : v.Canonical) :
    u.toString = v.toString ↔ u = v := by
  constructor
  · intro same
    rw [Canonical, same, hv] at hu
    exact (Except.ok.inj hu).symm
  · rintro rfl
    rfl

theorem Canonical.beq_toString {u v : FileUri} (hu : u.Canonical) (hv : v.Canonical) :
    (u.toString == v.toString) = decide (u = v) := by
  rw [Bool.eq_iff_iff, beq_iff_eq, decide_eq_true_iff]
  exact hu.toString_inj hv

/-- Seen from an absolute directory, whatever is written leads to a clean path. -/
theorem ofPath_clean {cwd : Path} {rest : List Part} (absolute : cwd.parts = .root :: rest)
    (spelled : ∀ part ∈ cwd.parts, Path.Spelled part) {path : String} {u : FileUri} (h : ofPath cwd path = .ok u) :
    u.Clean := by
  rw [ofPath] at h
  split at h
  · simp at h
  · obtain rfl := Except.ok.inj h
    obtain ⟨more, joined⟩ := Path.join_absolute (q := Path.ofString path) absolute
    exact Path.normalize_clean joined (Path.join_spelled spelled (Path.ofChars_spelled path.toList))

/-- A path as a file system gives it is canonical once it is read from the root. -/
theorem canonical_of_ofPath {path : String} {u : FileUri} (h : FileUri.ofPath .rootDir path = .ok u) : u.Canonical :=
  canonical_iff_clean.mpr (ofPath_clean rfl Path.clean_rootDir.spelled h)

/-- What a reference in a document leads to is canonical, whatever the reference is. -/
theorem Canonical.resolve {u : FileUri} (canonical : u.Canonical) (below : u ≠ .rootDir) (reference : String) :
    (FileUri.resolve u reference).Canonical := by
  have clean := canonical_iff_clean.mp canonical
  obtain ⟨dir, parent⟩ := clean.parent_isSome below
  simp only [FileUri.resolve, parent]
  exact canonical_iff_clean.mpr (Path.normalize_join_clean (clean.parent parent) (Path.ofChars_spelled _))

end FileUri

end QmlIndex
