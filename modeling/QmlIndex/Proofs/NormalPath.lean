import QmlIndex.PathText
import QmlIndex.Proofs.CanonicalPath

/-! # Normal paths

Normalisation leaves the root and names, or `..` as often as the path leads out of the directory that it starts from,
and then names. Such a path is left as it is. Normalising a path that was joined is going on from the first one,
normalised, so it makes no difference whether the first one was normalised before. All this is true of what is written,
too: a normal path is what its spelling says, and spellings are joined as their paths are.
-/

namespace QmlIndex

namespace Path

/-! ## What normalisation leaves -/

/-- The root, or some `..`, and then names. -/
inductive Normal : List Part → Prop where
  | absolute (names : List String) : Normal (.root :: names.map Part.name)
  | relative (ups : Nat) (names : List String) : Normal (List.replicate ups .parent ++ names.map Part.name)

theorem extend_parents (ups : Nat) :
    Path.extend (List.replicate ups .parent) .parent = List.replicate (ups + 1) .parent := by
  rw [List.replicate_succ']
  cases ups with
  | zero => rfl
  | succ n =>
      have first : (List.replicate (n + 1) Part.parent).head? = some .parent := rfl
      have last : (List.replicate (n + 1) Part.parent).getLast? = some .parent := by
        rw [List.getLast?_replicate]
        rfl
      simp only [Path.extend, first, last]
      rfl

theorem Normal.extend {done : List Part} (normal : Normal done) (part : Part) : Normal (Path.extend done part) := by
  cases normal with
  | absolute names =>
      obtain ⟨more, next⟩ := extend_plain names part
      rw [next]
      exact .absolute more
  | relative ups names =>
      cases part with
      | root => exact .absolute []
      | current => exact .relative ups names
      | name text => simpa [Path.extend] using Normal.relative ups (names ++ [text])
      | parent =>
          rcases List.eq_nil_or_concat names with rfl | ⟨before, last, rfl⟩
          · rw [List.map_nil, List.append_nil, extend_parents]
            simpa using Normal.relative (ups + 1) []
          · have shape : List.replicate ups Part.parent ++ (before.concat last).map Part.name =
                (List.replicate ups .parent ++ before.map Part.name) ++ [.name last] := by simp
            rw [shape, Path.extend, List.getLast?_concat]
            simpa using Normal.relative ups before

theorem normal_normalize (p : Path) : Normal p.normalize.parts :=
  List.foldlRecOn p.parts Path.extend (Normal.relative 0 []) fun _ normal part _ => normal.extend part

theorem foldl_extend_parents (ups : Nat) :
    (List.replicate ups Part.parent).foldl Path.extend [] = List.replicate ups .parent := by
  induction ups with
  | zero => rfl
  | succ n ih =>
      rw [List.replicate_succ', List.foldl_append, ih, ← List.replicate_succ', ← extend_parents]
      rfl

theorem Normal.foldl_extend {parts : List Part} (normal : Normal parts) : parts.foldl Path.extend [] = parts := by
  cases normal with
  | absolute names =>
      rw [List.foldl_cons, foldl_extend_names]
      rfl
  | relative ups names => rw [List.foldl_append, foldl_extend_parents, foldl_extend_names]

theorem normalize_normalize (p : Path) : p.normalize.normalize = p.normalize :=
  congrArg mk (normal_normalize p).foldl_extend

/-- To normalise a path that goes on from another is to go on from the other one, normalised. -/
theorem normalize_join (p q : Path) : (p.join q).normalize = ⟨q.parts.foldl Path.extend p.normalize.parts⟩ := by
  rw [join]
  split
  · rename_i absolute
    -- The root starts afresh whatever stands before it.
    cases shape : q.parts with
    | nil => simp [isAbsolute, shape] at absolute
    | cons part rest =>
        obtain rfl : part = .root := by simpa [isAbsolute, shape] using absolute
        rw [normalize, shape]
        rfl
  · split
    · rename_i empty
      rw [normalize, normalize, empty]
      rfl
    · rename_i shape _
      rw [normalize, shape, List.foldl_append]
      rfl
    · rw [normalize, List.foldl_append]
      rfl

theorem normalize_join_normalize (p q : Path) : (p.normalize.join q).normalize = (p.join q).normalize := by
  rw [normalize_join, normalize_join, normalize_normalize]

/-! ## Spellings -/

/-- Some `..`, and then names that stand for themselves. -/
def Climbing (p : Path) : Prop :=
  ∃ (ups : Nat) (names : List String), (∀ n ∈ names, IsName n) ∧
    p.parts = List.replicate ups .parent ++ names.map Part.name

/-- The front of a path that a spelling gives; everything else comes from the fields. -/
def front (s : List Char) : List Part :=
  if s.head? = some '/' then [.root] else if (Text.fields '/' s).head? = some ['.'] then [.current] else []

theorem ofChars_parts (s : List Char) : (ofChars s).parts = front s ++ (Text.fields '/' s).filterMap part? := by
  simp only [ofChars, front]
  split
  · rfl
  · split <;> rfl

/-- No field is the root or a dot. -/
theorem part?_ne {field : List Char} {part : Part} (h : part? field = some part) : part ≠ .root ∧ part ≠ .current := by
  rw [part?] at h
  split at h
  · cases h
  · split at h <;> cases h <;> simp

theorem isAbsolute_ofChars (s : List Char) : (ofChars s).isAbsolute = true ↔ s.head? = some '/' := by
  have inner : ∀ part ∈ (Text.fields '/' s).filterMap part?, part ≠ .root := fun part member => by
    obtain ⟨field, _, found⟩ := List.mem_filterMap.mp member
    exact (part?_ne found).1
  rw [isAbsolute, ofChars_parts, front]
  split
  · rename_i absolute
    simp [absolute]
  · rename_i relative
    split
    · simp [relative]
    · simp only [relative, List.nil_append, beq_iff_eq, iff_false]
      exact fun first => inner .root (List.mem_of_mem_head? first) rfl

theorem root_not_mem_ofChars {s : List Char} (relative : s.head? ≠ some '/') : Part.root ∉ (ofChars s).parts := by
  intro member
  rw [ofChars_parts, front, if_neg relative] at member
  rcases List.mem_append.mp member with start | body
  · split at start <;> simp at start
  · obtain ⟨field, _, found⟩ := List.mem_filterMap.mp body
    exact (part?_ne found).1 rfl

theorem clean_normalize_ofString {s : String} (absolute : (ofString s).isAbsolute = true) :
    (ofString s).normalize.Clean := by
  obtain ⟨rest, shape⟩ := FileUri.ofChars_absolute ((isAbsolute_ofChars s.toList).mp absolute)
  exact normalize_clean shape (ofChars_spelled s.toList)

theorem climbing_normalize_ofString {s : String} (relative : (ofString s).isAbsolute = false) :
    (ofString s).normalize.Climbing := by
  have unrooted : Part.root ∉ (ofString s).parts := by
    apply root_not_mem_ofChars
    rw [ne_eq, ← isAbsolute_ofChars]
    simpa [ofString] using relative
  cases shape : (ofString s).normalize with
  | mk parts =>
      have normal := normal_normalize (ofString s)
      have kept : ∀ part ∈ parts, part ∈ (ofString s).parts := fun part member =>
        mem_normalize (by rw [shape]; exact member)
      rw [shape] at normal
      cases normal with
      | absolute names => exact absurd (kept .root List.mem_cons_self) unrooted
      | relative ups names =>
          refine ⟨ups, names, fun n member => ?_, rfl⟩
          exact ofChars_spelled s.toList _ (kept (.name n) (by simp [member]))

/-! ## Reading a normal path back -/

theorem ofChars_intercalate {parts : List Part} (stand : ∀ part ∈ parts, Stands part) :
    ofChars (['/'].intercalate (parts.map fun part => part.text.toList)) = ⟨parts⟩ := by
  have body := filterMap_fields_text stand
  suffices nothing : front (['/'].intercalate (parts.map fun part => part.text.toList)) = [] by
    have whole := ofChars_parts (['/'].intercalate (parts.map fun part => part.text.toList))
    rw [nothing, body] at whole
    exact congrArg mk whole
  cases parts with
  | nil => rfl
  | cons part rest =>
      have fields := fields_text stand
      have back := (stand part List.mem_cons_self).back
      rw [front, if_neg, if_neg]
      · rw [fields]
        intro dot
        have text : part.text.toList = ['.'] := Option.some.inj dot
        rw [text] at back
        cases back
      · -- A separator in front would make the first field empty.
        intro absolute
        obtain ⟨more, shape⟩ := List.head?_eq_some_iff.mp absolute
        rw [shape, ← List.nil_append ('/' :: more), Text.fields_append List.not_mem_nil] at fields
        have text : part.text.toList = [] := (List.cons.inj fields).1.symm
        rw [text] at back
        cases back

theorem toString_of_unrooted {p : Path} (unrooted : Part.root ∉ p.parts) :
    p.toString.toList = ['/'].intercalate (p.parts.map fun part => part.text.toList) := by
  rw [toString]
  split
  · rename_i rest shape
    exact absurd (by rw [shape]; exact List.mem_cons_self) unrooted
  · rw [String.toList_intercalate, List.map_map]
    rfl

theorem Climbing.normalize_eq {p : Path} (climbing : p.Climbing) : p.normalize = p := by
  obtain ⟨ups, names, _, shape⟩ := climbing
  obtain rfl : p = ⟨List.replicate ups .parent ++ names.map Part.name⟩ := by cases p; exact congrArg mk shape
  exact congrArg mk (Normal.relative ups names).foldl_extend

theorem Climbing.stands {p : Path} (climbing : p.Climbing) : ∀ part ∈ p.parts, Stands part := by
  obtain ⟨ups, names, good, shape⟩ := climbing
  intro part member
  rw [shape] at member
  rcases List.mem_append.mp member with up | name
  · exact (List.eq_of_mem_replicate up) ▸ stands_parent
  · exact stands_names good part name

theorem Climbing.ofChars_toString {p : Path} (climbing : p.Climbing) : ofChars p.toString.toList = p := by
  have stand := climbing.stands
  have unrooted : Part.root ∉ p.parts := fun member => absurd (stand .root member).back (by decide)
  rw [toString_of_unrooted unrooted, ofChars_intercalate stand]

/-- What normalisation makes of a spelling is what its own spelling says. -/
theorem ofString_toString_normalize (s : String) :
    ofString (ofString s).normalize.toString = (ofString s).normalize := by
  cases kind : (ofString s).isAbsolute with
  | true => exact ofChars_toString (clean_normalize_ofString kind)
  | false => exact (climbing_normalize_ofString kind).ofChars_toString

/-! ## Joining spellings -/

theorem parts_ofChars_ne_nil {s : List Char} (filled : s ≠ []) : (ofChars s).parts ≠ [] := by
  rw [ofChars_parts, front]
  split
  · exact List.cons_ne_nil _ _
  · rename_i relative
    split
    · exact List.cons_ne_nil _ _
    · rename_i undotted
      obtain ⟨c, rest, rfl⟩ := List.exists_cons_of_ne_nil filled
      have other : c ≠ '/' := fun same => relative (congrArg some same)
      obtain ⟨field, more, _, cut⟩ := Text.fields_cons '/' c rest
      rw [if_neg other] at cut
      rw [cut] at undotted ⊢
      have busy : ¬ ((c :: field) = [] ∨ (c :: field) = ['.']) := by simpa using undotted
      obtain ⟨part, found⟩ : ∃ part, part? (c :: field) = some part := by
        rw [part?, if_neg (by simpa using busy)]
        split <;> exact ⟨_, rfl⟩
      rw [List.nil_append, List.filterMap_cons_some found]
      exact List.cons_ne_nil _ _

theorem join_ofChars {a b : List Char} (filled : a ≠ []) (relative : b.head? ≠ some '/') :
    ((ofChars a).join (ofChars b)).parts = (ofChars a).parts ++ (Text.fields '/' b).filterMap part? := by
  have start := parts_ofChars_ne_nil filled
  have further : ¬ (ofChars b).isAbsolute = true := fun absolute => relative ((isAbsolute_ofChars b).mp absolute)
  have shape := ofChars_parts b
  rw [front, if_neg relative] at shape
  rw [join, if_neg further]
  split
  · rename_i empty
    exact absurd empty start
  · rename_i rest dotted _
    rw [dotted] at shape
    split at shape
    · rw [(List.cons.inj shape).2]
      rfl
    · have member : Part.current ∈ (Text.fields '/' b).filterMap part? := by
        rw [← List.nil_append (List.filterMap _ _), ← shape]
        exact List.mem_cons_self
      obtain ⟨field, _, found⟩ := List.mem_filterMap.mp member
      exact absurd rfl (part?_ne found).2
  · rename_i undotted
    split at shape
    · exact absurd shape (undotted _)
    · rw [shape]
      rfl

/-- A spelling that begins as `a` does and goes on with the fields of a relative `b` is that of the joined path. -/
theorem ofChars_onward {a b s : List Char} {init : List (List Char)} (filled : a ≠ []) (relative : b.head? ≠ some '/')
    (start : s.head? = a.head?) (fields : Text.fields '/' s = init ++ Text.fields '/' b)
    (first : init.head? = (Text.fields '/' a).head?) (body : init.filterMap part? = (Text.fields '/' a).filterMap part?) :
    ofChars s = (ofChars a).join (ofChars b) := by
  have head : (Text.fields '/' s).head? = (Text.fields '/' a).head? := by
    obtain ⟨field, more, shape⟩ := List.exists_cons_of_ne_nil (Text.fields_ne_nil '/' a)
    rw [shape] at first ⊢
    rw [fields, List.head?_append, first]
    rfl
  have parts : (ofChars s).parts = (ofChars a).parts ++ (Text.fields '/' b).filterMap part? := by
    rw [ofChars_parts, ofChars_parts, front, front, start, head, fields, List.filterMap_append, body, List.append_assoc]
  rw [← join_ofChars filled relative] at parts
  exact congrArg mk parts

theorem ofChars_separated {a b : List Char} (filled : a ≠ []) (relative : b.head? ≠ some '/') :
    ofChars (a ++ '/' :: b) = (ofChars a).join (ofChars b) := by
  refine ofChars_onward filled relative ?_ (Text.fields_append_sep '/' a b) rfl rfl
  obtain ⟨c, rest, rfl⟩ := List.exists_cons_of_ne_nil filled
  rfl

theorem ofChars_ended {before b : List Char} (relative : b.head? ≠ some '/') :
    ofChars (before ++ ['/'] ++ b) = (ofChars (before ++ ['/'])).join (ofChars b) := by
  have filled : before ++ ['/'] ≠ [] := by simp
  have cut : Text.fields '/' (before ++ ['/']) = Text.fields '/' before ++ [[]] := Text.fields_append_sep '/' before []
  have whole : Text.fields '/' (before ++ ['/'] ++ b) = Text.fields '/' before ++ Text.fields '/' b := by
    rw [List.append_assoc]
    exact Text.fields_append_sep '/' before b
  have idle : part? [] = none := rfl
  refine ofChars_onward filled relative ?_ whole ?_ ?_
  · cases before <;> rfl
  · obtain ⟨field, more, shape⟩ := List.exists_cons_of_ne_nil (Text.fields_ne_nil '/' before)
    rw [cut, shape]
    rfl
  · rw [cut, List.filterMap_append, List.filterMap_cons_none idle, List.filterMap_nil, List.append_nil]

/-- Spellings are joined as the paths that they spell. -/
theorem ofString_join (a b : String) : ofString (PathText.join a b) = (ofString a).join (ofString b) := by
  simp only [ofString]
  rw [PathText.join]
  split
  · rename_i absolute
    have rooted : (ofChars b.toList).isAbsolute = true := (isAbsolute_ofChars b.toList).mpr absolute
    rw [join, if_pos rooted]
  · rename_i relative
    split
    · rename_i onward
      rw [String.toList_append]
      by_cases filled : a.toList = []
      · have further : ¬ (ofChars b.toList).isAbsolute = true := fun rooted =>
          relative ((isAbsolute_ofChars b.toList).mp rooted)
        rw [filled, List.nil_append, join, if_neg further]
        rfl
      · have ended : a.toList.getLast? = some '/' := by
          simpa [String.isEmpty_iff, ← String.toList_eq_nil_iff, filled] using onward
        obtain ⟨before, shape⟩ := List.getLast?_eq_some_iff.mp ended
        rw [shape]
        exact ofChars_ended relative
    · rename_i unended
      have filled : a.toList ≠ [] := by
        intro empty
        simp [String.toList_eq_nil_iff.mp empty] at unended
      rw [String.toList_append, String.toList_append, List.append_assoc]
      exact ofChars_separated filled relative

/-! ## What normalisation promises -/

/-- Normalised, a spelling is the root and names if it is absolute, and else some `..` and then names; it is so to
    begin with if it has that form. It makes no difference whether a path is normalised before another one is joined to
    it, be it as a path or as it is written. -/
theorem normalize_canonical (a b : String) :
    ((ofString a).isAbsolute = true → (ofString a).normalize.Clean) ∧
      ((ofString a).isAbsolute = false → (ofString a).normalize.Climbing) ∧
      (∀ p : Path, p.Clean ∨ p.Climbing → p.normalize = p ∧ ofString p.toString = p) ∧
      (ofString a).normalize.normalize = (ofString a).normalize ∧
      (ofString (ofString a).normalize.toString).normalize = (ofString a).normalize ∧
      (∀ p q : Path, (p.normalize.join q).normalize = (p.join q).normalize) ∧
      (ofString (PathText.join (ofString a).normalize.toString b)).normalize =
        (ofString (PathText.join a b)).normalize := by
  have fixed : ∀ p : Path, p.Clean ∨ p.Climbing → p.normalize = p ∧ ofString p.toString = p := by
    rintro p (clean | climbing)
    · exact ⟨clean.plain.normalize_eq, ofChars_toString clean⟩
    · exact ⟨climbing.normalize_eq, climbing.ofChars_toString⟩
  refine ⟨clean_normalize_ofString, climbing_normalize_ofString, fixed, normalize_normalize _, ?_,
    normalize_join_normalize, ?_⟩
  · rw [ofString_toString_normalize, normalize_normalize]
  · rw [ofString_join, ofString_join, ofString_toString_normalize, normalize_join_normalize]

/-- A reference that leads out of a relative directory which itself leads out of another one. -/
theorem normalize_canonical_outward :
    (ofString "a/../..//b/.").normalize.toString = "../b" ∧ (ofString "a/../..//b/.").normalize.Climbing ∧
      (ofString "/../x/./y/").normalize.Clean ∧
      (ofString (PathText.join (ofString "a/../..//b/.").normalize.toString "./../../c/")).normalize.toString =
        "../../c" := by
  have joined : (ofString (PathText.join "a/../..//b/." "./../../c/")).normalize.toString = "../../c" := by decide
  obtain ⟨_, climbing, _, _, _, _, same⟩ := normalize_canonical "a/../..//b/." "./../../c/"
  obtain ⟨clean, _⟩ := normalize_canonical "/../x/./y/" ""
  refine ⟨by decide, climbing (by decide), clean (by decide), ?_⟩
  rw [same, joined]

end Path

end QmlIndex
