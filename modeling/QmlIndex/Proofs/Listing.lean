import Mathlib.Data.List.Induction
import Mathlib.Data.List.TakeDrop
import QmlIndex.Proofs.Increasing
import QmlIndex.Proofs.Index.Provenance

/-! # What a listing finds

A listing and the test of a single path go by the same pattern and the same exclusion, but a listing stops at
whatever an ignore file tells it to leave out, in any directory on the way and above, and it does not enter a
directory to find what a rule takes back. So a file is listed if and only if it is there, it is accepted, and the
listing does not stop on the way to it. The two agree where only the ignore files at the root have rules, which the
exclusion has read, and no rule takes another back.
-/

namespace QmlIndex

namespace PathText

/-! ## Spellings of clean paths -/

theorem isIdle_of_isName {n : String} (name : Path.IsName n) : isIdle n.toList = false := by
  have part := name.part
  rw [Path.part?] at part
  split at part
  · simp at part
  · rename_i named
    simpa [isIdle] using named

theorem dropWhile_isIdle {fs : List (List Char)} (busy : ∀ f ∈ fs, isIdle f = false) : fs.dropWhile isIdle = fs := by
  cases fs with
  | nil => rfl
  | cons f rest => rw [List.dropWhile_cons, busy f List.mem_cons_self]; rfl

theorem trimRight_eq {fs : List (List Char)} (busy : ∀ f ∈ fs, isIdle f = false) : trimRight fs = fs := by
  rw [trimRight, dropWhile_isIdle fun f member => busy f (List.mem_reverse.mp member), List.reverse_reverse]

theorem trim_eq {fs : List (List Char)} (busy : ∀ f ∈ fs, isIdle f = false) : trim fs = fs := by
  rw [trim, dropWhile_isIdle busy, trimRight_eq busy]

theorem dropParts_names {names : List String} (good : ∀ n ∈ names, Path.IsName n) (dir : List String) :
    dropParts (dir.map Part.name) (names.map String.toList) =
      if dir.isPrefixOf names then some ((names.drop dir.length).map String.toList) else none := by
  induction dir generalizing names with
  | nil => simp [dropParts]
  | cons d dir ih =>
      cases names with
      | nil => simp [dropParts]
      | cons n rest =>
          have busy : isIdle n.toList = false := isIdle_of_isName (good n List.mem_cons_self)
          have later := ih fun m member => good m (List.mem_cons_of_mem n member)
          simp only [List.map_cons, dropParts, busy, Bool.false_eq_true, if_false, Part.text, String.toList_inj, later]
          by_cases same : n = d
          · simp [same]
          · simp [same, Ne.symm same]

/-- A separator in front of a spelling makes no difference. -/
theorem dropParts_nil_cons (parts : List Part) (fs : List (List Char)) :
    (dropParts parts ([] :: fs)).map trim = (dropParts parts fs).map trim := by
  cases parts with
  | nil =>
      rw [dropParts, dropParts]
      rfl
  | cons part parts => rfl

theorem map_trim_dropParts_names {names : List String} (good : ∀ n ∈ names, Path.IsName n) (dir : List String) :
    (dropParts (dir.map Part.name) (names.map String.toList)).map trim =
      if dir.isPrefixOf names then some ((names.drop dir.length).map String.toList) else none := by
  have busy : ∀ f ∈ (names.drop dir.length).map String.toList, isIdle f = false := by
    intro f member
    obtain ⟨n, listed, rfl⟩ := List.mem_map.mp member
    exact isIdle_of_isName (good n (List.mem_of_mem_drop listed))
  rw [dropParts_names good]
  split
  · rw [Option.map_some, trim_eq busy]
  · rfl

/-- Taken off the spelling of a clean path, a directory leaves the spelling of what lies below it. -/
theorem below?_toString {root p : Path} (dir : root.Clean) (clean : p.Clean) :
    below? root p.toString = (root.below? p).map Matcher.partFields := by
  obtain ⟨⟨above, _, shape⟩, ⟨names, good, whole⟩⟩ := dir, clean
  have first : p.toString.toList.head? = some '/' := by
    obtain ⟨rest, spelled⟩ := FileUri.toString_of_plain ⟨names, whole⟩
    rw [spelled]
    rfl
  have under : root.below? p =
      if above.isPrefixOf names then some ((names.drop above.length).map Part.name) else none := by
    have inside : (above.map Part.name).isPrefixOf (names.map Part.name) = above.isPrefixOf names := by
      rw [Bool.eq_iff_iff, List.isPrefixOf_iff_prefix, List.isPrefixOf_iff_prefix]
      exact List.prefix_map_iff_of_injective (fun _ _ same => Part.name.inj same)
    simp [Path.below?, shape, whole, inside, ← List.map_drop]
  have spelled : (dropParts (above.map Part.name) (Text.fields '/' p.toString.toList)).map trim =
      (dropParts (above.map Part.name) (names.map String.toList)).map trim := by
    obtain rfl : p = ⟨.root :: names.map Part.name⟩ := congrArg Path.mk whole
    cases names with
    | nil => exact (dropParts_nil_cons _ _).trans (dropParts_nil_cons _ _)
    | cons n rest => rw [Path.fields_toString good, dropParts_nil_cons]
  rw [below?, if_pos first, under, shape, List.tail_cons, spelled, map_trim_dropParts_names good]
  split
  · rw [Option.map_some, Matcher.partFields, List.map_map]
    rfl
  · rfl

end PathText

/-! ## Rules that take nothing back -/

namespace Ignore

/-- The rule speaks of a path. -/
def Rule.Hits (r : Rule) (path : List Char) (isDirectory : Bool) : Prop :=
  ((!r.onlyDirectories || isDirectory) && matchesPath r.parts (String.ofList path).toUTF8.toList) = true

/-- No rule takes an earlier one back. -/
def Rules.Firm (rules : Rules) : Prop := ∀ r ∈ rules, r.isException = false

theorem Verdict.ignored_of_orElse {v w : Verdict} (h : v.orElse w = .ignored) : v = .ignored ∨ w = .ignored := by
  cases v with
  | ignored => exact .inl rfl
  | kept => simp [orElse] at h
  | silent => exact .inr h

namespace Rules

variable {rules : Rules} {path : List Char} {isDirectory : Bool}

theorem exists_hits (h : rules.verdict path isDirectory = .ignored) : ∃ r ∈ rules, r.Hits path isDirectory := by
  simp only [verdict] at h
  split at h
  · rename_i r found
    have hits := List.find?_some found
    exact ⟨r, List.mem_reverse.mp (List.mem_of_find?_eq_some found), hits⟩
  · simp at h

theorem Firm.ignored_iff (firm : rules.Firm) :
    rules.verdict path isDirectory = .ignored ↔ ∃ r ∈ rules, r.Hits path isDirectory := by
  refine ⟨exists_hits, ?_⟩
  rintro ⟨r, member, hits⟩
  simp only [verdict]
  split
  · rename_i d found
    rw [firm d (List.mem_reverse.mp (List.mem_of_find?_eq_some found))]
    rfl
  · rename_i nothing
    exact absurd hits (List.find?_eq_none.mp nothing r (List.mem_reverse.mpr member))

theorem Firm.orElse_iff (firm : rules.Firm) {v : Verdict} :
    (rules.verdict path isDirectory).orElse v = .ignored ↔ rules.verdict path isDirectory = .ignored ∨ v = .ignored := by
  refine ⟨Verdict.ignored_of_orElse, ?_⟩
  have kept : rules.verdict path isDirectory ≠ .kept := by
    simp only [verdict]
    split
    · rename_i r found
      rw [firm r (List.mem_reverse.mp (List.mem_of_find?_eq_some found))]
      simp
    · simp
  rcases said : rules.verdict path isDirectory with _ | _ | _
  · simp [Verdict.orElse]
  · exact absurd said kept
  · simp [Verdict.orElse]

end Rules

namespace Exclusion

variable {e : Exclusion}

theorem verdictUpwards_concat {rules : Rules} {dir : List (List Char)} (busy : ∀ f ∈ dir, PathText.isIdle f = false)
    (last : List Char) :
    verdictUpwards rules (dir ++ [last]) =
      (rules.verdict (PathText.unfields dir) true).orElse (verdictUpwards rules dir) := by
  have above : PathText.parent? (dir ++ [last]) = some dir := by
    simp [PathText.parent?, PathText.trimRight_eq busy]
  rw [verdictUpwards]
  split
  · rename_i nothing
    simp [above] at nothing
  · rename_i found
    rw [above] at found
    rw [Option.some.inj found]

/-- Firm rules exclude what they name and all that lies in it. -/
theorem covers_iff (firm : e.rules.Firm) {fs : List (List Char)} (busy : ∀ f ∈ fs, PathText.isIdle f = false)
    (isDirectory : Bool) :
    e.covers fs isDirectory = true ↔ fs ≠ [] ∧ (e.rules.verdict (PathText.unfields fs) isDirectory = .ignored ∨
      ∃ dir, dir <+: fs ∧ dir ≠ fs ∧ e.rules.verdict (PathText.unfields dir) true = .ignored) := by
  have upwards : verdictUpwards e.rules fs = .ignored ↔
      ∃ dir, dir <+: fs ∧ dir ≠ fs ∧ e.rules.verdict (PathText.unfields dir) true = .ignored := by
    induction fs using List.reverseRecOn with
    | nil => simp [verdictUpwards, PathText.parent?]
    | append_singleton fs last ih =>
        have above : ∀ f ∈ fs, PathText.isIdle f = false := fun f member => busy f (List.mem_append_left _ member)
        rw [verdictUpwards_concat above, firm.orElse_iff, ih above]
        constructor
        · rintro (here | ⟨dir, inside, _, ignored⟩)
          · exact ⟨fs, List.prefix_append fs [last], by simp, here⟩
          · refine ⟨dir, inside.trans (List.prefix_append fs [last]), ?_, ignored⟩
            rintro rfl
            have shorter := inside.length_le
            rw [List.length_append, List.length_singleton] at shorter
            omega
        · rintro ⟨dir, inside, strict, ignored⟩
          have within := (List.prefix_concat_iff.mp inside).resolve_left strict
          by_cases same : dir = fs
          · exact .inl (same ▸ ignored)
          · exact .inr ⟨dir, within, same, ignored⟩
  simp [covers, firm.orElse_iff, upwards]

/-- What lies in something that firm rules exclude is excluded. -/
theorem covers_of_prefix (firm : e.rules.Firm) {way fs : List (List Char)}
    (busy : ∀ f ∈ fs, PathText.isIdle f = false) (inside : way <+: fs)
    (h : e.covers way (decide (way ≠ fs)) = true) : e.covers fs false = true := by
  by_cases same : way = fs
  · simpa [same] using h
  · have busy_way : ∀ f ∈ way, PathText.isIdle f = false := fun f member => busy f (inside.subset member)
    obtain ⟨something, ignored⟩ := (covers_iff firm busy_way _).mp h
    rw [decide_eq_true same] at ignored
    refine (covers_iff firm busy _).mpr ⟨?_, .inr ?_⟩
    · rintro rfl
      exact something (List.prefix_nil.mp inside)
    · rcases ignored with here | ⟨dir, above, strict, ignored⟩
      · exact ⟨way, inside, same, here⟩
      · refine ⟨dir, above.trans inside, ?_, ignored⟩
        rintro rfl
        exact strict (above.eq_of_length_le inside.length_le)

end Exclusion

end Ignore

/-! ## Listings -/

namespace Path

theorem below?_eq_some {root p : Path} {below : List Part} :
    root.below? p = some below ↔ p = ⟨root.parts ++ below⟩ := by
  simp only [below?]
  constructor
  · intro found
    split at found
    · rename_i inside
      obtain ⟨rest, whole⟩ := List.isPrefixOf_iff_prefix.mp inside
      obtain rfl := Option.some.inj found
      rw [← whole, List.drop_left, whole]
    · simp at found
  · rintro rfl
    simp

theorem child_inj {p q : Path} {a b : String} (same : p.child a = q.child b) : p = q ∧ a = b := by
  obtain ⟨parts, last⟩ := List.append_inj' (congrArg Path.parts same) rfl
  exact ⟨congrArg Path.mk parts, by simpa using last⟩

theorem Plain.child {p : Path} (plain : p.Plain) (n : String) : (p.child n).Plain := by
  obtain ⟨names, shape⟩ := plain
  exact ⟨names ++ [n], by simp [Path.child, shape]⟩

end Path

namespace Matcher

open Ignore

variable {m : Matcher} {P : ByteArray → Prop} {t : FileTree} {p : Path}

theorem mem_filesBelow {place : Path} {below : List Part} :
    below ∈ filesBelow t place ↔ ∃ f, t.nodes.get? ⟨place.parts ++ below⟩ = some (.file f) := by
  simp only [filesBelow, List.mem_filterMap, Prod.exists]
  constructor
  · rintro ⟨path, node, listed, found⟩
    cases node with
    | directory => simp at found
    | file f =>
        rw [← Path.below?_eq_some.mp found]
        exact ⟨f, OrdMap.get?_eq_some.mpr listed⟩
  · rintro ⟨f, there⟩
    exact ⟨_, .file f, OrdMap.get?_eq_some.mp there, Path.below?_eq_some.mpr rfl⟩

theorem increasing_walk (root : m.root.Plain) : Increasing (m.walk t) := by
  rw [walk]
  split
  · rename_i place located
    obtain rfl := FileTree.locate_plain root located
    rw [Increasing, List.pairwise_map]
    -- What is listed are the paths of the tree's entries, which are in order.
    apply List.Pairwise.filter
    refine List.Pairwise.filterMap _ ?_ t.nodes.sorted
    rintro ⟨p, a⟩ ⟨q, b⟩ before below here other there
    cases a with
    | directory => simp at here
    | file f =>
        cases b with
        | directory => simp at there
        | file g => rwa [← Path.below?_eq_some.mp here, ← Path.below?_eq_some.mp there]
  · exact List.Pairwise.nil

theorem reaches_iff {place : Path} {below : List Part} :
    m.reaches t place below = true ↔
      ∀ way, way <+: below → way ≠ [] → m.prunes t place way (decide (way ≠ below)) = false := by
  have whole : ∀ i < below.length, decide (i + 1 < below.length) = decide (below.take (i + 1) ≠ below) := by
    intro i inside
    rw [decide_eq_decide, ne_eq, List.take_eq_self_iff]
    omega
  simp only [reaches, List.all_eq_true, List.mem_range, Bool.not_eq_true']
  constructor
  · intro all way inside something
    have length := List.length_pos_iff.mpr something
    have short := inside.length_le
    have free := all (way.length - 1) (by omega)
    rwa [whole _ (by omega), Nat.sub_add_cancel length, ← List.prefix_iff_eq_take.mp inside] at free
  · intro all i inside
    rw [whole i inside]
    refine all _ (List.take_prefix _ _) ?_
    intro nothing
    have length := congrArg List.length nothing
    simp only [List.length_take, List.length_nil] at length
    omega

theorem mem_walk (located : t.locate m.root = .ok m.root) :
    p ∈ m.walk t ↔ (∃ f, t.nodes.get? p = some (.file f)) ∧ ∃ below, m.root.below? p = some below ∧
      m.selects (partFields below) = true ∧ m.reaches t m.root below = true := by
  simp only [walk, located, List.mem_map, List.mem_filter, mem_filesBelow, Bool.and_eq_true, Path.below?_eq_some]
  constructor
  · rintro ⟨below, ⟨there, selected, reached⟩, rfl⟩
    exact ⟨there, below, rfl, selected, reached⟩
  · rintro ⟨there, below, rfl, selected, reached⟩
    exact ⟨below, ⟨there, selected, reached⟩, rfl⟩

theorem accepts_iff (root : m.root.Clean) (clean : p.Clean) :
    m.accepts p.toString = true ↔ ∃ below, m.root.below? p = some below ∧ m.selects (partFields below) = true := by
  rw [accepts, PathText.below?_toString root clean]
  cases m.root.below? p <;> simp

/-- A listing does not go on at a place on the way to a file: an ignore file tells it so, or the place is excluded. -/
def StopsAt (m : Matcher) (t : FileTree) (p place : Path) : Prop :=
  ∃ way, m.root.below? place = some way ∧ m.prunes t m.root way (decide (place ≠ p)) = true

theorem not_stopsAt_iff {below : List Part} (whole : m.root.below? p = some below) :
    (∀ place, m.root.isAbove place → place.isAbove p → place ≠ m.root → ¬ m.StopsAt t p place) ↔
      m.reaches t m.root below = true := by
  obtain rfl := Path.below?_eq_some.mp whole
  have here : ∀ way, (⟨m.root.parts ++ way⟩ : Path) ≠ ⟨m.root.parts ++ below⟩ ↔ way ≠ below := by simp
  rw [reaches_iff]
  constructor
  · intro free way inside something
    have goes : ¬ m.StopsAt t ⟨m.root.parts ++ below⟩ ⟨m.root.parts ++ way⟩ := by
      apply free
      · simp [Path.isAbove]
      · simpa [Path.isAbove] using inside
      · intro same
        exact something (by simpa using congrArg Path.parts same)
    rw [← Bool.not_eq_true, ← decide_eq_decide.mpr (here way)]
    exact fun pruned => goes ⟨way, Path.below?_eq_some.mpr rfl, pruned⟩
  · rintro free place _ above other ⟨way, found, pruned⟩
    obtain rfl := Path.below?_eq_some.mp found
    have inside : way <+: below := by simpa [Path.isAbove] using above
    rw [decide_eq_decide.mpr (here way), free way inside (by rintro rfl; simp at other)] at pruned
    simp at pruned

/-! ## Ignore files at the root -/

/-- What an ignore file tells a listing to leave out, it names from the directory that it is in. -/
theorem ignored_of_verdictOfFiles {kind : List String} {isDirectory : Bool} {above below : List Part}
    (h : verdictOfFiles t kind isDirectory above below = .ignored) :
    ∃ inner dir, above = inner ++ dir ∧
      (Rules.ofFile t (kind.foldl Path.child ⟨.root :: dir.reverse⟩)).verdict
        (PathText.unfields (partFields (inner.reverse ++ below))) isDirectory = .ignored := by
  induction above generalizing below with
  | nil => exact ⟨[], [], rfl, h⟩
  | cons part above ih =>
      rw [verdictOfFiles] at h
      rcases Verdict.ignored_of_orElse h with here | further
      · exact ⟨[], part :: above, rfl, here⟩
      · obtain ⟨inner, dir, rfl, ignored⟩ := ih further
        exact ⟨part :: inner, dir, rfl, by simpa using ignored⟩

theorem ignored_of_verdictOfPlace {parts : List Part} {isDirectory : Bool}
    (h : verdictOfPlace t ⟨.root :: parts⟩ isDirectory = .ignored) :
    ∃ kind ∈ ignoreFiles, ∃ dir below, parts = dir ++ below ∧
      (Rules.ofFile t (kind.foldl Path.child ⟨.root :: dir⟩)).verdict
        (PathText.unfields (partFields below)) isDirectory = .ignored := by
  rcases List.eq_nil_or_concat parts with rfl | ⟨above, last, rfl⟩
  · simp [verdictOfPlace] at h
  · have some_kind : ∃ kind ∈ ignoreFiles, verdictOfFiles t kind isDirectory above.reverse [last] = .ignored := by
      simp only [verdictOfPlace, List.tail_cons, List.concat_eq_append, List.reverse_append, List.reverse_singleton,
        List.singleton_append, ignoreFiles, List.foldl_cons, List.foldl_nil, Verdict.orElse] at h
      rcases Verdict.ignored_of_orElse h with h | third
      · rcases Verdict.ignored_of_orElse h with first | second
        · exact ⟨[".ignore"], by simp [ignoreFiles], first⟩
        · exact ⟨[".gitignore"], by simp [ignoreFiles], second⟩
      · exact ⟨[".git", "info", "exclude"], by simp [ignoreFiles], third⟩
    obtain ⟨kind, listed, ignored⟩ := some_kind
    obtain ⟨inner, dir, split, ignored⟩ := ignored_of_verdictOfFiles ignored
    refine ⟨kind, listed, dir.reverse, inner.reverse ++ [last], ?_, ignored⟩
    have order := congrArg List.reverse split
    rw [List.reverse_reverse, List.reverse_append] at order
    simp [order]

/-- Only the ignore files at the root have rules, the exclusion has read them, and no rule takes another back. -/
structure RootOnly (m : Matcher) (t : FileTree) : Prop where
  read : ∃ patterns, m.exclusion = some (.load t m.root patterns)
  only : ∀ kind ∈ ignoreFiles, ∀ dir : Path, dir.Plain → Rules.ofFile t (kind.foldl Path.child dir) ≠ [] →
    dir = m.root ∧ kind ≠ [".git", "info", "exclude"]
  firm : ∀ e ∈ m.exclusion, e.rules.Firm

theorem RootOnly.mem_rules (h : m.RootOnly t) {e : Exclusion} (excluded : m.exclusion = some e) {kind : List String}
    (listed : kind ∈ ignoreFiles) {dir : Path} (plain : dir.Plain) {r : Rule}
    (member : r ∈ Rules.ofFile t (kind.foldl Path.child dir)) : dir = m.root ∧ r ∈ e.rules := by
  obtain ⟨patterns, read⟩ := h.read
  obtain rfl := Option.some.inj (excluded.symm.trans read)
  obtain ⟨rfl, other⟩ := h.only kind listed dir plain (List.ne_nil_of_mem member)
  refine ⟨rfl, ?_⟩
  rw [Exclusion.load]
  simp only [ignoreFiles, List.mem_cons, List.not_mem_nil, or_false] at listed
  rcases listed with rfl | rfl | rfl
  · exact List.mem_append_left _ (List.mem_append_right _ member)
  · exact List.mem_append_left _ (List.mem_append_left _ member)
  · exact absurd rfl other

/-- A listing stops only at what is excluded. -/
theorem RootOnly.leavesOut (h : m.RootOnly t) {way : List Part} {isDirectory : Bool}
    (root : m.root.Plain) (plain : Path.Plain ⟨m.root.parts ++ way⟩) (something : way ≠ [])
    (pruned : m.prunes t m.root way isDirectory = true) : m.leavesOut (partFields way) isDirectory = true := by
  rw [prunes, Bool.or_eq_true, beq_iff_eq] at pruned
  rcases pruned with ignored | excluded
  · obtain ⟨above, shape⟩ := root
    obtain ⟨names, whole⟩ := plain
    simp only [shape, List.cons_append, List.cons.injEq, true_and] at ignored whole
    obtain ⟨kind, listed, dir, below, split, ignored⟩ := ignored_of_verdictOfPlace ignored
    obtain ⟨r, member, hits⟩ := Rules.exists_hits ignored
    obtain ⟨some_names, _, _, rfl, _⟩ := List.map_eq_append_iff.mp (whole.symm.trans split)
    obtain ⟨patterns, read⟩ := h.read
    obtain ⟨here, member⟩ := h.mem_rules read listed ⟨some_names, rfl⟩ member
    -- The rule stands at the root, so it speaks of the place from there, as the exclusion does.
    obtain rfl : below = way := by
      have parts := congrArg Path.parts here
      rw [shape, List.cons.injEq] at parts
      rw [parts.2] at split
      exact (List.append_cancel_left split).symm
    have firm := h.firm _ read
    have nonempty : partFields below ≠ [] := by simpa [partFields] using something
    simp only [Matcher.leavesOut, read, Option.any_some, Exclusion.covers, Bool.and_eq_true, beq_iff_eq,
      firm.orElse_iff]
    exact ⟨by simpa using nonempty, .inl (firm.ignored_iff.mpr ⟨r, member, hits⟩)⟩
  · exact excluded

theorem partFields_busy {below : List Part} (clean : Path.Clean ⟨m.root.parts ++ below⟩) (root : m.root.Plain) :
    ∀ f ∈ partFields below, PathText.isIdle f = false := by
  obtain ⟨above, shape⟩ := root
  obtain ⟨names, good, whole⟩ := clean
  simp only [shape, List.cons_append, List.cons.injEq, true_and] at whole
  obtain ⟨_, rest, rfl, _, rfl⟩ := List.map_eq_append_iff.mp whole.symm
  intro f member
  simp only [partFields, List.map_map, List.mem_map, Function.comp_apply] at member
  obtain ⟨n, listed, rfl⟩ := member
  exact PathText.isIdle_of_isName (good n (List.mem_append_right _ listed))

theorem RootOnly.reaches (h : m.RootOnly t) (root : m.root.Plain) {below : List Part}
    (clean : Path.Clean ⟨m.root.parts ++ below⟩) (selected : m.selects (partFields below) = true) :
    m.reaches t m.root below = true := by
  obtain ⟨patterns, read⟩ := h.read
  have kept : ¬ m.leavesOut (partFields below) false = true := by
    rw [selects, Bool.and_eq_true, Bool.not_eq_true'] at selected
    simp [selected.2]
  rw [reaches_iff]
  rintro way ⟨rest, rfl⟩ something
  rw [← Bool.not_eq_true]
  intro pruned
  have plain : Path.Plain ⟨m.root.parts ++ way⟩ := by
    obtain ⟨above, shape⟩ := root
    obtain ⟨names, _, whole⟩ := clean
    simp only [shape, List.cons_append, List.cons.injEq, true_and, ← List.append_assoc] at whole
    obtain ⟨some_names, _, _, same, _⟩ := List.map_eq_append_iff.mp whole.symm
    exact ⟨some_names, by rw [shape, same, List.cons_append]⟩
  have excluded := h.leavesOut root plain something pruned
  have same : (way ≠ way ++ rest) ↔ (partFields way ≠ partFields (way ++ rest)) := by simp [partFields]
  rw [decide_eq_decide.mpr same] at excluded
  simp only [Matcher.leavesOut, read, Option.any_some] at excluded kept
  refine kept (Exclusion.covers_of_prefix (h.firm _ read) (partFields_busy clean root) ?_ excluded)
  rw [partFields, partFields, List.map_append]
  exact List.prefix_append _ _

/-- A listing is in order and without repetition. It has a file if and only if the file is there, is accepted, and the
    listing does not stop on the way to it. Where only the ignore files at the root have rules and no rule takes
    another back, it has exactly the files that are accepted. -/
theorem walk_exact (root : FileUri.Canonical m.root) (proper : t.Proper P) (there : t.isDirectory m.root = true) :
    Increasing (m.walk t) ∧
    (∀ p, p ∈ m.walk t ↔ (∃ f, t.nodes.get? p = some (.file f)) ∧ m.accepts p.toString = true ∧
      ∀ place, m.root.isAbove place → place.isAbove p → place ≠ m.root → ¬ m.StopsAt t p place) ∧
    (m.RootOnly t → ∀ p, p ∈ m.walk t ↔ (∃ f, t.nodes.get? p = some (.file f)) ∧ m.accepts p.toString = true) := by
  have clean := FileUri.canonical_iff_clean.mp root
  have located : t.locate m.root = .ok m.root := by
    rw [FileTree.isDirectory] at there
    split at there
    · rename_i found
      obtain ⟨place, located, _⟩ := FileTree.find_eq_ok.mp found
      rw [located, FileTree.locate_plain clean.plain located]
    · simp at there
  have spelled : ∀ {p f}, t.nodes.get? p = some (.file f) → p.Clean :=
    fun found => FileUri.canonical_iff_clean.mp (proper.canonical found)
  refine ⟨increasing_walk clean.plain, fun p => ?_, fun only p => ?_⟩
  · rw [mem_walk located]
    refine and_congr_right fun ⟨f, found⟩ => ?_
    rw [accepts_iff clean (spelled found)]
    constructor
    · rintro ⟨below, whole, selected, reached⟩
      exact ⟨⟨below, whole, selected⟩, (not_stopsAt_iff whole).mpr reached⟩
    · rintro ⟨⟨below, whole, selected⟩, free⟩
      exact ⟨below, whole, selected, (not_stopsAt_iff whole).mp free⟩
  · rw [mem_walk located]
    refine and_congr_right fun ⟨f, found⟩ => ?_
    rw [accepts_iff clean (spelled found)]
    refine exists_congr fun below => and_congr_right fun whole => ?_
    refine and_iff_left_of_imp fun selected => only.reaches clean.plain ?_ selected
    rw [← Path.below?_eq_some.mp whole]
    exact spelled found

/-! ## Two workspaces

In the first the ignore file stands at the root and names one of two documents. In the second it stands in a
directory, and names the document beside it. -/

namespace Ignoring

def root : Path := ⟨[.root, .name "w"]⟩

def glob : Glob := ⟨[.anyDirs, .anyRun, .char '.', .char 'q', .char 'm', .char 'l']⟩

def file (text : String) : Node := .file ⟨text.toUTF8, 5⟩

def matching (t : FileTree) : Matcher := ⟨root, glob, some (.load t root [])⟩

-- The first workspace.
def kept : Path := root.child "A.qml"

def named : Path := root.child "B.qml"

def flat : FileTree where
  nodes := (((FileTree.empty.nodes.insert root (.directory 1)).insert (root.child ".gitignore") (file "B.qml\n")).insert
    kept (file "Item \x7b\x7d\n")).insert named (file "Item \x7b\x7d\n")

-- The second workspace.
def directory : Path := root.child "q"

def document : Path := directory.child "A.qml"

def nested : FileTree where
  nodes := (((FileTree.empty.nodes.insert root (.directory 1)).insert directory (.directory 1)).insert
    (directory.child ".gitignore") (file "A.qml\n")).insert document (file "Item \x7b\x7d\n")

theorem flat_proper : flat.Proper fun _ => True := by
  refine (((FileTree.proper_empty.insert ?_ ?_).insert ?_ ?_).insert ?_ ?_).insert ?_ ?_
  all_goals first | rfl | simp

/-- Rules can be read only from the files at the root. -/
theorem flat_rules {p : Path} {name : String} (plain : p.Plain) (rules : Rules.ofFile flat (p.child name) ≠ []) :
    p = root ∧ (name = ".gitignore" ∨ name = "A.qml" ∨ name = "B.qml") := by
  have readable : ∃ f, flat.file (p.child name) = .ok f := by
    rw [Rules.ofFile] at rules
    split at rules
    · rename_i f found
      exact ⟨f, found⟩
    · simp at rules
  obtain ⟨f, found⟩ := readable
  obtain ⟨place, located, _, here⟩ := FileTree.get?_of_file found
  obtain rfl := FileTree.locate_plain (plain.child name) located
  have somewhere : p.child name = named ∨ p.child name = kept ∨ p.child name = root.child ".gitignore" := by
    by_contra elsewhere
    simp only [not_or] at elsewhere
    simp [flat, OrdMap.get?_insert, elsewhere, FileTree.empty] at here
  rcases somewhere with same | same | same
  all_goals exact ⟨(Path.child_inj same).1, by simp [(Path.child_inj same).2]⟩

theorem flat_firm : (Exclusion.load flat root []).rules.Firm := by
  have checked : ((Exclusion.load flat root []).rules.all fun r => !r.isException) = true := by decide +kernel
  intro r member
  simpa using List.all_eq_true.mp checked r member

theorem flat_rootOnly : (matching flat).RootOnly flat where
  read := ⟨[], rfl⟩
  only := by
    intro kind listed dir plain rules
    simp only [ignoreFiles, List.mem_cons, List.not_mem_nil, or_false] at listed
    rcases listed with rfl | rfl | rfl
    · exact ⟨(flat_rules plain rules).1, by simp⟩
    · exact ⟨(flat_rules plain rules).1, by simp⟩
    · have last := (flat_rules ((plain.child ".git").child "info") rules).2
      simp at last
  firm := by
    intro e here
    obtain rfl := Option.some.inj here
    exact flat_firm

end Ignoring

open Ignoring in
theorem walk_exact_flat : kept ∈ (matching flat).walk flat ∧ named ∉ (matching flat).walk flat := by
  obtain ⟨_, _, agree⟩ := walk_exact (m := matching flat) rfl flat_proper (by decide)
  have accepted : (matching flat).accepts kept.toString = true := by decide +kernel
  have refused : ¬ (matching flat).accepts named.toString = true := by decide +kernel
  constructor
  · exact (agree flat_rootOnly kept).mpr ⟨⟨_, rfl⟩, accepted⟩
  · exact fun listed => refused ((agree flat_rootOnly named).mp listed).2

open Ignoring in
/-- A file that is there and is accepted need not be listed. -/
theorem accepted_not_listed :
    (∃ f, nested.nodes.get? document = some (.file f)) ∧ (matching nested).accepts document.toString = true ∧
      document ∉ (matching nested).walk nested := by
  refine ⟨⟨_, rfl⟩, ?_, ?_⟩
  · decide +kernel
  · decide +kernel

end Matcher

end QmlIndex
