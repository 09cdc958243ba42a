import Mathlib.Order.Defs.Unbundled
import QmlIndex.Proofs.CanonicalPath
import QmlIndex.Proofs.Increasing

/-! # The identity of a document

All spellings of a document come down to one text, which is the key of its row: documents are the same if and only if
their texts are, and edge lists are in an order of documents that agrees with this. A text is turned down only if what
is left without the scheme is no absolute path.
-/

namespace QmlIndex.FileUri

open Text

/-! ## The text of a document -/

/-- The text of an absolute path from which nothing can be left out. -/
structure Tidy (s : List Char) : Prop where
  absolute : s.head? = some '/'
  single : ¬ ['/', '/'] <:+: s
  /-- Only the root ends in a separator. -/
  ended : s.getLast? = some '/' → s = ['/']
  undotted : ∀ field ∈ fields '/' s, field ≠ ['.'] ∧ field ≠ ['.', '.']

theorem ne_of_isName {n : String} (good : Path.IsName n) :
    n.toList ≠ [] ∧ n.toList ≠ ['.'] ∧ n.toList ≠ ['.', '.'] := by
  have part := good.part
  refine ⟨fun same => ?_, fun same => ?_, fun same => ?_⟩ <;> rw [same] at part <;> cases part

/-- Behind a separator there are only names, so neither a separator nor the end can follow. -/
theorem filled_behind {before after : List Char} {names : List (List Char)}
    (cut : fields '/' (before ++ '/' :: after) = [] :: names) (filled : ∀ field ∈ names, field ≠ []) :
    ∀ field ∈ fields '/' after, field ≠ [] := by
  intro field member
  obtain ⟨first, more, split⟩ := List.exists_cons_of_ne_nil (fields_ne_nil '/' before)
  rw [fields_append_sep, split, List.cons_append] at cut
  apply filled
  rw [← (List.cons.inj cut).2]
  exact List.mem_append_right more member

/-- An absolute text is tidy if behind its first separator there are only names. -/
theorem tidy_of_fields {s : List Char} {names : List (List Char)} (start : s.head? = some '/')
    (cut : fields '/' s = [] :: names) (named : ∀ field ∈ names, field ≠ [] ∧ field ≠ ['.'] ∧ field ≠ ['.', '.']) :
    Tidy s := by
  have filled : ∀ field ∈ names, field ≠ [] := fun field member => (named field member).1
  refine ⟨start, ?_, fun last => ?_, fun field member => ?_⟩
  · rintro ⟨before, after, rfl⟩
    rw [List.append_assoc] at cut
    have empty : [] ∈ fields '/' ('/' :: after) := by
      rw [← List.nil_append ('/' :: after), fields_append List.not_mem_nil]
      exact List.mem_cons_self
    exact filled_behind cut filled [] empty rfl
  · obtain ⟨before, rfl⟩ := List.getLast?_eq_some_iff.mp last
    exact absurd rfl (filled_behind cut filled [] List.mem_cons_self)
  · rw [cut] at member
    rcases List.mem_cons.mp member with rfl | name
    · decide
    · exact (named field name).2

theorem tidy_of_clean {u : FileUri} (clean : u.Clean) : Tidy u.toString.toList := by
  obtain ⟨names, good, shape⟩ := clean
  obtain rfl : u = ⟨.root :: names.map Part.name⟩ := by cases u; exact congrArg Path.mk shape
  cases names with
  | nil =>
      rw [Path.toString_clean]
      exact ⟨rfl, by decide, fun _ => rfl, by decide⟩
  | cons n rest =>
      have start : (Path.mk (.root :: (n :: rest).map Part.name)).toString.toList.head? = some '/' := by
        rw [Path.toString_clean]
        rfl
      refine tidy_of_fields start (Path.fields_toString good) fun field member => ?_
      obtain ⟨m, listed, rfl⟩ := List.mem_map.mp member
      exact ne_of_isName (good m listed)

/-! ## Reading a document's name -/

/-- The document is one that a text leads to, or a path in some working directory. -/
inductive Issued (u : FileUri) : Prop where
  | parsed (text : String) : parse text = .ok u → Issued u
  | located (cwd path : String) : cwd.toList.head? = some '/' → ofPath (Path.ofString cwd) path = .ok u → Issued u

theorem Issued.clean {u : FileUri} (issued : Issued u) : u.Clean := by
  cases issued with
  | parsed text found => exact parse_clean found
  | located cwd path absolute found =>
      obtain ⟨rest, rooted⟩ := ofChars_absolute absolute
      exact ofPath_clean rooted (Path.ofChars_spelled cwd.toList) found

theorem dropStart?_append (start s : List Char) : dropStart? start (start ++ s) = some s := by
  rw [dropStart?, if_pos (List.isPrefixOf_iff_prefix.mpr (List.prefix_append start s)), List.drop_left]

theorem dropStart?_eq_none {start s : List Char} (other : ¬ start <+: s) : dropStart? start s = none := by
  rw [dropStart?, if_neg (fun front => other (List.isPrefixOf_iff_prefix.mp front))]

/-- What a text says without the scheme. -/
def bare (text : String) : List Char := (dropStart? scheme text.toList).getD text.toList

theorem bare_scheme (s : String) : bare ("file://" ++ s) = s.toList := by
  rw [bare, String.toList_append]
  exact congrArg (Option.getD · _) (dropStart?_append scheme s.toList)

theorem bare_of_other {text : String} (other : ¬ scheme <+: text.toList) : bare text = text.toList := by
  rw [bare, dropStart?_eq_none other, Option.getD_none]

theorem bare_of_absolute {s : String} (absolute : s.toList.head? = some '/') : bare s = s.toList := by
  obtain ⟨rest, shape⟩ := List.head?_eq_some_iff.mp absolute
  rw [bare, shape]
  rfl

theorem parse_iff {text : String} {u : FileUri} :
    parse text = .ok u ↔ (bare text).head? = some '/' ∧ u = (Path.ofChars (bare text)).normalize := by
  constructor
  · intro read
    obtain ⟨raw, same, absolute, shape⟩ := parse_eq_ok read
    obtain rfl : raw = bare text := same
    exact ⟨absolute, shape⟩
  · rintro ⟨absolute, rfl⟩
    have filled : bare text ≠ [] := by
      intro empty
      rw [empty] at absolute
      cases absolute
    rw [parse, ← bare, if_neg filled, if_neg fun relative => relative absolute]

theorem parse_fails_iff {text : String} :
    (∃ e, parse text = .error e) ↔ bare text = [] ∨ (bare text).head? ≠ some '/' := by
  have relative : bare text = [] ∨ (bare text).head? ≠ some '/' ↔ (bare text).head? ≠ some '/' := by
    refine or_iff_right_of_imp fun empty => ?_
    rw [empty]
    exact nofun
  rw [relative]
  constructor
  · rintro ⟨e, failed⟩ absolute
    rw [parse_iff.mpr ⟨absolute, rfl⟩] at failed
    cases failed
  · intro other
    cases read : parse text with
    | error e => exact ⟨e, rfl⟩
    | ok u => exact absurd (parse_iff.mp read).1 other

theorem parse_render {u : FileUri} (clean : u.Clean) : parse u.render = .ok u := by
  have back : parse u.toString = .ok u := canonical_iff_clean.mpr clean
  have same : bare u.render = bare u.toString := by
    rw [render, bare_scheme, bare_of_absolute (tidy_of_clean clean).absolute]
  rw [parse_iff] at back ⊢
  rwa [same]

/-! ## The order of documents -/

theorem isStrictTotalOrder_compare : IsStrictTotalOrder FileUri fun u v => compare u v = .lt where
  irrefl u := by simp [Std.ReflCmp.compare_self]
  trans _ _ _ := Std.TransCmp.lt_trans
  trichotomous u v before behind := by
    cases order : compare u v with
    | lt => exact absurd order before
    | eq => exact Std.LawfulEqCmp.eq_of_compare order
    | gt => exact absurd (Std.OrientedCmp.lt_of_gt order) behind

/-! ## What identity promises -/

/-- Every document that a text or a path leads to has a tidy text. It is read back from that text, with the scheme and
    without it, and no other document has it; the order in which edge lists are kept is a strict and total order of
    documents. A text leads to no document if and only if, without one scheme in front, it is empty or does not start
    with a separator. -/
theorem identity_sound :
    (∀ u, Issued u → u.Clean ∧ Tidy u.toString.toList ∧ parse u.render = .ok u ∧ parse u.toString = .ok u) ∧
      (∀ u v, Issued u → Issued v → (u = v ↔ u.toString = v.toString)) ∧
      IsStrictTotalOrder FileUri (fun u v => compare u v = .lt) ∧ (∀ u v : FileUri, compare u v = .eq ↔ u = v) ∧
      (∀ l : List FileUri, (sortPaths l).Pairwise fun u v => compare u v = .lt) ∧
      (∀ raw, (∃ e, parse ("file://" ++ raw) = .error e) ↔ raw = "" ∨ raw.toList.head? ≠ some '/') ∧
      ∀ text, ¬ "file://".toList <+: text.toList →
        ((∃ e, parse text = .error e) ↔ text = "" ∨ text.toList.head? ≠ some '/') := by
  refine ⟨fun u issued => ?_, fun u v hu hv => ?_, isStrictTotalOrder_compare, fun u v => ?_, increasing_sortPaths,
    fun raw => ?_, fun text other => ?_⟩
  · have clean := issued.clean
    exact ⟨clean, tidy_of_clean clean, parse_render clean, canonical_iff_clean.mpr clean⟩
  · have left := canonical_iff_clean.mpr hu.clean
    have right := canonical_iff_clean.mpr hv.clean
    exact (left.toString_inj right).symm
  · exact Std.LawfulEqCmp.compare_eq_iff_eq
  · rw [parse_fails_iff, bare_scheme, String.toList_eq_nil_iff]
  · rw [parse_fails_iff, bare_of_other other, String.toList_eq_nil_iff]

/-- Two spellings of one document, and a text with the scheme written twice. -/
theorem identity_sound_spellings :
    ∃ u, parse "file:///home//me/./x/../Main.qml/" = .ok u ∧
      ofPath (Path.ofString "/home/me") "../me/Main.qml" = .ok u ∧ Tidy u.toString.toList ∧
      parse u.render = .ok u ∧ u.render = "file:///home/me/Main.qml" ∧
      ∃ e, parse "file://file:///home/me/Main.qml" = .error e := by
  have first : parse "file:///home//me/./x/../Main.qml/" = .ok (Path.ofString "/home/me/Main.qml") :=
    parse_iff.mpr ⟨by decide, by decide⟩
  have second : ofPath (Path.ofString "/home/me") "../me/Main.qml" = .ok (Path.ofString "/home/me/Main.qml") := by
    rw [ofPath, if_neg (by decide)]
    exact congrArg Except.ok (by decide)
  obtain ⟨issued, _, _, _, _, fails, _⟩ := identity_sound
  obtain ⟨_, tidy, read, _⟩ := issued _ (.located "/home/me" "../me/Main.qml" (by decide) second)
  refine ⟨_, first, second, tidy, read, by decide, ?_⟩
  exact (fails "file:///home/me/Main.qml").mpr (.inr (by decide))

end QmlIndex.FileUri
