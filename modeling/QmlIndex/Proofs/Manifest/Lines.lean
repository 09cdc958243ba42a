import Mathlib.Data.List.Basic
import Mathlib.Logic.Relation
import QmlIndex.Manifest
import QmlIndex.Proofs.Text.Fields

/-! # What the lines of a manifest say

A line says what its words say, whatever white space stands between them, and a manifest says what its lines say
one after the other. So lines can be put in that say nothing, lines can end in either way, and the white space
between words can be any.
-/

namespace QmlIndex

open Text

namespace Text

/-! ## Words -/

/-- White space that ends no line. -/
structure Spacing (s : List Char) : Prop where
  blank : ∀ c ∈ s, isBlank c = true
  inLine : '\n' ∉ s

variable {c : Char} {s : List Char}

theorem words_of_blank (blank : isBlank c = true) (rest : List Char) : words (c :: rest) = words rest := by
  rw [words.eq_def]
  simp only [blank, if_true]

theorem words_ne_nil (busy : isBlank c = false) (rest : List Char) : words (c :: rest) ≠ [] := by
  rw [words.eq_def]
  simp only [busy, Bool.false_eq_true, if_false]
  split
  · simp
  · split
    · simp
    · split <;> simp

/-- White space cuts the words on its left from those on its right. -/
theorem words_append_blank (blank : isBlank c = true) (a b : List Char) : words (a ++ c :: b) = words a ++ words b := by
  induction a with
  | nil => exact words_of_blank blank b
  | cons d a ih =>
      by_cases here : isBlank d = true
      · rw [List.cons_append, words_of_blank here, words_of_blank here, ih]
      · cases a with
        | nil => simp [words, here, blank]
        | cons e a =>
            rw [List.cons_append, List.cons_append] at *
            rw [words, if_neg here, words.eq_def (d :: e :: a)]
            simp only [if_neg here]
            by_cases next : isBlank e = true
            · simp only [if_pos next, ih, List.cons_append]
            · simp only [if_neg next, ih]
              obtain ⟨word, more, split⟩ := List.exists_cons_of_ne_nil (words_ne_nil (by simpa using next) a)
              rw [split]
              rfl

theorem words_append_spacing (space : ∀ c ∈ s, isBlank c = true) (some : s ≠ []) (a b : List Char) :
    words (a ++ s ++ b) = words a ++ words b := by
  induction s generalizing a with
  | nil => exact absurd rfl some
  | cons c s ih =>
      have blank := space c List.mem_cons_self
      cases s with
      | nil => simpa using words_append_blank blank a b
      | cons d s =>
          have rest := ih (fun e member => space e (List.mem_cons_of_mem c member)) (List.cons_ne_nil d s) (a ++ [c])
          rw [words_append_blank blank a []] at rest
          simpa [words] using rest

/-- The first character of the first word is the first that is not white space. -/
theorem head?_words (s : List Char) : (words s).head?.bind List.head? = (s.dropWhile isBlank).head? := by
  induction s with
  | nil => rfl
  | cons c s ih =>
      by_cases blank : isBlank c = true
      · rw [words_of_blank blank, List.dropWhile_cons_of_pos blank, ih]
      · rw [List.dropWhile_cons_of_neg blank, words.eq_def]
        simp only [blank, Bool.false_eq_true, if_false]
        split
        · rfl
        · split
          · rfl
          · split <;> rfl

end Text

namespace Directive

/-- A line says what its words say. -/
theorem ofLine_congr {a b : List Char} (same : words a = words b) : ofLine a = ofLine b := by
  rw [ofLine, ofLine, ← head?_words, ← head?_words, same]

theorem ofLine_blank {line : List Char} (blank : ∀ c ∈ line, isBlank c = true) : ofLine line = none := by
  cases line with
  | nil => rfl
  | cons c rest =>
      have same := words_append_spacing blank (List.cons_ne_nil c rest) [] []
      exact (ofLine_congr (b := []) (by simpa [words] using same)).trans rfl

theorem ofLine_comment {line : List Char} (comment : (line.dropWhile isBlank).head? = some '#') :
    ofLine line = none := by
  rw [ofLine, comment]
  rfl

/-- Whether a directive has no part in the module that a manifest makes. -/
def isMetadata : Directive → Bool
  | .module _ | .component _ _ _ | .singleton _ _ _ => false
  | _ => true

end Directive

namespace Manifest

theorem parse_eq (text : List Char) : parse text = (fields '\n' text).filterMap Directive.ofLine := by
  have ended (line : List Char) :
      Directive.ofLine (if line.getLast? = some '\r' then line.dropLast else line) = Directive.ofLine line := by
    split
    · rename_i last
      obtain ⟨shown, rfl⟩ := List.getLast?_eq_some_iff.mp last
      have same := words_append_blank (c := '\r') (by decide) shown []
      rw [List.dropLast_concat]
      exact Directive.ofLine_congr (by simpa [words] using same.symm)
    · rfl
  obtain ⟨init, last, split⟩ : ∃ init last, fields '\n' text = init ++ [last] :=
    ⟨_, _, (List.dropLast_concat_getLast (fields_ne_nil '\n' text)).symm⟩
  have former : (init.map fun line => if line.getLast? = some '\r' then line.dropLast else line).filterMap
      Directive.ofLine = init.filterMap Directive.ofLine := by
    rw [List.filterMap_map]
    exact List.filterMap_congr fun line _ => ended line
  rw [parse, lines, split, List.filterMap_append, List.dropLast_concat, List.getLast?_concat]
  cases last with
  | nil => simp [former, Directive.ofLine_blank]
  | cons c rest => simp [former]

/-- A manifest says what is said before and after a line break. -/
theorem parse_append (a b : List Char) : parse (a ++ '\n' :: b) = parse a ++ parse b := by
  rw [parse_eq, parse_eq, parse_eq, fields_append_sep, List.filterMap_append]

theorem parse_line {line : List Char} (inLine : '\n' ∉ line) : parse line = (Directive.ofLine line).toList := by
  rw [parse_eq, fields_of_not_mem inLine, List.filterMap_cons]
  cases Directive.ofLine line <;> rfl

/-- What white space stands between words does not matter. -/
theorem parse_spacing {s s' : List Char} (space : Spacing s) (space' : Spacing s') (some : s ≠ []) (some' : s' ≠ [])
    (a b : List Char) : parse (a ++ s ++ b) = parse (a ++ s' ++ b) := by
  obtain ⟨init, last, first, more, _, _, around⟩ := fields_around '\n' a b
  have same : words (last ++ s ++ first) = words (last ++ s' ++ first) := by
    rw [words_append_spacing space.blank some, words_append_spacing space'.blank some']
  rw [parse_eq, parse_eq, around s space.inLine, around s' space'.inLine, List.filterMap_append, List.filterMap_append,
    List.filterMap_cons, List.filterMap_cons, Directive.ofLine_congr same]

/-- White space at the end of a line says nothing. -/
theorem parse_append_spacing {s : List Char} (space : Spacing s) (a : List Char) : parse (a ++ s) = parse a := by
  cases s with
  | nil => rw [List.append_nil]
  | cons c s =>
      obtain ⟨init, last, first, more, left, right, around⟩ := fields_around '\n' a []
      obtain ⟨rfl, rfl⟩ := List.cons.inj right
      have same : words (last ++ c :: s ++ []) = words last := by
        rw [words_append_spacing space.blank (List.cons_ne_nil c s)]
        simp [words]
      have whole := around (c :: s) space.inLine
      rw [List.append_nil] at whole
      rw [parse_eq, parse_eq, whole, left, List.filterMap_append, List.filterMap_append, List.filterMap_cons,
        List.filterMap_cons, Directive.ofLine_congr same]

/-! ## Other texts of one manifest -/

/-- A line that makes no directive. -/
inductive Unread (line : List Char) : Prop where
  | blank : (∀ c ∈ line, isBlank c = true) → Unread line
  | comment : (line.dropWhile isBlank).head? = some '#' → Unread line
  | malformed : Directive.ofLine line = none → Unread line

/-- A line that has no part in the module. -/
inductive Idle (line : List Char) : Prop where
  | unread : Unread line → Idle line
  | metadata {d : Directive} : Directive.ofLine line = some d → d.isMetadata = true → Idle line

/-- One change of a text: a line put in, the end of a line, or the white space between words. -/
inductive Restyle (idle : List Char → Prop) : List Char → List Char → Prop where
  | line {a l b : List Char} : '\n' ∉ l → idle l → Restyle idle (a ++ '\n' :: b) (a ++ '\n' :: (l ++ '\n' :: b))
  | firstLine {l b : List Char} : '\n' ∉ l → idle l → Restyle idle b (l ++ '\n' :: b)
  | lastLine {a l : List Char} : '\n' ∉ l → idle l → Restyle idle a (a ++ '\n' :: l)
  | lineEnd {a b : List Char} : Restyle idle (a ++ '\n' :: b) (a ++ '\r' :: '\n' :: b)
  | spacing {a s s' b : List Char} :
      Spacing s → Spacing s' → s ≠ [] → s' ≠ [] → Restyle idle (a ++ s ++ b) (a ++ s' ++ b)

/-- Any number of changes, there and back. -/
def Restyled (idle : List Char → Prop) : List Char → List Char → Prop := Relation.EqvGen (Restyle idle)

theorem Unread.ofLine {line : List Char} (h : Unread line) : Directive.ofLine line = none := by
  cases h with
  | blank blank => exact Directive.ofLine_blank blank
  | comment comment => exact Directive.ofLine_comment comment
  | malformed malformed => exact malformed

theorem Idle.isMetadata {line : List Char} (h : Idle line) {d : Directive} (told : Directive.ofLine line = some d) :
    d.isMetadata = true := by
  cases h with
  | unread unread =>
      rw [unread.ofLine] at told
      cases told
  | metadata also metadata =>
      rw [also] at told
      cases told
      exact metadata

variable {idle : List Char → Prop} {p : Directive → Bool} {a b : List Char}

theorem filter_parse_idle (dropped : ∀ l, idle l → ∀ d, Directive.ofLine l = some d → p d = false) {l : List Char}
    (inLine : '\n' ∉ l) (here : idle l) : (parse l).filter p = [] := by
  rw [parse_line inLine]
  cases told : Directive.ofLine l with
  | none => rfl
  | some d => simp [dropped l here d told]

/-- What counts of a manifest is the same for both texts. -/
theorem Restyle.filter_parse (dropped : ∀ l, idle l → ∀ d, Directive.ofLine l = some d → p d = false)
    (h : Restyle idle a b) : (parse a).filter p = (parse b).filter p := by
  cases h with
  | line inLine here =>
      simp only [parse_append, List.filter_append, filter_parse_idle dropped inLine here, List.nil_append]
  | firstLine inLine here =>
      simp only [parse_append, List.filter_append, filter_parse_idle dropped inLine here, List.nil_append]
  | lastLine inLine here =>
      simp only [parse_append, List.filter_append, filter_parse_idle dropped inLine here, List.append_nil]
  | @lineEnd a b =>
      have space : Spacing ['\r'] := ⟨fun c member => List.mem_singleton.mp member ▸ rfl, by simp⟩
      have carriage : parse (a ++ ['\r']) = parse a := parse_append_spacing space a
      have split := parse_append (a ++ ['\r']) b
      rw [List.append_assoc, List.singleton_append] at split
      rw [parse_append, split, carriage]
  | spacing space space' some some' => rw [parse_spacing space space' some some']

theorem Restyled.filter_parse (dropped : ∀ l, idle l → ∀ d, Directive.ofLine l = some d → p d = false)
    (h : Restyled idle a b) : (parse a).filter p = (parse b).filter p := by
  induction h with
  | rel _ _ step => exact step.filter_parse dropped
  | refl => rfl
  | symm _ _ _ ih => exact ih.symm
  | trans _ _ _ _ _ first second => exact first.trans second

/-- Lines that make no directive, line ends and white space do not matter at all. -/
theorem Restyled.parse_eq (h : Restyled Unread a b) : parse a = parse b := by
  have same := h.filter_parse (p := fun _ => true) fun l unread d told => by
    rw [unread.ofLine] at told
    cases told
  simpa using same

end Manifest

end QmlIndex
