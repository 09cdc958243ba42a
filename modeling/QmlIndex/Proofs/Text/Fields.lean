import QmlIndex.Text.Fields

/-! # Cutting text and putting it together

Cutting at a character and putting the fields together with that character between them undo each other, and
cutting at an occurrence cuts both sides on their own.
-/

namespace QmlIndex.Text

variable {sep : Char}

theorem fields_ne_nil (sep : Char) (s : List Char) : fields sep s ≠ [] := by
  cases s with
  | nil => simp [fields]
  | cons c rest =>
      simp only [fields]
      split
      · simp
      · split <;> simp

theorem fields_cons (sep c : Char) (rest : List Char) :
    ∃ field more, fields sep rest = field :: more ∧
      fields sep (c :: rest) = if c = sep then [] :: field :: more else (c :: field) :: more := by
  cases here : fields sep rest with
  | nil => exact absurd here (fields_ne_nil sep rest)
  | cons field more => exact ⟨field, more, rfl, by rw [fields, here]⟩

/-- No field has the separator in it. -/
theorem not_mem_of_mem_fields {s field : List Char} (h : field ∈ fields sep s) : sep ∉ field := by
  induction s generalizing field with
  | nil =>
      obtain rfl : field = [] := by simpa [fields] using h
      simp
  | cons c rest ih =>
      obtain ⟨first, more, split, whole⟩ := fields_cons sep c rest
      rw [split] at ih
      rw [whole] at h
      by_cases same : c = sep
      · rw [if_pos same, List.mem_cons] at h
        rcases h with rfl | later
        · simp
        · exact ih later
      · rw [if_neg same, List.mem_cons] at h
        rcases h with rfl | later
        · simpa [Ne.symm same] using ih List.mem_cons_self
        · exact ih (List.mem_cons_of_mem first later)

/-- The last field of one text and the first one of the next become one field. -/
theorem fields_concat (sep : Char) (a b : List Char) :
    ∃ init last first more, fields sep a = init ++ [last] ∧ fields sep b = first :: more ∧
      fields sep (a ++ b) = init ++ (last ++ first) :: more := by
  obtain ⟨first, more, right⟩ := List.exists_cons_of_ne_nil (fields_ne_nil sep b)
  induction a with
  | nil => exact ⟨[], [], first, more, rfl, right, right⟩
  | cons c a ih =>
      obtain ⟨init, last, first', more', left, right', whole⟩ := ih
      obtain ⟨field, others, split, cut⟩ := fields_cons sep c a
      obtain ⟨field', others', split', cut'⟩ := fields_cons sep c (a ++ b)
      by_cases same : c = sep
      · refine ⟨[] :: init, last, first', more', ?_, right', ?_⟩
        · rw [cut, if_pos same, ← split, left, List.cons_append]
        · rw [List.cons_append, cut', if_pos same, ← split', whole, List.cons_append]
      · rw [left] at split
        rw [whole] at split'
        -- The character joins the first field, which is the last one as well if there is no other.
        cases init with
        | nil =>
            obtain ⟨rfl, rfl⟩ := List.cons.inj split
            obtain ⟨rfl, rfl⟩ := List.cons.inj split'
            exact ⟨[], c :: last, first', more', by rw [cut, if_neg same]; rfl, right',
              by rw [List.cons_append, cut', if_neg same]; rfl⟩
        | cons head tail =>
            obtain ⟨rfl, rfl⟩ := List.cons.inj split
            obtain ⟨rfl, rfl⟩ := List.cons.inj split'
            exact ⟨(c :: head) :: tail, last, first', more', by rw [cut, if_neg same]; rfl, right',
              by rw [List.cons_append, cut', if_neg same]; rfl⟩

/-- A separator cuts a text in two. -/
theorem fields_append_sep (sep : Char) (a b : List Char) :
    fields sep (a ++ sep :: b) = fields sep a ++ fields sep b := by
  obtain ⟨init, last, first, more, left, right, whole⟩ := fields_concat sep a (sep :: b)
  obtain ⟨field, others, split, cut⟩ := fields_cons sep sep b
  rw [if_pos rfl, right] at cut
  obtain ⟨rfl, rfl⟩ := List.cons.inj cut
  rw [whole, left, split, List.append_nil, List.append_assoc]
  rfl

theorem fields_of_not_mem {field : List Char} (free : sep ∉ field) : fields sep field = [field] := by
  induction field with
  | nil => rfl
  | cons c rest ih =>
      rw [List.mem_cons, not_or] at free
      obtain ⟨other, free⟩ := free
      rw [fields, ih free]
      simp [Ne.symm other]

/-- A text without separators lies within one field. -/
theorem fields_around (sep : Char) (a b : List Char) :
    ∃ init last first more, fields sep a = init ++ [last] ∧ fields sep b = first :: more ∧
      ∀ s, sep ∉ s → fields sep (a ++ s ++ b) = init ++ (last ++ s ++ first) :: more := by
  obtain ⟨init, last, first, more, left, right, _⟩ := fields_concat sep a b
  refine ⟨init, last, first, more, left, right, fun s free => ?_⟩
  obtain ⟨_, _, _, _, left', right', whole⟩ := fields_concat sep a s
  obtain ⟨rfl, same⟩ := List.append_inj' (left.symm.trans left') rfl
  obtain rfl := List.singleton_inj.mp same
  obtain ⟨rfl, rfl⟩ := List.cons.inj ((fields_of_not_mem free).symm.trans right')
  obtain ⟨_, _, _, _, left', right', whole'⟩ := fields_concat sep (a ++ s) b
  obtain ⟨rfl, same⟩ := List.append_inj' (whole.symm.trans left') rfl
  obtain rfl := List.singleton_inj.mp same
  obtain ⟨rfl, rfl⟩ := List.cons.inj (right.symm.trans right')
  exact whole'

theorem fields_append {field : List Char} (free : sep ∉ field) (s : List Char) :
    fields sep (field ++ sep :: s) = field :: fields sep s := by
  rw [fields_append_sep, fields_of_not_mem free, List.singleton_append]

/-- Fields put together with the separator between them are found again. -/
theorem fields_intercalate {field : List Char} {more : List (List Char)} (free : ∀ f ∈ field :: more, sep ∉ f) :
    fields sep ([sep].intercalate (field :: more)) = field :: more := by
  induction more generalizing field with
  | nil => simpa using fields_of_not_mem (free field List.mem_cons_self)
  | cons next rest ih =>
      have later : ∀ f ∈ next :: rest, sep ∉ f := fun f member => free f (List.mem_cons_of_mem field member)
      rw [List.intercalate_cons_cons, List.append_assoc, List.singleton_append,
        fields_append (free field List.mem_cons_self), ih later]

theorem intercalate_fields (sep : Char) (s : List Char) : [sep].intercalate (fields sep s) = s := by
  induction s with
  | nil => simp [fields]
  | cons c rest ih =>
      obtain ⟨field, more, split, cut⟩ := fields_cons sep c rest
      rw [split] at ih
      rw [cut]
      split
      · rename_i same
        rw [List.intercalate_cons_cons, ih, same]
        rfl
      · -- The character stands before the first field and so before the whole.
        cases more with
        | nil => simpa using ih
        | cons next others =>
            rw [List.intercalate_cons_cons] at ih ⊢
            rw [List.cons_append, List.cons_append, ih]

theorem intercalate_append {a b : List (List Char)} (left : a ≠ []) (right : b ≠ []) :
    [sep].intercalate (a ++ b) = [sep].intercalate a ++ sep :: [sep].intercalate b := by
  obtain ⟨next, others, rfl⟩ := List.exists_cons_of_ne_nil right
  induction a with
  | nil => exact absurd rfl left
  | cons head tail ih =>
      cases tail with
      | nil => simp [List.intercalate_cons_cons]
      | cons second tail =>
          have rest := ih (List.cons_ne_nil second tail)
          rw [List.cons_append] at rest
          rw [List.cons_append, List.cons_append, List.intercalate_cons_cons, List.intercalate_cons_cons, rest]
          simp only [List.append_assoc]

/-- The last fields of a text are those of its end behind a separator, or all of them. -/
theorem fields_suffix_iff {a b : List Char} :
    fields sep b <:+ fields sep a ↔ a = b ∨ ∃ before, a = before ++ sep :: b := by
  constructor
  · rintro ⟨init, whole⟩
    have text := intercalate_fields sep a
    rw [← whole] at text
    cases init with
    | nil => exact .inl (by rw [← text, List.nil_append, intercalate_fields])
    | cons head tail =>
        rw [intercalate_append (List.cons_ne_nil head tail) (fields_ne_nil sep b), intercalate_fields] at text
        exact .inr ⟨_, text.symm⟩
  · rintro (rfl | ⟨before, rfl⟩)
    · exact List.suffix_refl _
    · rw [fields_append_sep]
      exact List.suffix_append _ _

end QmlIndex.Text
