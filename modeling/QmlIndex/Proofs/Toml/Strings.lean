import QmlIndex.Toml.Reader
import QmlIndex.Toml.Writer

/-! # Strings are read back as they were written

Each of the four forms of a string is read back as the string. A form with escapes does so for every string: one
character after the other is either written as it is or as an escape that stands for it. A form without escapes does so
for the strings that it is chosen for. Quotes are the exception throughout, for what they mean depends on how many of
them stand together.
-/

namespace QmlIndex.Toml

/-- No quote follows. -/
def Unquoted (rest : List Char) : Prop := ∀ c ∈ rest.head?, c ≠ '"' ∧ c ≠ '\''

theorem unquoted_cons {c : Char} (double : c ≠ '"') (single : c ≠ '\'') (rest : List Char) : Unquoted (c :: rest) := by
  intro d first
  obtain rfl : c = d := by simpa using first
  exact ⟨double, single⟩

/-! ## Characters -/

/-- How a character other than a quote is written: as an escape, or as it is. -/
inductive Written (keepLines : Bool) (c : Char) : List Char → Prop where
  | short {e : Char} (stands : shortEscape? e = some c) : Written keepLines c ['\\', e]
  | code {a b : Char} (stands : (digits? 16 ['0', '0', a, b]).bind charOf? = some c) :
      Written keepLines c ['\\', 'u', '0', '0', a, b]
  | plain (printable : isPrintable c = true) (solid : c ≠ '\\') : Written keepLines c [c]
  | line (keeps : keepLines = true) (ends : c = '\n') : Written keepLines c [c]

theorem ne_return_of_isPrintable {c : Char} (printable : isPrintable c = true) : c ≠ '\r' := by
  rintro rfl
  exact absurd printable (by decide)

theorem Written.head {keepLines : Bool} {c : Char} {l : List Char} (written : Written keepLines c l) :
    ∃ d more, l = d :: more ∧ (d = '\\' ∨ d = c) ∧ d ≠ '\r' := by
  cases written with
  | short | code => exact ⟨'\\', _, rfl, .inl rfl, by decide⟩
  | plain printable _ => exact ⟨c, _, rfl, .inr rfl, ne_return_of_isPrintable printable⟩
  | line _ ends => exact ⟨c, _, rfl, .inr rfl, by rw [ends]; decide⟩

theorem digit?_hexDigit {n : Nat} (h : n < 16) : digit? 16 (hexDigit n) = some n := by
  have all : ∀ m : Fin 16, digit? 16 (hexDigit m) = some m.val := by decide
  exact all ⟨n, h⟩

theorem code_of_small {c : Char} (small : c.toNat < 256) :
    (digits? 16 ['0', '0', hexDigit (c.toNat / 16), hexDigit (c.toNat % 16)]).bind charOf? = some c := by
  have zero : digit? 16 '0' = some 0 := by decide
  have code : digits? 16 ['0', '0', hexDigit (c.toNat / 16), hexDigit (c.toNat % 16)] = some c.toNat := by
    simp only [digits?, List.foldlM_cons, List.foldlM_nil, zero, digit?_hexDigit (show c.toNat / 16 < 16 by omega),
      digit?_hexDigit (show c.toNat % 16 < 16 by omega), Option.pure_def, Option.bind_eq_bind, Option.bind_some]
    exact congrArg some (by omega)
  have valid : c.toNat.isValidChar := c.valid
  rw [code, Option.bind_some, charOf?, if_pos valid, Char.ofNat_toNat]

theorem isPrintable_of_not_isControl {c : Char} (control : isControl c = false) (line : c ≠ '\n') :
    isPrintable c = true := by
  simp only [isControl, isPrintable] at control ⊢
  grind

theorem written_escape (keepLines : Bool) (c : Char) : Written keepLines c ((escape? keepLines c).getD [c]) := by
  rw [escape?]
  split
  · subst_vars; exact .short rfl
  split
  · subst_vars; exact .short rfl
  split
  · subst_vars
    cases keepLines with
    | true => exact .line rfl rfl
    | false => exact .short rfl
  split
  · subst_vars; exact .short rfl
  split
  · subst_vars; exact .short rfl
  split
  · subst_vars; exact .short rfl
  split
  · rename_i control
    refine .code (code_of_small ?_)
    simp only [isControl] at control
    grind
  · rename_i line _ _ solid control
    exact .plain (isPrintable_of_not_isControl (by simpa using control) line) solid

/-- What stands behind a backslash in a short escape is neither a blank nor a line end, and announces no code. -/
theorem solid_of_shortEscape {e c : Char} (stands : shortEscape? e = some c) (rest : List Char) :
    endsLine (e :: rest) = false ∧ e ≠ 'u' ∧ e ≠ 'U' := by
  have known : e = 'b' ∨ e = 't' ∨ e = 'n' ∨ e = 'f' ∨ e = 'r' ∨ e = '"' ∨ e = '\\' := by
    rw [shortEscape?.eq_def] at stands
    split at stands <;> simp_all
  rcases known with rfl | rfl | rfl | rfl | rfl | rfl | rfl <;> exact ⟨rfl, by decide, by decide⟩

/-! ## Strings of one line -/

theorem basicText_short {e c : Char} (stands : shortEscape? e = some c) (rest : List Char) :
    basicText ('\\' :: e :: rest) = (basicText rest).push c := by
  obtain ⟨_, notCode, notLong⟩ := solid_of_shortEscape stands rest
  rw [basicText.eq_def]
  split
  case h_5 other here =>
      obtain ⟨same, tail⟩ := List.cons.inj here
      exact absurd tail.symm (other e rest same.symm)
  all_goals simp_all [Scanned.push?]

theorem basicText_written {c : Char} {l : List Char} (written : Written false c l) (quote : c ≠ '"') (rest : List Char) :
    basicText (l ++ rest) = (basicText rest).push c := by
  cases written with
  | short stands => exact basicText_short stands rest
  | code stands =>
      simp only [List.cons_append, List.nil_append, basicText, stands]
      rfl
  | plain printable solid =>
      rw [List.singleton_append, basicText.eq_def]
      split <;> simp_all
  | line keeps _ => cases keeps

theorem basicText_escaped (s rest : List Char) (seen : Nat) :
    basicText (escaped false 0 seen s ++ '"' :: rest) = some (s, rest) := by
  induction s generalizing seen with
  | nil => rfl
  | cons c s ih =>
      by_cases quote : c = '"'
      · subst quote
        rw [escaped, if_pos rfl, if_neg (Nat.not_lt_zero seen), List.cons_append, List.cons_append,
          basicText_short rfl, ih]
        rfl
      · rw [escaped, if_neg quote, List.append_assoc, basicText_written (written_escape false c) quote, ih]
        rfl

theorem literalText_printable {s : List Char} (printable : ∀ c ∈ s, isPrintable c = true) (quotes : '\'' ∉ s)
    (rest : List Char) : literalText (s ++ '\'' :: rest) = some (s, rest) := by
  induction s with
  | nil => rfl
  | cons c s ih =>
      have other : c ≠ '\'' := fun same => quotes (same ▸ List.mem_cons_self)
      have later := ih (fun d member => printable d (List.mem_cons_of_mem c member))
        fun member => quotes (List.mem_cons_of_mem c member)
      rw [List.cons_append, literalText.eq_def]
      split <;> simp_all [Scanned.push]

theorem escaped_other (keepLines : Bool) (most seen : Nat) {c : Char} (quote : c ≠ '"') (s : List Char) :
    ∃ d more, escaped keepLines most seen (c :: s) = d :: more ∧ (d = '\\' ∨ d = c) ∧ d ≠ '\r' := by
  obtain ⟨d, more, written, known⟩ := (written_escape keepLines c).head
  exact ⟨d, _, by rw [escaped, if_neg quote, written, List.cons_append], known⟩

/-- What is written of a string begins with a quote only if a quote may stand there as it is. -/
theorem escaped_head (keepLines : Bool) (most : Nat) (c : Char) (s : List Char) :
    ∃ d more, escaped keepLines most most (c :: s) = d :: more ∧ d ≠ '"' := by
  by_cases quote : c = '"'
  · exact ⟨'\\', _, by rw [escaped, if_pos quote, if_neg (Nat.lt_irrefl most)], by decide⟩
  · obtain ⟨d, more, head, rfl | rfl, _⟩ := escaped_other keepLines most most quote s
    · exact ⟨'\\', more, head, by decide⟩
    · exact ⟨d, more, head, quote⟩

/-! ## Strings of several lines -/

variable {rest : List Char}

theorem basicBlock_short {e c : Char} (stands : shortEscape? e = some c) (rest : List Char) :
    basicBlock false ('\\' :: e :: rest) = (basicBlock false rest).push c := by
  obtain ⟨onLine, notCode, notLong⟩ := solid_of_shortEscape stands rest
  rw [basicBlock.eq_def]
  split
  case h_9 other _ _ here =>
      obtain ⟨same, tail⟩ := List.cons.inj here
      exact absurd tail.symm (other e rest same.symm)
  all_goals simp_all [Scanned.push?]

theorem basicBlock_written {c : Char} {l : List Char} (written : Written true c l) (quote : c ≠ '"') (rest : List Char) :
    basicBlock false (l ++ rest) = (basicBlock false rest).push c := by
  cases written with
  | short stands => exact basicBlock_short stands rest
  | code stands =>
      simp only [List.cons_append, List.nil_append, basicBlock, stands]
      rfl
  | plain printable solid =>
      have noReturn := ne_return_of_isPrintable printable
      rw [List.singleton_append, basicBlock.eq_def]
      split <;> simp_all
  | line _ ends =>
      subst ends
      rfl

/-- Quotes before which and behind which there are no others. -/
theorem basicBlock_quote {text : List Char} (few : ∀ more, text ≠ '"' :: '"' :: more) :
    basicBlock false ('"' :: text) = (basicBlock false text).push '"' := by
  have printable : isPrintable '"' = true := by decide
  rw [basicBlock.eq_def]
  split
  case h_9 here =>
      obtain ⟨rfl, rfl⟩ := List.cons.inj here
      simp [printable]
  all_goals simp_all

/-- Of the quotes at the end, the last three close the string. -/
theorem basicBlock_closes {n : Nat} (few : n ≤ 2) (unquoted : Unquoted rest) :
    basicBlock false (List.replicate n '"' ++ ['"', '"', '"'] ++ rest) = some (List.replicate n '"', rest) := by
  have other : ∀ more, rest ≠ '"' :: more := by
    rintro more rfl
    exact (unquoted '"' rfl).1 rfl
  obtain rfl | rfl | rfl : n = 0 ∨ n = 1 ∨ n = 2 := by omega
  · rw [List.replicate_zero, List.nil_append, basicBlock.eq_def]
    split <;> grind
  · rw [List.replicate_one, basicBlock.eq_def]
    split <;> grind
  · rfl

/-- As many quotes as may stand together are written as they are. -/
theorem escaped_quotes {n most seen : Nat} (few : n + seen ≤ most) :
    escaped true most seen (List.replicate n '"') = List.replicate n '"' := by
  induction n generalizing seen with
  | zero => rfl
  | succ n ih => rw [List.replicate_succ, escaped, if_pos rfl, if_pos (by omega), ih (by omega)]

/-- Only at the end of a string do two quotes follow a quote that may stand as it is. -/
theorem escaped_two_quotes {s more : List Char} {seen : Nat} (few : seen < 2)
    (two : escaped true 2 (seen + 1) s ++ ['"', '"', '"'] ++ rest = '"' :: '"' :: more) :
    ∃ n, s = List.replicate n '"' ∧ n + seen < 2 := by
  rcases s with _ | ⟨c, s⟩
  · exact ⟨0, rfl, by omega⟩
  by_cases again : seen + 1 = 2
  · obtain ⟨d, tail, head, other⟩ := escaped_head true 2 c s
    rw [again, head] at two
    exact absurd (List.cons.inj two).1 other
  · obtain rfl : seen = 0 := by omega
    by_cases quote : c = '"'
    · rw [escaped, if_pos quote, if_pos (by omega)] at two
      rcases s with _ | ⟨c', s⟩
      · exact ⟨1, by rw [quote]; rfl, by omega⟩
      · obtain ⟨d, tail, head, other⟩ := escaped_head true 2 c' s
        rw [head] at two
        exact absurd (List.cons.inj (List.cons.inj two).2).1 other
    · obtain ⟨d, tail, head, rfl | rfl, _⟩ := escaped_other true 2 1 quote s
      · rw [head] at two
        cases two
      · rw [head] at two
        exact absurd (List.cons.inj two).1 quote

theorem basicBlock_escaped (s : List Char) {seen : Nat} (few : seen ≤ 2) (unquoted : Unquoted rest) :
    basicBlock false (escaped true 2 seen s ++ ['"', '"', '"'] ++ rest) = some (s, rest) := by
  -- The quotes seen vary, for every quote that is written as it is counts for the next one.
  induction s generalizing seen with
  | nil => exact basicBlock_closes (Nat.zero_le 2) unquoted
  | cons c s ih =>
      by_cases quote : c = '"'
      · subst quote
        by_cases raw : seen < 2
        · rw [escaped, if_pos rfl, if_pos raw]
          by_cases ends : ∃ more, escaped true 2 (seen + 1) s ++ ['"', '"', '"'] ++ rest = '"' :: '"' :: more
          · -- Three quotes together are the closing ones, with those in front of them that belong to the string.
            obtain ⟨more, two⟩ := ends
            obtain ⟨n, rfl, least⟩ := escaped_two_quotes raw two
            rw [escaped_quotes (by omega), ← List.replicate_succ]
            exact basicBlock_closes (by omega) unquoted
          · rw [List.cons_append, List.cons_append, basicBlock_quote fun more two => ends ⟨more, two⟩, ih (by omega)]
            rfl
        · rw [escaped, if_pos rfl, if_neg raw]
          simp only [List.cons_append]
          rw [basicBlock_short rfl, ih (Nat.zero_le 2)]
          rfl
      · rw [escaped, if_neg quote, List.append_assoc, List.append_assoc,
          basicBlock_written (written_escape true c) quote, ← List.append_assoc, ih (Nat.zero_le 2)]
        rfl

theorem literalBlock_quote {text : List Char} (few : ∀ more, text ≠ '\'' :: '\'' :: more) :
    literalBlock ('\'' :: text) = (literalBlock text).push '\'' := by
  have printable : isPrintable '\'' = true := by decide
  rw [literalBlock.eq_def]
  split
  case h_6 here =>
      obtain ⟨rfl, rfl⟩ := List.cons.inj here
      rw [if_pos printable]
  all_goals simp_all

theorem literalBlock_other {c : Char} (printable : c ≠ '\n' → isPrintable c = true) (quote : c ≠ '\'')
    (text : List Char) : literalBlock (c :: text) = (literalBlock text).push c := by
  have noReturn : c ≠ '\r' := by
    by_cases line : c = '\n'
    · rw [line]
      decide
    · exact ne_return_of_isPrintable (printable line)
  rw [literalBlock.eq_def]
  split <;> simp_all

theorem literalBlock_closes {n : Nat} (few : n ≤ 2) (unquoted : Unquoted rest) :
    literalBlock (List.replicate n '\'' ++ ['\'', '\'', '\''] ++ rest) = some (List.replicate n '\'', rest) := by
  have other : ∀ more, rest ≠ '\'' :: more := by
    rintro more rfl
    exact (unquoted '\'' rfl).2 rfl
  obtain rfl | rfl | rfl : n = 0 ∨ n = 1 ∨ n = 2 := by omega
  · rw [List.replicate_zero, List.nil_append, literalBlock.eq_def]
    split <;> grind
  · rw [List.replicate_one, literalBlock.eq_def]
    split <;> grind
  · rfl

theorem literalBlock_printable {s : List Char} (printable : ∀ c ∈ s, c ≠ '\n' → isPrintable c = true)
    (few : ¬List.replicate 3 '\'' <:+: s) (unquoted : Unquoted rest) :
    literalBlock (s ++ ['\'', '\'', '\''] ++ rest) = some (s, rest) := by
  induction s with
  | nil => exact literalBlock_closes (Nat.zero_le 2) unquoted
  | cons c s ih =>
      have later := ih (fun d member => printable d (List.mem_cons_of_mem c member))
        fun run => few (run.trans (List.suffix_cons c s).isInfix)
      by_cases quote : c = '\''
      · subst quote
        by_cases ends : ∃ more, s ++ ['\'', '\'', '\''] ++ rest = '\'' :: '\'' :: more
        · -- The string ends here, for three quotes do not stand together in it.
          obtain ⟨more, two⟩ := ends
          obtain ⟨n, rfl, least⟩ : ∃ n, s = List.replicate n '\'' ∧ n < 2 := by
            rcases s with _ | ⟨c, _ | ⟨d, s⟩⟩
            · exact ⟨0, rfl, by omega⟩
            · obtain ⟨rfl, _⟩ := List.cons.inj two
              exact ⟨1, rfl, by omega⟩
            · obtain ⟨rfl, further⟩ := List.cons.inj two
              obtain ⟨rfl, _⟩ := List.cons.inj further
              exact absurd (List.prefix_append ['\'', '\'', '\''] s).isInfix few
          rw [← List.replicate_succ]
          exact literalBlock_closes (by omega) unquoted
        · rw [List.cons_append, List.cons_append, literalBlock_quote fun more two => ends ⟨more, two⟩, later]
          rfl
      · rw [List.cons_append, List.cons_append, literalBlock_other (printable c List.mem_cons_self) quote, later]
        rfl

/-! ## The forms of a string -/

/-- A quote that opens a string of one line is not followed by two more. -/
theorem quoted?_line {text : List Char} (few : ∀ more, text ≠ '"' :: '"' :: more) : quoted? ('"' :: text) = basicText text := by
  rw [quoted?.eq_def]
  split <;> simp_all

theorem quoted?_literalLine {text : List Char} (few : ∀ more, text ≠ '\'' :: '\'' :: more) :
    quoted? ('\'' :: text) = literalText text := by
  rw [quoted?.eq_def]
  split <;> simp_all

theorem quoted?_basic (s : List Char) (unquoted : Unquoted rest) : quoted? (basic s ++ rest) = some (s, rest) := by
  have few : ∀ more, escaped false 0 0 s ++ '"' :: rest ≠ '"' :: '"' :: more := by
    intro more two
    rcases s with _ | ⟨c, s⟩
    · obtain ⟨_, further⟩ := List.cons.inj two
      exact (unquoted '"' (by rw [further]; rfl)).1 rfl
    · obtain ⟨d, tail, head, other⟩ := escaped_head false 0 c s
      rw [head] at two
      exact other (List.cons.inj two).1
  rw [basic, List.cons_append, List.cons_append, List.append_assoc, List.singleton_append, quoted?_line few]
  exact basicText_escaped s rest 0

theorem quoted?_literal {s : List Char} (printable : ∀ c ∈ s, isPrintable c = true) (quotes : '\'' ∉ s)
    (unquoted : Unquoted rest) : quoted? (literal s ++ rest) = some (s, rest) := by
  have few : ∀ more, s ++ '\'' :: rest ≠ '\'' :: '\'' :: more := by
    intro more two
    rcases s with _ | ⟨c, s⟩
    · obtain ⟨_, further⟩ := List.cons.inj two
      exact (unquoted '\'' (by rw [further]; rfl)).2 rfl
    · exact quotes ((List.cons.inj two).1 ▸ List.mem_cons_self)
  rw [literal, List.cons_append, List.cons_append, List.append_assoc, List.singleton_append, quoted?_literalLine few]
  exact literalText_printable printable quotes rest

/-- The line end behind opening quotes is dropped, and there is none if the string has no other. -/
theorem dropFirstLineEnd_firstLineEnd {s text : List Char}
    (starts : '\n' ∉ s → ∃ c more, text = c :: more ∧ c ≠ '\n' ∧ c ≠ '\r') :
    dropFirstLineEnd (firstLineEnd s ++ text) = text := by
  by_cases lines : '\n' ∈ s
  · rw [firstLineEnd, if_pos (by simpa using lines)]
    rfl
  · obtain ⟨c, more, rfl, line, feed⟩ := starts lines
    rw [firstLineEnd, if_neg (by simpa using lines), List.nil_append, dropFirstLineEnd, afterLineEnd?.eq_def]
    split <;> simp_all

theorem quoted?_basicLines (s : List Char) (unquoted : Unquoted rest) :
    quoted? (basicLines s ++ rest) = some (s, rest) := by
  have starts : '\n' ∉ s → ∃ c more, escaped true 2 0 s ++ ['"', '"', '"'] ++ rest = c :: more ∧ c ≠ '\n' ∧ c ≠ '\r' := by
    intro line
    rcases s with _ | ⟨c, s⟩
    · exact ⟨'"', _, rfl, by decide, by decide⟩
    · by_cases quote : c = '"'
      · exact ⟨'"', _, by rw [escaped, if_pos quote, if_pos (by decide)]; rfl, by decide, by decide⟩
      · obtain ⟨d, tail, head, known, feed⟩ := escaped_other true 2 0 quote s
        refine ⟨d, _, by rw [head]; rfl, ?_, feed⟩
        rcases known with rfl | rfl
        · decide
        · exact fun same => line (same ▸ List.mem_cons_self)
  have opened : basicLines s ++ rest =
      '"' :: '"' :: '"' :: (firstLineEnd s ++ (escaped true 2 0 s ++ ['"', '"', '"'] ++ rest)) := by
    simp [basicLines]
  rw [opened]
  change basicBlock false (dropFirstLineEnd _) = _
  rw [dropFirstLineEnd_firstLineEnd starts]
  exact basicBlock_escaped s (Nat.zero_le 2) unquoted

theorem quoted?_literalLines {s : List Char} (printable : ∀ c ∈ s, c ≠ '\n' → isPrintable c = true)
    (few : ¬List.replicate 3 '\'' <:+: s) (unquoted : Unquoted rest) :
    quoted? (literalLines s ++ rest) = some (s, rest) := by
  have starts : '\n' ∉ s → ∃ c more, s ++ ['\'', '\'', '\''] ++ rest = c :: more ∧ c ≠ '\n' ∧ c ≠ '\r' := by
    intro line
    rcases s with _ | ⟨c, s⟩
    · exact ⟨'\'', _, rfl, by decide, by decide⟩
    · have other : c ≠ '\n' := fun same => line (same ▸ List.mem_cons_self)
      exact ⟨c, _, rfl, other, ne_return_of_isPrintable (printable c List.mem_cons_self other)⟩
  have opened : literalLines s ++ rest =
      '\'' :: '\'' :: '\'' :: (firstLineEnd s ++ (s ++ ['\'', '\'', '\''] ++ rest)) := by
    simp [literalLines]
  rw [opened]
  change literalBlock (dropFirstLineEnd _) = _
  rw [dropFirstLineEnd_firstLineEnd starts]
  exact literalBlock_printable printable few unquoted

/-! ## The choice of a form -/

/-- What is known of the runs of a character after one more character: the longest one and the last one. -/
def measure (q : Char) (runs : Nat × Nat) (c : Char) : Nat × Nat :=
  let now := if c = q then runs.2 + 1 else 0
  (max runs.1 now, now)

theorem longestRun_eq (q : Char) (s : List Char) : longestRun q s = (s.foldl (measure q) (0, 0)).1 := rfl

theorem le_measured (q : Char) (s : List Char) (runs : Nat × Nat) : runs.1 ≤ (s.foldl (measure q) runs).1 := by
  induction s generalizing runs with
  | nil => exact Nat.le_refl _
  | cons c s ih => exact Nat.le_trans (Nat.le_max_left ..) (ih (measure q runs c))

theorem measured_replicate (q : Char) (n : Nat) (runs : Nat × Nat) :
    ((List.replicate n q).foldl (measure q) runs).2 = runs.2 + n := by
  induction n generalizing runs with
  | zero => rfl
  | succ n ih =>
      rw [List.replicate_succ, List.foldl_cons, ih, measure, if_pos rfl]
      exact Nat.add_right_comm ..

theorem last_le_longest (q : Char) (s : List Char) (runs : Nat × Nat) (le : runs.2 ≤ runs.1) :
    (s.foldl (measure q) runs).2 ≤ (s.foldl (measure q) runs).1 := by
  induction s generalizing runs with
  | nil => exact le
  | cons c s ih => exact ih _ (Nat.le_max_right ..)

/-- No run is longer than the longest one. -/
theorem le_longestRun {q : Char} {n : Nat} {s : List Char} (run : List.replicate n q <:+: s) : n ≤ longestRun q s := by
  obtain ⟨before, behind, rfl⟩ := run
  rw [longestRun_eq, List.foldl_append, List.foldl_append]
  refine Nat.le_trans ?_ (le_measured q behind _)
  have first := last_le_longest q before (0, 0) (Nat.le_refl 0)
  have run := last_le_longest q (List.replicate n q) _ first
  rw [measured_replicate] at run
  exact Nat.le_trans (Nat.le_add_left n _) run

theorem not_mem_of_longestRun {q : Char} {s : List Char} (none : longestRun q s = 0) : q ∉ s := by
  intro member
  obtain ⟨before, behind, rfl⟩ := List.append_of_mem member
  have run : List.replicate 1 q <:+: before ++ q :: behind := ⟨before, behind, by simp⟩
  have := le_longestRun run
  omega

/-- A string is read back from the form that is chosen for it. -/
theorem quoted?_string (text : String) (unquoted : Unquoted rest) :
    quoted? (string text ++ rest) = some (text.toList, rest) := by
  have printable (control : text.toList.any isControl = false) : ∀ c ∈ text.toList, c ≠ '\n' → isPrintable c = true := by
    intro c member
    exact isPrintable_of_not_isControl (by simpa using List.any_eq_false.mp control c member)
  rw [string]
  split
  · exact quoted?_basic _ unquoted
  split
  · rename_i chosen
    simp only [Bool.and_eq_true, Bool.not_eq_true', decide_eq_true_eq] at chosen
    obtain ⟨⟨control, singles⟩, lines⟩ := chosen
    refine quoted?_literal (fun c member => printable control c member ?_) (not_mem_of_longestRun singles) unquoted
    rintro rfl
    simp [member] at lines
  split
  · exact quoted?_basicLines _ unquoted
  split
  · rename_i chosen
    simp only [Bool.and_eq_true, Bool.not_eq_true', decide_eq_true_eq] at chosen
    obtain ⟨control, singles⟩ := chosen
    refine quoted?_literalLines (printable control) (fun run => ?_) unquoted
    have := le_longestRun run
    omega
  split
  · exact quoted?_basicLines _ unquoted
  · exact quoted?_basic _ unquoted

/-- Every form begins with a quote. -/
theorem string_starts (text : String) : ∃ q more, string text = q :: more ∧ (q = '"' ∨ q = '\'') := by
  rw [string]
  split
  · exact ⟨'"', _, rfl, .inl rfl⟩
  split
  · exact ⟨'\'', _, rfl, .inr rfl⟩
  split
  · exact ⟨'"', _, rfl, .inl rfl⟩
  split
  · exact ⟨'\'', _, rfl, .inr rfl⟩
  split
  · exact ⟨'"', _, rfl, .inl rfl⟩
  · exact ⟨'"', _, rfl, .inl rfl⟩

end QmlIndex.Toml
