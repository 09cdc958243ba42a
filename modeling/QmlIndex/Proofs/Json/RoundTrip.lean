import QmlIndex.Json.Reader
import QmlIndex.Json.Writer

/-! # Reading what was written

The compact form of a value that denotes something reads back as that value. The proof goes the way the
reader goes: the text is cut into the lexemes that spell the value, and the machine, whatever is open, takes
these lexemes for one complete value.
-/

namespace QmlIndex.Json

/-- A value in which every part denotes something. -/
inductive Denoting : Json → Prop where
  | null : Denoting null
  | bool (b : Bool) : Denoting (bool b)
  | int (i : Int) : Denoting (int i)
  | str (s : String) : Denoting (str s)
  | arr {items : List Json} (all : ∀ j ∈ items, Denoting j) : Denoting (arr items)
  | obj {fields : List (String × Json)} (all : ∀ f ∈ fields, Denoting f.2) : Denoting (obj fields)

mutual

/-- The lexemes of the compact form. -/
def spell : Json → List Lexeme
  | null | real | broken => [.scalar null]
  | bool b => [.scalar (bool b)]
  | int i => [.scalar (int i)]
  | str s => [.text (some s)]
  | arr items => .openList :: spellItems items ++ [.closeList]
  | obj fields => .openRecord :: spellFields fields ++ [.closeRecord]

def spellItems : List Json → List Lexeme
  | [] => []
  | [j] => spell j
  | j :: rest => spell j ++ .comma :: spellItems rest

def spellFields : List (String × Json) → List Lexeme
  | [] => []
  | [(k, j)] => .text (some k) :: .colon :: spell j
  | (k, j) :: rest => .text (some k) :: .colon :: spell j ++ .comma :: spellFields rest

end

/-! ## Strings -/

theorem hexValue?_hexDigit {n : Nat} (h : n < 16) : hexValue? (hexDigit n) = some n := by
  have all : ∀ m : Fin 16, hexValue? (hexDigit m) = some m.val := by decide
  exact all ⟨n, h⟩

theorem unitOf_toNat {c : Char} (h : c.toNat < 32) : unitOf c.toNat = .char c := by
  have low : ¬ 0xD800 ≤ c.toNat := by omega
  have high : ¬ 0xDC00 ≤ c.toNat := by omega
  simp [unitOf, low, high, Char.ofNat_toNat]

/-- An escaped character is read as the character. -/
theorem units?_escape (c : Char) (rest : List Char) :
    units? (escape c ++ rest) = (units? rest).map fun (us, after) => (.char c :: us, after) := by
  unfold escape
  split
  · subst_vars; simp [units?, shortEscape?]
  split
  · subst_vars; simp [units?, shortEscape?]
  split
  · subst_vars; simp [units?, shortEscape?]
  split
  · subst_vars; simp [units?, shortEscape?]
  split
  · subst_vars; simp [units?, shortEscape?]
  split
  · rename_i eight
    have same : c = Char.ofNat 8 := by rw [← eight, Char.ofNat_toNat]
    subst same
    simp [units?, shortEscape?]
  split
  · rename_i twelve
    have same : c = Char.ofNat 12 := by rw [← twelve, Char.ofNat_toNat]
    subst same
    simp [units?, shortEscape?]
  split
  · rename_i control
    have code : hex4? '0' '0' (hexDigit (c.toNat / 16)) (hexDigit (c.toNat % 16)) = some c.toNat := by
      have zero : hexValue? '0' = some 0 := by decide
      simp only [hex4?, zero, hexValue?_hexDigit (show c.toNat / 16 < 16 by omega),
        hexValue?_hexDigit (show c.toNat % 16 < 16 by omega), Option.bind_eq_bind, Option.bind_some]
      exact congrArg some (by omega)
    simp only [List.cons_append, List.nil_append, units?, code, unitOf_toNat control]
  · rename_i quote backslash _ _ _ _ _ control
    rw [List.singleton_append, units?.eq_def]
    split
    case h_4 c' _ _ _ _ shape =>
      obtain ⟨rfl, rfl⟩ := List.cons.inj shape
      rw [if_neg (by simp [backslash]; omega)]
    all_goals simp_all

theorem units?_quoted (cs rest : List Char) :
    units? (cs.flatMap escape ++ '"' :: rest) = some (cs.map .char, rest) := by
  induction cs with
  | nil => simp [units?]
  | cons c cs ih =>
      rw [List.flatMap_cons, List.append_assoc, units?_escape, ih]
      rfl

theorem joinUnits_chars (cs : List Char) : joinUnits (cs.map .char) = some cs := by
  induction cs with
  | nil => rfl
  | cons c cs ih => simp [joinUnits, ih]

theorem nextLexeme_quoted (s : String) (rest : List Char) :
    nextLexeme '"' (s.toList.flatMap escape ++ '"' :: rest) = some (.text (some s), rest) := by
  simp [nextLexeme, units?_quoted, joinUnits_chars]

/-! ## Numbers -/

/-- What can follow a value: the end, or what separates or closes. -/
def Delimited (rest : List Char) : Prop := ∀ c ∈ rest.head?, c = ',' ∨ c = ']' ∨ c = '\x7d'

theorem delimited_nil : Delimited [] := by simp [Delimited]

theorem delimited_cons {c : Char} (h : c = ',' ∨ c = ']' ∨ c = '\x7d') (rest : List Char) :
    Delimited (c :: rest) := by
  intro d same
  obtain rfl : c = d := by simpa using same
  exact h

theorem takeWhile_delimited {p : Char → Bool} {s rest : List Char} (all : ∀ c ∈ s, p c = true)
    (outside : p ',' = false ∧ p ']' = false ∧ p '\x7d' = false) (d : Delimited rest) :
    (s ++ rest).takeWhile p = s ∧ (s ++ rest).dropWhile p = rest := by
  have stops : rest.takeWhile p = [] ∧ rest.dropWhile p = rest := by
    cases rest with
    | nil => exact ⟨rfl, rfl⟩
    | cons c more =>
        have stop : p c = false := by
          rcases d c rfl with rfl | rfl | rfl
          · exact outside.1
          · exact outside.2.1
          · exact outside.2.2
        simp [stop]
  rw [List.takeWhile_append_of_pos all, List.dropWhile_append_of_pos all, stops.1, stops.2]
  simp

theorem digitsValue_toDigits (n : Nat) : digitsValue (Nat.toDigits 10 n) = n := by
  have value : Nat.ofDigitChars 10 (Nat.toDigits 10 n) 0 = n := Nat.ofDigitChars_ten_toDigits
  rw [Nat.ofDigitChars_eq_foldl] at value
  simp only [Nat.mul_comm 10] at value
  exact value

theorem isDigit_toDigits {n : Nat} {c : Char} (h : c ∈ Nat.toDigits 10 n) : c.isDigit = true :=
  Nat.isDigit_of_mem_toDigits (by decide) (by decide) h

/-- Only zero starts with a zero. -/
theorem head?_toDigits {n : Nat} (h : n ≠ 0) : (Nat.toDigits 10 n).head? ≠ some '0' := by
  induction n using Nat.strongRecOn with
  | ind n ih =>
      rw [Nat.toDigits_eq_if (by decide)]
      split
      · rename_i small
        have all : ∀ m : Fin 10, m.val ≠ 0 → Nat.digitChar m ≠ '0' := by decide
        simpa using all ⟨n, small⟩ h
      · have smaller := ih (n / 10) (by omega) (by omega)
        cases digits : Nat.toDigits 10 (n / 10) with
        | nil => exact absurd digits Nat.toDigits_ne_nil
        | cons d rest => simpa [digits] using smaller

theorem number?_toDigits (n : Nat) : number? (Nat.toDigits 10 n) = some (.int n) := by
  have digits : ∀ c ∈ Nat.toDigits 10 n, c.isDigit = true := fun c => isDigit_toDigits
  have leading : ¬ ((Nat.toDigits 10 n).length > 1 ∧ (Nat.toDigits 10 n).head? = some '0') := by
    by_cases zero : n = 0
    · subst zero
      simp
    · exact fun ⟨_, head⟩ => head?_toDigits zero head
  have unsigned : ∀ rest, Nat.toDigits 10 n ≠ '-' :: rest := by
    intro rest start
    have := digits '-' (by simp [start])
    simp at this
  rw [number?.eq_def]
  split
  rename_i negative body shape
  have plain : negative = false ∧ body = Nat.toDigits 10 n := by
    split at shape
    · rename_i rest start
      exact absurd start (unsigned rest)
    · exact ⟨(Prod.mk.inj shape).1.symm, (Prod.mk.inj shape).2.symm⟩
  obtain ⟨rfl, rfl⟩ := plain
  obtain ⟨taken, left⟩ := takeWhile_delimited digits (by decide) delimited_nil
  rw [List.append_nil] at taken left
  simp only [taken, left, digitsValue_toDigits]
  simpa using leading

theorem number?_negative {n : Nat} (h : n ≠ 0) : number? ('-' :: Nat.toDigits 10 n) = some (.int (-(n : Int))) := by
  have digits : ∀ c ∈ Nat.toDigits 10 n, c.isDigit = true := fun c => isDigit_toDigits
  have leading := head?_toDigits h
  obtain ⟨taken, left⟩ := takeWhile_delimited digits (by decide) delimited_nil
  rw [List.append_nil] at taken left
  simp [number?, taken, left, digitsValue_toDigits, leading, h]

theorem isNumberChar_of_isDigit {c : Char} (h : c.isDigit = true) : isNumberChar c = true ∧ c.isAlpha = false := by
  refine ⟨by simp [isNumberChar, h], ?_⟩
  have range := h
  simp only [Char.isDigit, Bool.and_eq_true, decide_eq_true_eq, UInt32.le_iff_toNat_le] at range
  delta Char.isAlpha Char.isUpper Char.isLower
  simp only [Bool.or_eq_false_iff, Bool.and_eq_false_iff, decide_eq_false_iff_not, ge_iff_le, UInt32.le_iff_toNat_le]
  constructor <;> simp at range ⊢ <;> omega

/-- Anything but a bracket, a mark or a quote starts a number or a word. -/
theorem nextLexeme_number {c : Char} {s rest : List Char} {j : Json} (starts : c.isDigit = true ∨ c = '-')
    (digits : ∀ d ∈ s, d.isDigit = true) (d : Delimited rest) (number : number? (c :: s) = some j) :
    nextLexeme c (s ++ rest) = some (.scalar j, rest) := by
  have numeric : ∀ d ∈ s, isNumberChar d = true := fun d member => (isNumberChar_of_isDigit (digits d member)).1
  obtain ⟨taken, left⟩ := takeWhile_delimited numeric (by decide) d
  have first : (isNumberChar c && !c.isAlpha) = true := by
    rcases starts with digit | rfl
    · simp [isNumberChar_of_isDigit digit]
    · decide
  rw [nextLexeme.eq_def]
  split
  case h_8 => rw [if_pos first, taken, left, number, Option.map_some]
  all_goals simp at starts

theorem nextLexeme_word {c : Char} {s rest : List Char} {j : Json} (letters : (c :: s).all Char.isAlpha = true)
    (d : Delimited rest) (word : word? (c :: s) = some j) : nextLexeme c (s ++ rest) = some (.scalar j, rest) := by
  have alpha := List.all_eq_true.mp letters
  obtain ⟨taken, left⟩ := takeWhile_delimited (fun d member => alpha d (List.mem_cons_of_mem c member)) (by decide) d
  have first : (isNumberChar c && !c.isAlpha) = false := by simp [alpha c List.mem_cons_self]
  have letter := alpha c List.mem_cons_self
  rw [nextLexeme.eq_def]
  split
  case h_8 => rw [if_neg (by simp [first]), taken, left, word, Option.map_some]
  all_goals simp at letter

/-! ## Cutting the compact form -/

theorem lexemes_cons {c : Char} {rest after : List Char} {l : Lexeme} (solid : isSpace c = false)
    (next : nextLexeme c rest = some (l, after)) : lexemes (c :: rest) = (lexemes after).map (l :: ·) := by
  rw [lexemes, if_neg (by simp [solid])]
  split
  · rename_i l' after' found
    rw [next] at found
    obtain ⟨rfl, rfl⟩ := Prod.mk.inj (Option.some.inj found)
    rfl
  · rename_i missing
    simp [next] at missing

theorem isSpace_of_isDigit {c : Char} (h : c.isDigit = true) : isSpace c = false := by
  rw [isSpace]
  simp only [Bool.or_eq_false_iff, beq_eq_false_iff_ne]
  refine ⟨⟨⟨?_, ?_⟩, ?_⟩, ?_⟩ <;> rintro rfl <;> simp at h

theorem lexemes_int (i : Int) {rest : List Char} (d : Delimited rest) :
    lexemes (intChars i ++ rest) = (lexemes rest).map (.scalar (.int i) :: ·) := by
  have digits : ∀ n, ∀ c ∈ Nat.toDigits 10 n, c.isDigit = true := fun n c => isDigit_toDigits
  rw [intChars]
  split
  · rename_i negative
    have value : -(i.natAbs : Int) = i := by omega
    have number := number?_negative (n := i.natAbs) (by omega)
    rw [value] at number
    exact lexemes_cons (by decide) (nextLexeme_number (.inr rfl) (digits _) d number)
  · rename_i positive
    have value : (i.natAbs : Int) = i := by omega
    have number := number?_toDigits i.natAbs
    have all := digits i.natAbs
    rw [value] at number
    cases shape : Nat.toDigits 10 i.natAbs with
    | nil => exact absurd shape Nat.toDigits_ne_nil
    | cons c more =>
        rw [shape] at number all
        have first := all c List.mem_cons_self
        exact lexemes_cons (isSpace_of_isDigit first) (nextLexeme_number (.inl first)
          (fun e member => all e (List.mem_cons_of_mem c member)) d number)

theorem lexemes_quote (s : String) (rest : List Char) :
    lexemes (quote s ++ rest) = (lexemes rest).map (.text (some s) :: ·) := by
  have shape : quote s ++ rest = '"' :: (s.toList.flatMap escape ++ '"' :: rest) := by simp [quote]
  rw [shape]
  exact lexemes_cons (by decide) (nextLexeme_quoted s rest)

mutual

/-- The compact form is cut into the lexemes that spell the value. -/
theorem lexemes_compact (j : Json) {rest : List Char} (d : Delimited rest) :
    lexemes (compact j ++ rest) = (lexemes rest).map (spell j ++ ·) := by
  cases j with
  | null | real | broken =>
      exact lexemes_cons (by decide) (nextLexeme_word (s := "ull".toList) (by decide) d rfl)
  | bool b =>
      cases b with
      | true => exact lexemes_cons (by decide) (nextLexeme_word (s := "rue".toList) (by decide) d rfl)
      | false => exact lexemes_cons (by decide) (nextLexeme_word (s := "alse".toList) (by decide) d rfl)
  | int i => exact lexemes_int i d
  | str s => exact lexemes_quote s rest
  | arr items =>
      have inside := lexemes_compactItems items (delimited_cons (c := ']') (by simp) rest)
      have close : lexemes (']' :: rest) = (lexemes rest).map (.closeList :: ·) := lexemes_cons (by decide) rfl
      simp only [compact, spell, List.cons_append, List.append_assoc, List.nil_append]
      rw [lexemes_cons (by decide) rfl, inside, close]
      simp [Function.comp_def]
  | obj fields =>
      have inside := lexemes_compactFields fields (delimited_cons (c := '\x7d') (by simp) rest)
      have close : lexemes ('\x7d' :: rest) = (lexemes rest).map (.closeRecord :: ·) := lexemes_cons (by decide) rfl
      simp only [compact, spell, List.cons_append, List.append_assoc, List.nil_append]
      rw [lexemes_cons (by decide) rfl, inside, close]
      simp [Function.comp_def]

theorem lexemes_compactItems (items : List Json) {rest : List Char} (d : Delimited rest) :
    lexemes (compactItems items ++ rest) = (lexemes rest).map (spellItems items ++ ·) := by
  match items with
  | [] => simp [compactItems, spellItems]
  | [j] => exact lexemes_compact j d
  | j :: k :: more =>
      have first := lexemes_compact j (delimited_cons (c := ',') (by simp) (compactItems (k :: more) ++ rest))
      have comma : lexemes (',' :: (compactItems (k :: more) ++ rest)) =
          (lexemes (compactItems (k :: more) ++ rest)).map (.comma :: ·) := lexemes_cons (by decide) rfl
      rw [compactItems, spellItems, List.append_assoc, List.cons_append, first, comma,
        lexemes_compactItems (k :: more) d]
      · simp [Function.comp_def]
      · simp
      · simp

theorem lexemes_compactFields (fields : List (String × Json)) {rest : List Char} (d : Delimited rest) :
    lexemes (compactFields fields ++ rest) = (lexemes rest).map (spellFields fields ++ ·) := by
  have colon : ∀ s, lexemes (':' :: s) = (lexemes s).map (.colon :: ·) := fun s => lexemes_cons (by decide) rfl
  match fields with
  | [] => simp [compactFields, spellFields]
  | [(k, j)] =>
      rw [compactFields, spellFields, List.append_assoc, List.cons_append, lexemes_quote, colon,
        lexemes_compact j d]
      simp [Function.comp_def]
  | (k, j) :: f :: more =>
      have first := lexemes_compact j (delimited_cons (c := ',') (by simp) (compactFields (f :: more) ++ rest))
      have comma : lexemes (',' :: (compactFields (f :: more) ++ rest)) =
          (lexemes (compactFields (f :: more) ++ rest)).map (.comma :: ·) := lexemes_cons (by decide) rfl
      rw [compactFields, spellFields]
      · simp only [List.append_assoc, List.cons_append]
        rw [lexemes_quote, colon, first, comma, lexemes_compactFields (f :: more) d]
        simp [Function.comp_def]
      · simp
      · simp

end

/-! ## Running the machine -/

namespace Machine

theorem run_cons {m next : Machine} {l : Lexeme} {rest : List Lexeme} (h : m.step l = some next) :
    m.run (l :: rest) = next.run rest := by
  rw [run, h]

/-- Where a value may come, the machine takes the lexemes of a value for the value. -/
def TakesValue (j : Json) : Prop :=
  ∀ (e : Expect) (stack : List Frame) (rest : List Lexeme), e = .value ∨ e = .firstItem →
    run ⟨e, stack⟩ (spell j ++ rest) = run (finish j stack) rest

theorem takesValue_of_start {j : Json} {l : Lexeme} (shape : spell j = [l])
    (start : ∀ stack, Machine.start stack l = some (finish j stack)) (other : l ≠ .closeList) : TakesValue j := by
  intro e stack rest expected
  rw [shape, List.singleton_append]
  apply run_cons
  rcases expected with rfl | rfl
  · exact start stack
  · rw [← start stack]
    cases l <;> first | rfl | exact absurd rfl other

theorem run_items {items : List Json} (all : ∀ j ∈ items, TakesValue j) (filled : items ≠ []) {e : Expect}
    (expected : e = .value ∨ e = .firstItem) (done : List Json) (stack : List Frame) (rest : List Lexeme) :
    run ⟨e, .list done :: stack⟩ (spellItems items ++ .closeList :: rest) =
      run (finish (.arr (done.reverse ++ items)) stack) rest := by
  induction items generalizing e done with
  | nil => exact absurd rfl filled
  | cons j more ih =>
      have value := all j List.mem_cons_self e (.list done :: stack)
      cases more with
      | nil =>
          have close : step ⟨.more, .list (j :: done) :: stack⟩ .closeList =
              some (finish (.arr (j :: done).reverse) stack) := rfl
          rw [spellItems, value _ expected, finish, run_cons close, List.reverse_cons]
      | cons k more =>
          have comma : step ⟨.more, .list (j :: done) :: stack⟩ .comma = some ⟨.value, .list (j :: done) :: stack⟩ := rfl
          rw [spellItems, List.append_assoc, value _ expected, List.cons_append, finish, run_cons comma,
            ih (fun i member => all i (List.mem_cons_of_mem j member)) (by simp) (.inl rfl)]
          · simp
          · simp

theorem run_fields {fields : List (String × Json)} (all : ∀ f ∈ fields, TakesValue f.2) (filled : fields ≠ [])
    {e : Expect} (expected : e = .key ∨ e = .firstKey) (done : List (String × Json)) (stack : List Frame)
    (rest : List Lexeme) :
    run ⟨e, .record done none true :: stack⟩ (spellFields fields ++ .closeRecord :: rest) =
      run (finish (.obj (done.reverse ++ fields)) stack) rest := by
  induction fields generalizing e done with
  | nil => exact absurd rfl filled
  | cons f more ih =>
      obtain ⟨k, j⟩ := f
      have value := all (k, j) List.mem_cons_self .value (.record done (some k) true :: stack)
      have key : step ⟨e, .record done none true :: stack⟩ (.text (some k)) =
          some ⟨.colon, .record done (some k) true :: stack⟩ := by
        rcases expected with rfl | rfl <;> rfl
      have colon : step ⟨.colon, .record done (some k) true :: stack⟩ .colon =
          some ⟨.value, .record done (some k) true :: stack⟩ := rfl
      cases more with
      | nil =>
          have close : step ⟨.more, .record ((k, j) :: done) none true :: stack⟩ .closeRecord =
              some (finish (.obj ((k, j) :: done).reverse) stack) := rfl
          rw [spellFields, List.cons_append, run_cons key, List.cons_append, run_cons colon, value _ (.inl rfl),
            finish, run_cons close, List.reverse_cons]
      | cons g more =>
          have comma : step ⟨.more, .record ((k, j) :: done) none true :: stack⟩ .comma =
              some ⟨.key, .record ((k, j) :: done) none true :: stack⟩ := rfl
          rw [spellFields]
          · simp only [List.cons_append, List.append_assoc]
            rw [run_cons key, run_cons colon, value _ (.inl rfl), finish, run_cons comma,
              ih (fun i member => all i (List.mem_cons_of_mem (k, j) member)) (by simp) (.inl rfl)]
            simp
          · simp

theorem takesValue {j : Json} (denoting : j.Denoting) : TakesValue j := by
  induction denoting with
  | null => exact takesValue_of_start rfl (fun _ => rfl) (by simp)
  | bool b => exact takesValue_of_start rfl (fun _ => rfl) (by simp)
  | int i => exact takesValue_of_start rfl (fun _ => rfl) (by simp)
  | str s => exact takesValue_of_start rfl (fun _ => rfl) (by simp)
  | @arr items _ ih =>
      intro e stack rest expected
      have opening : step ⟨e, stack⟩ .openList = some ⟨.firstItem, .list [] :: stack⟩ := by
        rcases expected with rfl | rfl <;> rfl
      rw [spell, List.cons_append, List.cons_append, run_cons opening, List.append_assoc, List.singleton_append]
      by_cases filled : items = []
      · subst filled
        exact run_cons rfl
      · rw [run_items ih filled (.inr rfl), List.reverse_nil, List.nil_append]
  | @obj fields _ ih =>
      intro e stack rest expected
      have opening : step ⟨e, stack⟩ .openRecord = some ⟨.firstKey, .record [] none true :: stack⟩ := by
        rcases expected with rfl | rfl <;> rfl
      rw [spell, List.cons_append, List.cons_append, run_cons opening, List.append_assoc, List.singleton_append]
      by_cases filled : fields = []
      · subst filled
        exact run_cons rfl
      · rw [run_fields ih filled (.inr rfl), List.reverse_nil, List.nil_append]

end Machine

/-- What is written of a value that denotes something is read as that value. -/
theorem parse_render {j : Json} (denoting : j.Denoting) : parse (render j) = some j := by
  have cut : lexemes (compact j) = some (spell j) := by
    have whole := lexemes_compact j delimited_nil
    simpa [lexemes] using whole
  have taken := Machine.takesValue denoting .value [] [] (.inl rfl)
  rw [List.append_nil] at taken
  rw [parse, render, String.toList_ofList, cut]
  exact taken

end QmlIndex.Json
