import QmlIndex.Document.Parser

/-! # How far a reader gets

A reader *takes* `n` tokens when every success leaves a suffix of its tokens that is shorter by at least
`n`, and *passes* `n` tokens when besides it is never stuck. The loops over single tokens are shown to be
repetitions of a turn that always takes a token, which is all that the readers built from them need.
-/

namespace QmlIndex.Document

/-- The cursor past the longest run of tokens of a class. -/
def Cursor.past (p : Token → Bool) (c : Cursor) : Cursor := Cursor.skipWhile p c.tokens c.lastEnd

namespace Reader

variable {α β σ : Type}

/-! ## Sequences -/

@[simp]
theorem bind_eq_stuck {r : Reader α} {f : α → Reader β} {c : Cursor} :
    (r >>= f) c = .stuck ↔ r c = .stuck ∨ ∃ a rest, r c = .done a rest ∧ f a rest = .stuck := by
  change Reader.bind r f c = .stuck ↔ _
  rw [Reader.bind]
  cases r c <;> simp [and_assoc]

@[simp]
theorem bind_eq_done {r : Reader α} {f : α → Reader β} {c last : Cursor} {b : β} :
    (r >>= f) c = .done b last ↔ ∃ a rest, r c = .done a rest ∧ f a rest = .done b last := by
  change Reader.bind r f c = .done b last ↔ _
  rw [Reader.bind]
  cases r c <;> simp [and_assoc]

@[simp]
theorem pure_apply (a : α) (c : Cursor) : (pure a : Reader α) c = .done a c := rfl

@[simp]
theorem cursor_bind (f : Cursor → Reader β) (c : Cursor) : (cursor >>= f) c = f c c := rfl

@[simp]
theorem lastEnd_bind (f : Position → Reader β) (c : Cursor) : (lastEnd >>= f) c = f c.lastEnd c := rfl

@[simp]
theorem skipWhile_bind (p : Token → Bool) (f : Unit → Reader β) (c : Cursor) :
    (skipWhile p >>= f) c = f () (c.past p) := rfl

@[simp]
theorem skipNewlines_bind (f : Unit → Reader β) (c : Cursor) :
    (skipNewlines >>= f) c = f () (c.past Token.isNewline) := rfl

@[simp]
theorem skipSeparators_bind (f : Unit → Reader β) (c : Cursor) :
    (skipSeparators >>= f) c = f () (c.past endsStatement) := rfl

/-- Every success leaves a suffix of the tokens that is shorter by at least `n`. -/
def Takes (n : Nat) (r : Reader α) : Prop :=
  ∀ ⦃c a rest⦄, r c = .done a rest → rest.tokens <:+ c.tokens ∧ rest.tokens.length + n ≤ c.tokens.length

/-- A reader that always ends and takes at least `n` tokens. -/
structure Passes (n : Nat) (r : Reader α) : Prop where
  ends : ∀ c, r c ≠ .stuck
  takes : Takes n r

namespace Takes

variable {n : Nat} {r : Reader α} {f : α → Reader β}

theorem weaken (h : Takes n r) : Takes 0 r := by
  intro c a rest success
  exact ⟨(h success).1, (h success).1.length_le⟩

theorem bind {m : Nat} (h : Takes m r) (k : ∀ a, Takes n (f a)) : Takes (m + n) (r >>= f) := by
  intro c b last success
  obtain ⟨a, rest, first, second⟩ := bind_eq_done.1 success
  have before := h first
  have after := k a second
  exact ⟨after.1.trans before.1, by omega⟩

theorem bind_left (h : Takes n r) (k : ∀ a, Takes 0 (f a)) : Takes n (r >>= f) := h.bind k

theorem bind_right (h : Takes 0 r) (k : ∀ a, Takes n (f a)) : Takes n (r >>= f) := by
  simpa only [Nat.zero_add] using h.bind k

/-- A reader that looks at the cursor takes what it takes for each cursor that it may see. -/
theorem cursor_bind {k : Cursor → Reader β} (h : ∀ c, Takes n (k c)) : Takes n (cursor >>= k) :=
  bind_right (fun _ _ _ success => by cases success; simp) h

end Takes

namespace Passes

variable {n : Nat} {r : Reader α} {f : α → Reader β}

theorem weaken (h : Passes n r) : Passes 0 r := ⟨h.ends, h.takes.weaken⟩

theorem bind_left (h : Passes n r) (k : ∀ a, Passes 0 (f a)) : Passes n (r >>= f) := by
  refine ⟨fun c => ?_, h.takes.bind_left fun a => (k a).takes⟩
  simp [h.ends, (k _).ends]

theorem bind_right (h : Passes 0 r) (k : ∀ a, Passes n (f a)) : Passes n (r >>= f) := by
  refine ⟨fun c => ?_, h.takes.bind_right fun a => (k a).takes⟩
  simp [h.ends, (k _).ends]

/-- After a reader that always ends, only what follows it can be stuck. -/
theorem bind_eq_stuck (h : Passes n r) {c : Cursor} :
    (r >>= f) c = .stuck ↔ ∃ a rest, r c = .done a rest ∧ f a rest = .stuck := by
  simp [h.ends]

theorem bind_unit_eq_stuck {r : Reader Unit} {f : Unit → Reader β} (h : Passes n r) {c : Cursor} :
    (r >>= f) c = .stuck ↔ ∃ rest, r c = .done () rest ∧ f () rest = .stuck :=
  h.bind_eq_stuck.trans ⟨fun ⟨_, found⟩ => found, fun found => ⟨(), found⟩⟩

/-- Before a reader that always ends, only what precedes it can be stuck. -/
theorem bind_eq_stuck_of_passes (k : ∀ a, Passes 0 (f a)) {c : Cursor} :
    (r >>= f) c = .stuck ↔ r c = .stuck := by
  simp [(k _).ends]

end Passes

theorem pure_passes (a : α) : Passes 0 (pure a : Reader α) :=
  ⟨fun _ => nofun, fun _ _ _ success => by cases success; simp⟩

theorem cursor_passes : Passes 0 cursor := ⟨fun _ => nofun, fun _ _ _ success => by cases success; simp⟩

theorem lastEnd_passes : Passes 0 lastEnd := ⟨fun _ => nofun, fun _ _ _ success => by cases success; simp⟩

theorem fail_passes {n : Nat} (fault : Fault) : Passes n (fail fault : Reader α) := ⟨fun _ => nofun, nofun⟩

theorem complain_eq_failed (complaint : Complaint) (c : Cursor) :
    ∃ fault, (complain complaint : Reader α) c = .failed fault := by
  rw [complain]
  split <;> exact ⟨_, rfl⟩

theorem complain_passes {n : Nat} (complaint : Complaint) : Passes n (complain complaint : Reader α) := by
  constructor
  · intro c
    obtain ⟨fault, failed⟩ := complain_eq_failed (α := α) complaint c
    simp [failed]
  · intro c a rest success
    obtain ⟨fault, failed⟩ := complain_eq_failed (α := α) complaint c
    simp [failed] at success

theorem next_passes : Passes 0 next := by
  constructor
  · intro c
    rw [next]
    split <;> nofun
  · intro c a rest success
    rw [next] at success
    split at success <;> cases success <;> simp_all

theorem accept_passes (f : Token → Option α) (complaint : Complaint) : Passes 1 (accept f complaint) := by
  constructor
  · intro c
    rw [accept]
    split
    · split
      · nofun
      · exact (complain_passes _ (n := 0)).ends c
    · exact (complain_passes _ (n := 0)).ends c
  · intro c a rest success
    rw [accept] at success
    split at success
    · rename_i t tail tokens
      split at success
      · cases success
        rw [tokens]
        exact ⟨List.suffix_cons .., Nat.le_refl _⟩
      · exact (complain_passes _).takes success
    · exact (complain_passes _).takes success

theorem word_passes (w : String) : Passes 1 (word w) := accept_passes _ _

theorem ident_passes : Passes 1 ident := accept_passes _ _

theorem punct_passes (p : Char) : Passes 1 (punct p) := accept_passes _ _

/-! ## Repetitions -/

/-- Go on with `f` where a turn asks for another one. -/
def resume (f : σ → Reader α) : Outcome (Turn σ α) → Outcome α
  | .done (.stop a) rest => .done a rest
  | .done (.again next) rest => f next rest
  | .failed fault => .failed fault
  | .stuck => .stuck

@[simp]
theorem resume_eq_stuck {f : σ → Reader α} {outcome : Outcome (Turn σ α)} :
    resume f outcome = .stuck ↔
      outcome = .stuck ∨ ∃ next rest, outcome = .done (.again next) rest ∧ f next rest = .stuck := by
  rw [resume.eq_def]
  split <;> simp [and_assoc]

/-- A turn that takes a token whenever it asks for another turn. -/
structure Advances (turn : σ → Reader (Turn σ α)) : Prop where
  takes : ∀ s, Takes 0 (turn s)
  again : ∀ ⦃s c next rest⦄, turn s c = .done (.again next) rest →
    rest.tokens.length < c.tokens.length

/-- A loop: one turn, and the same again from where the turn ends; and its turn advances. -/
structure Sweeps (f : σ → Reader α) (turn : σ → Reader (Turn σ α)) : Prop where
  loop : ∀ s c, f s c = resume f (turn s c)
  advances : Advances turn

theorem iterate_apply (turn : σ → Reader (Turn σ α)) (s : σ) (c : Cursor) :
    iterate turn s c =
      match turn s c with
      | .done (.stop a) rest => .done a rest
      | .done (.again next) rest => if rest.tokens.length < c.tokens.length then iterate turn next rest else .stuck
      | .failed fault => .failed fault
      | .stuck => .stuck := by
  refine (iterate.eq_def turn s c).trans ?_
  rcases turn s c with ⟨_ | _, _⟩ | _ | _ <;> rfl

theorem iterate_eq_stuck {turn : σ → Reader (Turn σ α)} {s : σ} {c : Cursor} :
    iterate turn s c = .stuck ↔ turn s c = .stuck ∨ ∃ next rest,
      turn s c = .done (.again next) rest ∧
        (rest.tokens.length < c.tokens.length → iterate turn next rest = .stuck) := by
  rw [iterate]
  split <;> simp_all [and_assoc]

theorem iterate_takes {turn : σ → Reader (Turn σ α)} (takes : ∀ s, Takes 0 (turn s)) (s : σ) :
    Takes 0 (iterate turn s) := by
  intro c a last success
  fun_induction iterate turn s c with
  | case1 s c b rest stopped =>
      cases success
      exact takes s stopped
  | case2 s c next rest again shorter ih =>
      have later := ih success
      exact ⟨later.1.trans (takes s again).1, by omega⟩
  | case3 | case4 | case5 => cases success

theorem Advances.iterate_sweeps {turn : σ → Reader (Turn σ α)} (h : Advances turn) :
    Sweeps (iterate turn) turn := by
  refine ⟨fun s c => ?_, h⟩
  rw [iterate]
  split
  · simp_all [resume]
  · rename_i next rest again
    rw [if_pos (h.again again), again, resume]
  · simp_all [resume]
  · simp_all [resume]

namespace Sweeps

variable {f : σ → Reader α} {turn : σ → Reader (Turn σ α)}

/-- An advancing turn has one loop only. -/
theorem eq_iterate (h : Sweeps f turn) (s : σ) (c : Cursor) : f s c = iterate turn s c := by
  fun_induction iterate turn s c with
  | case2 s c next rest again shorter ih => rw [h.loop, again, resume, ih]
  | case3 s c next rest again same => exact absurd (h.advances.again again) same
  | case1 s c _ _ ended | case4 s c _ ended | case5 s c ended => rw [h.loop, ended, resume]

theorem takes (h : Sweeps f turn) (s : σ) : Takes 0 (f s) := by
  intro c a rest success
  rw [h.eq_iterate] at success
  exact iterate_takes h.advances.takes s success

theorem passes (h : Sweeps f turn) (ends : ∀ s c, turn s c ≠ .stuck) (s : σ) : Passes 0 (f s) := by
  refine ⟨fun c => ?_, h.takes s⟩
  rw [h.eq_iterate]
  fun_induction iterate turn s c with
  | case1 | case4 => nofun
  | case2 s c next rest again shorter ih => exact ih
  | case3 s c next rest again same => exact absurd (h.advances.again again) same
  | case5 s c stuck => exact absurd stuck (ends s c)

end Sweeps

/-! ## Loops over single tokens

Each of them is the loop of a turn of its own, and the turn advances. -/

/-- A turn that ends, and goes forward if it asks for another one. -/
inductive Forward (c : Cursor) : Outcome (Turn σ α) → Prop where
  | stop {a : α} {rest : Cursor} : rest.tokens <:+ c.tokens → Forward c (.done (.stop a) rest)
  | again {next : σ} {rest : Cursor} :
      rest.tokens <:+ c.tokens → rest.tokens.length < c.tokens.length → Forward c (.done (.again next) rest)
  | failed {fault : Fault} : Forward c (.failed fault)

theorem Forward.ne_stuck {c : Cursor} {outcome : Outcome (Turn σ α)} (h : Forward c outcome) :
    outcome ≠ .stuck := by
  cases h <;> nofun

theorem advances_of_forward {turn : σ → Reader (Turn σ α)} (h : ∀ s c, Forward c (turn s c)) :
    Advances turn := by
  refine ⟨fun s c a rest success => ?_, fun s c next rest success => ?_⟩
  · have step := h s c
    rw [success] at step
    cases step with
    | stop within | again within _ => exact ⟨within, within.length_le⟩
  · have step := h s c
    rw [success] at step
    cases step with
    | again _ shorter => exact shorter

/-- Pass one more token of a class. -/
def runTurn (p : Token → Bool) (_ : Unit) : Reader (Turn Unit Unit) := fun c =>
  match c.tokens with
  | t :: rest => if p t then .done (.again ()) ⟨rest, t.range.stop⟩ else .done (.stop ()) c
  | [] => .done (.stop ()) c

/-- Take one more segment of a dotted name. -/
def segmentTurn (read : String × TextRange) :
    Reader (Turn (String × TextRange) (String × TextRange)) := fun c =>
  match c.tokens with
  | dot :: t :: rest =>
    match dot.isPunct '.', t.ident? with
    | true, some segment =>
      .done (.again (read.1 ++ "." ++ segment, read.2.cover t.range)) ⟨rest, t.range.stop⟩
    | _, _ => .done (.stop read) c
  | _ => .done (.stop read) c

/-- Pass one more token of an expression. -/
def expressionTurn (inList : Bool) (s : List Char × Option TokenKind) :
    Reader (Turn (List Char × Option TokenKind) Unit) := fun c =>
  match c.tokens with
  | [] => if s.1.isEmpty then .done (.stop ()) c else .failed .openExpression
  | t :: rest =>
    if s.1.isEmpty && endsExpression inList s.2 t rest then .done (.stop ()) c
    else
      match owe s.1 t.kind with
      | .error p => .failed (.found (.unbalanced p) t.range.start)
      | .ok owed => .done (.again (owed, if t.isNewline then s.2 else some t.kind)) ⟨rest, t.range.stop⟩

/-- Pass one more token of a bracketed region. -/
def balancedTurn (opening : Position) (owed : List Char) : Reader (Turn (List Char) Unit) := fun c =>
  match c.tokens with
  | [] => .failed (.found .unclosedBracket opening)
  | t :: rest =>
    match owe owed t.kind with
    | .error p => .failed (.found (.unbalanced p) t.range.start)
    | .ok [] => .done (.stop ()) ⟨rest, t.range.stop⟩
    | .ok (p :: owed) => .done (.again (p :: owed)) ⟨rest, t.range.stop⟩

theorem runTurn_forward (p : Token → Bool) (s : Unit) (c : Cursor) : Forward c (runTurn p s c) := by
  obtain ⟨_ | ⟨t, rest⟩, lastEnd⟩ := c
  · exact .stop (List.suffix_refl _)
  · simp only [runTurn]
    split
    · exact .again (List.suffix_cons ..) (Nat.lt_succ_self _)
    · exact .stop (List.suffix_refl _)

theorem skipWhile_sweeps (p : Token → Bool) : Sweeps (fun _ => skipWhile p) (runTurn p) := by
  refine ⟨fun _ c => ?_, advances_of_forward (runTurn_forward p)⟩
  obtain ⟨_ | ⟨t, rest⟩, lastEnd⟩ := c
  · rfl
  · simp only [skipWhile, runTurn, Cursor.skipWhile]
    split <;> rfl

theorem skipWhile_passes (p : Token → Bool) : Passes 0 (skipWhile p) :=
  (skipWhile_sweeps p).passes (fun s c => (runTurn_forward p s c).ne_stuck) ()

theorem past_suffix (p : Token → Bool) (c : Cursor) : (c.past p).tokens <:+ c.tokens :=
  ((skipWhile_passes p).takes (c := c) rfl).1

theorem not_of_past_peek {p : Token → Bool} {c : Cursor} {t : Token} (h : (c.past p).peek = some t) :
    p t = false := by
  obtain ⟨tokens, lastEnd⟩ := c
  simp only [Cursor.past] at h
  fun_induction Cursor.skipWhile p tokens lastEnd with
  | case1 _ _ _ _ ih => exact ih h
  | case2 _ _ _ stops =>
      cases h
      simpa using stops
  | case3 => cases h

@[simp]
theorem past_past (p : Token → Bool) (c : Cursor) : (c.past p).past p = c.past p := by
  obtain ⟨tokens, lastEnd⟩ := c
  simp only [Cursor.past]
  fun_induction Cursor.skipWhile p tokens lastEnd with
  | case1 _ _ _ _ ih => exact ih
  | case2 _ _ _ stops => rw [Cursor.skipWhile, if_neg stops]
  | case3 => rfl

theorem segmentTurn_forward (read : String × TextRange) (c : Cursor) : Forward c (segmentTurn read c) := by
  obtain ⟨_ | ⟨dot, _ | ⟨t, rest⟩⟩, lastEnd⟩ := c
  · exact .stop (List.suffix_refl _)
  · exact .stop (List.suffix_refl _)
  · simp only [segmentTurn]
    split
    · refine .again ((List.suffix_cons ..).trans (List.suffix_cons ..)) ?_
      simp only [List.length_cons]
      omega
    · exact .stop (List.suffix_refl _)

theorem segments_sweeps :
    Sweeps (fun read c => segments c.tokens read.1 read.2 c.lastEnd) segmentTurn := by
  refine ⟨fun read c => ?_, advances_of_forward segmentTurn_forward⟩
  obtain ⟨_ | ⟨dot, _ | ⟨t, rest⟩⟩, lastEnd⟩ := c
  · rfl
  · rfl
  · simp only [segments, segmentTurn]
    cases dot.isPunct '.' <;> cases t.ident? <;> rfl

theorem qualifiedName_passes : Passes 1 qualifiedName :=
  ident_passes.bind_left fun read =>
    segments_sweeps.passes (fun s c => (segmentTurn_forward s c).ne_stuck) read

theorem expressionTurn_forward (inList : Bool) (s : List Char × Option TokenKind) (c : Cursor) :
    Forward c (expressionTurn inList s c) := by
  obtain ⟨_ | ⟨t, rest⟩, lastEnd⟩ := c
  · simp only [expressionTurn]
    split
    · exact .stop (List.suffix_refl _)
    · exact .failed
  · simp only [expressionTurn]
    split
    · exact .stop (List.suffix_refl _)
    · split
      · exact .failed
      · exact .again (List.suffix_cons ..) (Nat.lt_succ_self _)

theorem skipExpression_sweeps (inList : Bool) :
    Sweeps (fun s c => skipExpressionFrom inList c.tokens s.1 s.2 c.lastEnd) (expressionTurn inList) := by
  refine ⟨fun s c => ?_, advances_of_forward (expressionTurn_forward inList)⟩
  obtain ⟨_ | ⟨t, rest⟩, lastEnd⟩ := c
  · simp only [skipExpressionFrom, expressionTurn]
    split <;> rfl
  · simp only [skipExpressionFrom, expressionTurn]
    split
    · rfl
    · cases owe s.1 t.kind <;> rfl

theorem skipExpression_passes (inList : Bool) : Passes 0 (skipExpression inList) :=
  (skipExpression_sweeps inList).passes (fun s c => (expressionTurn_forward inList s c).ne_stuck) ([], none)

theorem balancedTurn_forward (opening : Position) (owed : List Char) (c : Cursor) :
    Forward c (balancedTurn opening owed c) := by
  obtain ⟨_ | ⟨t, rest⟩, lastEnd⟩ := c
  · exact .failed
  · simp only [balancedTurn]
    split
    · exact .failed
    · exact .stop (List.suffix_cons ..)
    · exact .again (List.suffix_cons ..) (Nat.lt_succ_self _)

theorem skipBalanced_sweeps (opening : Position) :
    Sweeps (fun owed c => skipBalancedFrom opening c.tokens owed) (balancedTurn opening) := by
  refine ⟨fun owed c => ?_, advances_of_forward (balancedTurn_forward opening)⟩
  obtain ⟨_ | ⟨t, rest⟩, lastEnd⟩ := c
  · rfl
  · simp only [skipBalancedFrom, balancedTurn]
    rcases owe owed t.kind with _ | _ | ⟨closer, more⟩ <;> rfl

theorem skipBalanced_passes : Passes 1 skipBalanced := by
  have inside (opening : Position) (owed : List Char) :=
    (skipBalanced_sweeps opening).passes (fun s c => (balancedTurn_forward opening s c).ne_stuck) owed
  constructor
  · intro ⟨tokens, lastEnd⟩
    rw [skipBalanced]
    split
    · exact (complain_passes _ (n := 0)).ends _
    · split
      · exact (inside _ _).ends ⟨_, lastEnd⟩
      · nofun
  · intro ⟨tokens, lastEnd⟩ a last success
    rw [skipBalanced] at success
    split at success
    · exact (complain_passes _).takes success
    · rename_i t rest same
      simp only at same
      split at success
      · obtain ⟨within, shorter⟩ := (inside _ _).takes (c := ⟨rest, lastEnd⟩) success
        simp only at within shorter
        rw [same]
        exact ⟨within.trans (List.suffix_cons ..), by simp only [List.length_cons]; omega⟩
      · cases success

/-! ## Looking ahead

A loop that only looks ahead has no reader: its turn gives the answer, or the tokens to go on from. -/

/-- A loop that looks ahead, and further ahead at every turn. -/
structure Glances (f : List Token → α) (turn : List Token → α ⊕ List Token) : Prop where
  loop : ∀ tokens, f tokens = (turn tokens).elim id f
  advances : ∀ ⦃tokens rest⦄, turn tokens = .inr rest → rest <:+ tokens ∧ rest.length < tokens.length

/-- Look past one line break. -/
def breakTurn : List Token → List Token ⊕ List Token
  | t :: rest => if t.isNewline then .inr rest else .inl (t :: rest)
  | [] => .inl []

/-- Look at one more token for how the next line begins. -/
def lineTurn (inList : Bool) : List Token → Bool ⊕ List Token
  | [] => .inl false
  | t :: rest =>
    match t.kind with
    | .newline => .inr rest
    | .punct '\x7d' => .inl false
    | .punct p => .inl !(inList && (p == ',' || p == ']'))
    | _ => .inl false

/-- Look past one segment of a dotted name. -/
def dottedTurn : List Token → Option (String × List Token) ⊕ List Token
  | [] => .inl none
  | t :: rest =>
    match t.ident? with
    | none => .inl none
    | some segment =>
      match rest with
      | dot :: more => if dot.isPunct '.' then .inr more else .inl (some (segment, rest))
      | [] => .inl (some (segment, []))

theorem dropBreaks_glances : Glances (List.dropWhile Token.isNewline) breakTurn := by
  constructor
  · intro tokens
    cases tokens with
    | nil => rfl
    | cons t rest =>
        rw [breakTurn, List.dropWhile_cons]
        split <;> rfl
  · intro tokens rest more
    rw [breakTurn.eq_def] at more
    split at more
    · split at more <;> cases more
      exact ⟨List.suffix_cons .., Nat.lt_succ_self _⟩
    · cases more

theorem nextLineContinues_glances (inList : Bool) :
    Glances (nextLineContinues inList) (lineTurn inList) := by
  constructor
  · intro tokens
    cases tokens with
    | nil => rfl
    | cons t rest =>
        rw [lineTurn, nextLineContinues]
        split <;> simp_all
  · intro tokens rest more
    rw [lineTurn.eq_def] at more
    split at more
    · cases more
    · split at more <;> cases more
      exact ⟨List.suffix_cons .., Nat.lt_succ_self _⟩

theorem afterDotted_glances : Glances Cursor.afterDotted dottedTurn := by
  constructor
  · intro tokens
    obtain _ | ⟨t, _ | ⟨dot, more⟩⟩ := tokens
    · rfl
    · rw [dottedTurn, Cursor.afterDotted]
      cases t.ident? <;> rfl
    · rw [dottedTurn, Cursor.afterDotted]
      cases t.ident? with
      | none => rfl
      | some segment =>
          simp only
          split <;> rfl
  · intro tokens rest more
    obtain _ | ⟨t, _ | ⟨dot, tail⟩⟩ := tokens
    · cases more
    · rw [dottedTurn] at more
      cases named : t.ident? <;> simp [named] at more
    · rw [dottedTurn] at more
      cases named : t.ident? <;> cases dotted : dot.isPunct '.' <;> simp [named, dotted] at more
      subst more
      exact ⟨(List.suffix_cons ..).trans (List.suffix_cons ..), by simp only [List.length_cons]; omega⟩

end Reader

end QmlIndex.Document
