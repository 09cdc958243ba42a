import QmlIndex.Proofs.Document.Bare
import QmlIndex.Proofs.Document.Walk
import QmlIndex.Proofs.Document.Words

/-! # Brackets nest

The brackets of a document are matched in three ways: objects and lists by the descent, and regions and expressions by
the closing brackets that are still owed. All of them take words in which the brackets nest, and such words can be put
one after the other and in brackets, so the brackets of the whole document nest.
-/

namespace QmlIndex

namespace Document

/-! ## What readers take -/

/-- Words that can be put one after the other. -/
class Joins (P : List Token → Prop) : Prop where
  nil : P []
  append : ∀ {ts us : List Token}, P ts → P us → P (ts ++ us)

instance : Joins Plain where
  nil := nofun
  append first second t member := (List.mem_append.mp member).elim (first t) (second t)

instance : Joins Nested := ⟨.nil, .append⟩

namespace Reader

variable {α β σ : Type} {P : List Token → Prop} {r : Reader α} {f : α → Reader β} {c : Cursor}

/-- From one cursor to another by taking such a word. -/
def Spent (P : List Token → Prop) (c rest : Cursor) : Prop := ∃ taken, c.tokens = taken ++ rest.tokens ∧ P taken

/-- Every success takes such a word. -/
def Spends (P : List Token → Prop) (r : Reader α) (c : Cursor) : Prop := ∀ ⦃a rest⦄, r c = .done a rest → Spent P c rest

theorem spent_refl [Joins P] (c : Cursor) : Spent P c c := ⟨[], rfl, Joins.nil⟩

theorem Spent.trans [Joins P] {d e : Cursor} (first : Spent P c d) (second : Spent P d e) : Spent P c e := by
  obtain ⟨ts, split, before⟩ := first
  obtain ⟨us, split', after⟩ := second
  exact ⟨ts ++ us, by rw [split, split', List.append_assoc], Joins.append before after⟩

theorem Spent.nested {d : Cursor} (h : Spent Plain c d) : Spent Nested c d := by
  obtain ⟨taken, split, plain⟩ := h
  exact ⟨taken, split, plain.nested⟩

theorem Spends.nested (h : Spends Plain r c) : Spends Nested r c := fun _ _ success => (h success).nested

theorem Spends.bind [Joins P] (first : Spends P r c) (second : ∀ a d, Spends P (f a) d) : Spends P (r >>= f) c := by
  intro b last success
  obtain ⟨a, mid, left, right⟩ := bind_eq_done.1 success
  exact (first left).trans (second a mid right)

/-- A reader that looks at the cursor first. -/
theorem Spends.look {f : Cursor → Reader β} (h : Spends P (f c) c) : Spends P (cursor >>= f) c := h

theorem pure_spends [Joins P] (a : α) (c : Cursor) : Spends P (pure a : Reader α) c := by
  intro b rest success
  cases success
  exact spent_refl c

theorem ended_spends [Joins P] (f : Position → α) (c : Cursor) : Spends P (do return f (← lastEnd)) c := by
  intro b rest success
  obtain ⟨_, rfl⟩ := ended_eq_done.1 success
  exact spent_refl rest

theorem complain_spends (complaint : Complaint) (c : Cursor) : Spends P (complain complaint : Reader α) c :=
  fun _ _ success => absurd success complain_ne_done

/-! ### Without brackets -/

theorem next_plain (front : ∀ t ∈ c.peek, t.isBracket = false) : Spends Plain next c := by
  intro a rest success
  obtain ⟨_ | ⟨t, ts⟩, e⟩ := c
  · cases success
    exact spent_refl _
  · cases success
    exact ⟨[t], rfl, by simpa [Plain] using front t rfl⟩

theorem isBracket_of_ident? {t : Token} {w : String} (word : t.ident? = some w) : t.isBracket = false := by
  rw [Token.ident?] at word
  rw [Token.isBracket]
  split at word
  · rename_i kind
    rw [kind]
  · cases word

theorem isBracket_of_isPunct {t : Token} {p : Char} (here : t.isPunct p = true) (other : isBracket p = false) :
    t.isBracket = false := by
  rw [Token.isPunct, beq_iff_eq] at here
  rw [Token.isBracket, here]
  exact other

theorem isBracket_of_isNewline {t : Token} (here : t.isNewline = true) : t.isBracket = false := by
  rw [Token.isNewline, beq_iff_eq] at here
  rw [Token.isBracket, here]

theorem next_punct_plain {p : Char} (here : c.atPunct p = true) (other : isBracket p = false) : Spends Plain next c :=
  next_plain fun t front => isBracket_of_isPunct (by simpa [Cursor.atPunct, Option.mem_def.mp front] using here) other

theorem next_word_plain {w : String} (here : c.atWord w = true) : Spends Plain next c := by
  refine next_plain fun t front => ?_
  rw [Cursor.atWord, Cursor.word?, Option.mem_def.mp front, Option.bind_some, beq_iff_eq] at here
  exact isBracket_of_ident? here

theorem accept_plain {f : Token → Option α} {complaint : Complaint}
    (kinds : ∀ t a, f t = some a → t.isBracket = false) (c : Cursor) : Spends Plain (accept f complaint) c := by
  intro a rest success
  obtain ⟨t, ts, split, found, rfl⟩ := accept_eq_done success
  exact ⟨[t], split, by simpa [Plain] using kinds t a found⟩

theorem word_plain (w : String) (c : Cursor) : Spends Plain (word w) c := by
  refine accept_plain (fun t a found => ?_) c
  split at found
  · rename_i same
    exact isBracket_of_ident? (beq_iff_eq.mp same)
  · cases found

theorem ident_plain (c : Cursor) : Spends Plain ident c := by
  refine accept_plain (fun t a found => ?_) c
  obtain ⟨w, word, _⟩ := Option.map_eq_some_iff.mp found
  exact isBracket_of_ident? word

theorem punct_plain {p : Char} (other : isBracket p = false) (c : Cursor) : Spends Plain (punct p) c := by
  refine accept_plain (fun t a found => ?_) c
  split at found
  · rename_i here
    exact isBracket_of_isPunct here other
  · cases found

/-- What is passed is a run of tokens of the class. -/
theorem past_run (p : Token → Bool) (c : Cursor) : Spent (fun ts => ∀ t ∈ ts, p t = true) c (c.past p) := by
  obtain ⟨ts, e⟩ := c
  induction ts generalizing e with
  | nil => exact ⟨[], rfl, nofun⟩
  | cons t ts ih =>
      by_cases here : p t = true
      · obtain ⟨taken, split, run⟩ := ih t.range.stop
        have same : (Cursor.mk (t :: ts) e).past p = (Cursor.mk ts t.range.stop).past p := by
          simp only [Cursor.past, Cursor.skipWhile, if_pos here]
        exact ⟨t :: taken, by rw [same, List.cons_append, ← split], List.forall_mem_cons.mpr ⟨here, run⟩⟩
      · have same : (Cursor.mk (t :: ts) e).past p = ⟨t :: ts, e⟩ := by
          simp only [Cursor.past, Cursor.skipWhile, if_neg here]
        exact ⟨[], by rw [same]; rfl, nofun⟩

theorem past_plain {p : Token → Bool} (kinds : ∀ t, p t = true → t.isBracket = false) (c : Cursor) :
    Spent Plain c (c.past p) := by
  obtain ⟨taken, split, run⟩ := past_run p c
  exact ⟨taken, split, fun t member => kinds t (run t member)⟩

theorem skipWhile_plain {p : Token → Bool} (kinds : ∀ t, p t = true → t.isBracket = false) (c : Cursor) :
    Spends Plain (skipWhile p) c := by
  intro a rest success
  cases success
  exact past_plain kinds c

theorem skipNewlines_plain (c : Cursor) : Spends Plain skipNewlines c :=
  skipWhile_plain (fun _ => isBracket_of_isNewline) c

theorem isBracket_of_endsStatement (t : Token) (here : endsStatement t = true) : t.isBracket = false := by
  rcases Bool.or_eq_true_iff.mp here with newline | semicolon
  · exact isBracket_of_isNewline newline
  · exact isBracket_of_isPunct semicolon (by decide)

theorem isBracket_of_separatesElements (t : Token) (here : separatesElements t = true) : t.isBracket = false := by
  rcases Bool.or_eq_true_iff.mp here with newline | comma
  · exact isBracket_of_isNewline newline
  · exact isBracket_of_isPunct comma (by decide)

theorem isBracket_of_isModifier (t : Token) (here : isModifier t = true) : t.isBracket = false := by
  rw [isModifier, Option.any_eq_true] at here
  obtain ⟨w, word, _⟩ := here
  exact isBracket_of_ident? word

theorem segments_plain (name : String) (range : TextRange) (c : Cursor) :
    Spends Plain (fun c => segments c.tokens name range c.lastEnd) c := by
  intro a rest success
  obtain ⟨ts, e⟩ := c
  simp only at success ⊢
  fun_induction segments ts name range e with
  | case1 dot t ts name range e segment word here ih =>
      obtain ⟨taken, split, plain⟩ := ih success
      refine ⟨dot :: t :: taken, congrArg (dot :: t :: ·) split, ?_⟩
      refine List.forall_mem_cons.mpr ⟨isBracket_of_isPunct here (by decide), ?_⟩
      exact List.forall_mem_cons.mpr ⟨isBracket_of_ident? word, plain⟩
  | case2 | case3 =>
      cases success
      exact spent_refl _

theorem qualifiedName_plain (c : Cursor) : Spends Plain qualifiedName c :=
  (ident_plain c).bind fun _ d => segments_plain _ _ d

theorem typeName_plain (c : Cursor) : Spends Plain typeName c := by
  refine (qualifiedName_plain c).bind fun _ d => .look ?_
  split
  · rename_i opens
    refine (next_punct_plain opens (by decide)).bind fun _ d => (qualifiedName_plain d).bind fun _ d => ?_
    exact (punct_plain (by decide) d).bind fun _ d => pure_spends _ d
  · exact pure_spends _ d

theorem resultType_plain (c : Cursor) : Spends Plain resultType c := by
  refine Spends.look ?_
  split
  · rename_i colon
    exact (next_punct_plain colon (by decide)).bind fun _ d => (typeName_plain d).bind fun _ d => pure_spends _ d
  · exact pure_spends _ c

theorem beforeBody_plain (c : Cursor) : Spends Plain beforeBody c := by
  refine Spends.bind ?_ fun _ d => skipNewlines_plain d
  refine Spends.look ?_
  split
  · rename_i on
    exact (next_word_plain on).bind fun _ d => (qualifiedName_plain d).bind fun _ d => pure_spends _ d
  · exact pure_spends _ c

theorem objectHead_plain (c : Cursor) : Spends Plain objectHead c :=
  (qualifiedName_plain c).bind fun _ d => (beforeBody_plain d).bind fun _ d => pure_spends _ d

theorem componentHead_plain (c : Cursor) : Spends Plain componentHead c :=
  (word_plain _ c).bind fun _ d => (ident_plain d).bind fun _ d => (punct_plain (by decide) d).bind fun _ d =>
    (skipNewlines_plain d).bind fun _ d => pure_spends _ d

theorem propertyHead_plain (c : Cursor) : Spends Plain propertyHead c :=
  (word_plain _ c).bind fun _ d => (typeName_plain d).bind fun _ d => (ident_plain d).bind fun _ d => pure_spends _ d

/-! ### With brackets that nest -/

theorem skipExpressionFrom_settles {inList : Bool} {ts : List Token} {owed : List Char} {previous : Option TokenKind}
    {e : Position} {rest : Cursor} (success : skipExpressionFrom inList ts owed previous e = .done () rest) :
    ∃ taken, ts = taken ++ rest.tokens ∧ settle owed taken = some [] := by
  fun_induction skipExpressionFrom inList ts owed previous e with
  | case1 owed previous e settled =>
      cases success
      exact ⟨[], rfl, by rw [settle, List.isEmpty_iff.mp settled]⟩
  | case3 t ts owed previous e ends =>
      cases success
      rw [Bool.and_eq_true, List.isEmpty_iff] at ends
      exact ⟨[], rfl, by rw [settle, ends.1]⟩
  | case5 t ts owed previous e inside owed' ok ih =>
      obtain ⟨taken, split, settles⟩ := ih success
      exact ⟨t :: taken, by rw [split, List.cons_append], by rw [settle, ok]; exact settles⟩
  | case2 | case4 => cases success

theorem skipExpression_nested (inList : Bool) (c : Cursor) : Spends Nested (skipExpression inList) c := by
  intro _ rest success
  obtain ⟨taken, split, settles⟩ := skipExpressionFrom_settles success
  exact ⟨taken, split, nested_iff_settle.mpr settles⟩

theorem skipBalancedFrom_settles {opening : Position} {ts : List Token} {owed : List Char} {rest : Cursor}
    (success : skipBalancedFrom opening ts owed = .done () rest) :
    ∃ taken, ts = taken ++ rest.tokens ∧ settle owed taken = some [] := by
  fun_induction skipBalancedFrom opening ts owed with
  | case3 t ts owed ok =>
      cases success
      exact ⟨[t], rfl, by rw [settle, ok]; rfl⟩
  | case4 t ts owed d owed' ok ih =>
      obtain ⟨taken, split, settles⟩ := ih success
      exact ⟨t :: taken, by rw [split, List.cons_append], by rw [settle, ok]; exact settles⟩
  | case1 | case2 => cases success

theorem skipBalanced_nested (c : Cursor) : Spends Nested skipBalanced c := by
  intro _ rest success
  obtain ⟨_ | ⟨t, ts⟩, e⟩ := c
  · exact complain_spends .expectedBracket _ success
  · simp only [skipBalanced] at success
    split at success
    · rename_i closer owed ok
      obtain ⟨taken, split, settles⟩ := skipBalancedFrom_settles success
      refine ⟨t :: taken, by rw [List.cons_append, ← split], nested_iff_settle.mpr ?_⟩
      rw [settle, ok]
      exact settles
    · cases success

theorem region_nested (opening : Char) (complaint : Complaint) (c : Cursor) :
    Spends Nested (region opening complaint) c := by
  refine Spends.look ?_
  split
  · exact skipBalanced_nested c
  · exact complain_spends complaint c

theorem signal_nested (start : Position) (c : Cursor) : Spends Nested (signal start) c := by
  refine (word_plain _ c).nested.bind fun _ d => (ident_plain d).nested.bind fun _ d => .look ?_
  split
  · exact (skipBalanced_nested d).bind fun _ d => ended_spends _ d
  · exact ended_spends _ d

theorem function_nested (start : Position) (c : Cursor) : Spends Nested (function start) c := by
  refine (word_plain _ c).nested.bind fun _ d => (ident_plain d).nested.bind fun _ d => ?_
  refine (region_nested _ _ d).bind fun _ d => (resultType_plain d).nested.bind fun _ d => ?_
  refine (skipNewlines_plain d).nested.bind fun _ d => (region_nested _ _ d).bind fun _ d => ?_
  exact ended_spends _ d

theorem enumeration_nested (start : Position) (c : Cursor) : Spends Nested (enumeration start) c := by
  refine (word_plain _ c).nested.bind fun _ d => (ident_plain d).nested.bind fun _ d => ?_
  refine (skipNewlines_plain d).nested.bind fun _ d => (region_nested _ _ d).bind fun _ d => ?_
  exact ended_spends _ d

/-- The first two tokens of an `id` member are a word and a colon. -/
theorem idMember_nested {start : Position} (declares : declaration? c = some (.id, start)) :
    Spends Nested (idMember start) c := by
  obtain ⟨⟨w, word⟩, colon⟩ := isBindingName_of_id declares
  have second (t : Option Token) (d : Cursor) (first : next c = .done t d) : d.atPunct ':' = true := by
    obtain ⟨_ | ⟨u, us⟩, e⟩ := c
    · cases word
    · cases first
      simpa [Cursor.isBindingName, Cursor.atPunct, Cursor.peek, List.head?_eq_getElem?] using colon
  intro m rest success
  obtain ⟨t, mid, first, more⟩ := bind_eq_done.1 success
  have start : Spent Plain c mid := next_word_plain (w := w) (by rw [Cursor.atWord, word, beq_iff_eq]) first
  refine start.nested.trans (Spends.bind ?_ (fun _ d => ?_) more)
  · exact (next_punct_plain (second t mid first) (by decide)).nested
  · exact (ident_plain d).nested.bind fun _ d => ended_spends _ d

/-! ### With bodies -/

variable {p q : Char} {closing : Token} {mid rest : Cursor}

theorem Spent.shut (first : Spent Nested c mid) (second : Spent (Shut q closing) mid rest) :
    Spent (Shut q closing) c rest := by
  obtain ⟨before, split, nested⟩ := first
  obtain ⟨_, split', inner, rfl, nested', closes⟩ := second
  exact ⟨_, by rw [split, split', ← List.append_assoc], before ++ inner, by rw [List.append_assoc],
    nested.append nested', closes⟩

theorem Spent.enclose (opened : punct p c = .done () mid) (shut : Spent (Shut q closing) mid rest) :
    Spent (Enclosed p q closing) c rest := by
  obtain ⟨opening, ts, split, found, rfl⟩ := accept_eq_done opened
  obtain ⟨_, split', inner, rfl, nested, closes⟩ := shut
  simp only at split'
  refine ⟨_, by rw [split, split', ← List.cons_append], opening, inner, rfl, ?_, nested, closes⟩
  split at found
  · rename_i here
    exact beq_iff_eq.mp here
  · cases found

/-- Where a loop stops, it takes its closing bracket. -/
theorem next_shut {t : Token} {f : Option Token → Reader β} {b : β} (front : c.peek = some t)
    (here : t.isPunct q = true) (success : (next >>= f) c = .done b rest) :
    ∃ mid, Spent (Shut q t) c mid ∧ mid.lastEnd = t.range.stop ∧ f (some t) mid = .done b rest := by
  obtain ⟨_, mid, taken, more⟩ := bind_eq_done.1 success
  obtain ⟨_ | ⟨u, us⟩, e⟩ := c
  · cases front
  · cases front
    cases taken
    exact ⟨_, ⟨[t], rfl, [], rfl, .nil, beq_iff_eq.mp here⟩, rfl, more⟩

/-- A loop whose turns take words with brackets that nest, up to a closing bracket. -/
theorem iterate_shut {turn : σ → Reader (Turn σ α)} {Q : α → Token → Prop}
    (again : ∀ s c next rest, turn s c = .done (.again next) rest → Spent Nested c rest)
    (stop : ∀ s c a rest, turn s c = .done (.stop a) rest → ∃ closing, Spent (Shut q closing) c rest ∧ Q a closing)
    {s : σ} {a : α} (success : iterate turn s c = .done a rest) :
    ∃ closing, Spent (Shut q closing) c rest ∧ Q a closing := by
  refine iterate_invariant (P := fun _ d => Spent Nested c d)
    (Q := fun a d => ∃ closing, Spent (Shut q closing) c d ∧ Q a closing) ?_ ?_ (spent_refl c) success
  · exact fun s d next rest before turn => before.trans (again s d next rest turn)
  · intro s d a rest before turn
    obtain ⟨closing, shut, fits⟩ := stop s d a rest turn
    exact ⟨closing, before.shut shut, fits⟩

/-- What a body takes stands between braces, and its object ends with the closing one. -/
def BodyReader.Encloses (body : BodyReader) : Prop :=
  ∀ ⦃name start c o rest⦄, body name start c = .done o rest → o.typeName = name ∧
    ∃ closing, Spent (Enclosed '\x7b' '\x7d' closing) c rest ∧ o.range = ⟨start, closing.range.stop⟩

variable {body : BodyReader}

theorem BodyReader.Encloses.nested (encloses : body.Encloses) (name : String) (start : Position) (c : Cursor) :
    Spends Nested (body name start) c := by
  intro o rest success
  obtain ⟨_, closing, ⟨taken, split, enclosed⟩, _⟩ := encloses success
  exact ⟨taken, split, enclosed.nested rfl⟩

theorem object_nested (encloses : body.Encloses) (c : Cursor) : Spends Nested (object body) c :=
  (objectHead_plain c).nested.bind fun head d => encloses.nested head.1 head.2 d

theorem component_nested (encloses : body.Encloses) (start : Position) (c : Cursor) :
    Spends Nested (component body start) c :=
  (componentHead_plain c).nested.bind fun _ d => (object_nested encloses d).bind fun _ d => ended_spends _ d

theorem listTurn_nested (encloses : body.Encloses) {objects next : List ObjectNode}
    (turn : listTurn body objects c = .done (.again next) rest) : Spent Nested c rest := by
  have separators := (past_plain isBracket_of_separatesElements c).nested
  rw [listTurn_apply] at turn
  split at turn
  · cases turn
  · split at turn
    · obtain ⟨_, _, _, same⟩ := bind_eq_done.1 turn
      cases same
    · split at turn
      · exact separators.trans (((object_nested encloses _).bind fun _ d => pure_spends _ d) turn)
      · exact separators.trans (((skipExpression_nested true _).bind fun _ d => pure_spends _ d) turn)

theorem listTurn_shut {objects read : List ObjectNode} (turn : listTurn body objects c = .done (.stop read) rest) :
    ∃ closing, Spent (Shut ']' closing) c rest := by
  have separators := (past_plain isBracket_of_separatesElements c).nested
  rw [listTurn_apply] at turn
  split at turn
  · cases turn
  · rename_i t front
    split at turn
    · rename_i here
      obtain ⟨_, shut, _, same⟩ := next_shut front here turn
      cases same
      exact ⟨t, separators.shut shut⟩
    · split at turn <;> obtain ⟨_, _, _, same⟩ := bind_eq_done.1 turn <;> cases same

theorem list_nested (encloses : body.Encloses) (c : Cursor) : Spends Nested (list body) c := by
  intro objects rest success
  obtain ⟨_, mid, opened, elements⟩ := bind_eq_done.1 success
  obtain ⟨closing, shut, _⟩ := iterate_shut (fun _ _ _ _ turn => listTurn_nested encloses turn)
    (fun _ _ _ _ turn => (listTurn_shut turn).imp fun _ shut => ⟨shut, trivial⟩) elements
  obtain ⟨taken, split, enclosed⟩ := shut.enclose opened
  exact ⟨taken, split, enclosed.nested rfl⟩

theorem value_nested (encloses : body.Encloses) (c : Cursor) : Spends Nested (value body) c := by
  refine (skipNewlines_plain c).nested.bind fun _ d => .look ?_
  split
  · exact (skipBalanced_nested d).bind fun _ d => pure_spends _ d
  · split
    · exact list_nested encloses d
    · split
      · exact (object_nested encloses d).bind fun _ d => pure_spends _ d
      · exact (skipExpression_nested false d).bind fun _ d => pure_spends _ d

theorem property_nested (encloses : body.Encloses) (start : Position) (c : Cursor) :
    Spends Nested (property body start) c := by
  refine (propertyHead_plain c).nested.bind fun _ d => .look ?_
  split
  · rename_i colon
    refine (next_punct_plain colon (by decide)).nested.bind fun _ d => (value_nested encloses d).bind fun _ d => ?_
    exact ended_spends _ d
  · exact ended_spends _ d

theorem modified_nested (encloses : body.Encloses) (start : Position) (c : Cursor) :
    Spends Nested (modified body start) c := by
  refine (skipWhile_plain isBracket_of_isModifier c).nested.bind fun _ d => .look ?_
  split
  · exact property_nested encloses start d
  · exact (ident_plain d).nested.bind fun _ d => ended_spends _ d

theorem named_nested (encloses : body.Encloses) (start : Position) (c : Cursor) :
    Spends Nested (named body start) c := by
  refine (qualifiedName_plain c).nested.bind fun _ d => .look ?_
  split
  · exact (beforeBody_plain d).nested.bind fun _ d => (encloses.nested _ _ d).bind fun _ d => pure_spends _ d
  · split
    · rename_i colon
      refine (next_punct_plain colon (by decide)).nested.bind fun _ d => (value_nested encloses d).bind fun _ d => ?_
      exact ended_spends _ d
    · exact complain_spends _ d

theorem member_nested (encloses : body.Encloses) (c : Cursor) : Spends Nested (member body) c := by
  refine Spends.look ?_
  split
  · rename_i kind start declares
    cases kind with
    | id => exact idMember_nested declares
    | property => exact property_nested encloses start c
    | modified => exact modified_nested encloses start c
    | signal => exact signal_nested start c
    | function => exact function_nested start c
    | component => exact component_nested encloses start c
    | enumeration => exact enumeration_nested start c
    | named => exact named_nested encloses start c
  · exact complain_spends _ c

theorem membersTurn_nested (encloses : body.Encloses) {name : String} {start : Position} {read next : List Member}
    (turn : membersTurn body name start read c = .done (.again next) rest) : Spent Nested c rest := by
  have separators := (past_plain isBracket_of_endsStatement c).nested
  rw [membersTurn_apply] at turn
  split at turn
  · cases turn
  · split at turn
    · obtain ⟨_, _, _, same⟩ := bind_eq_done.1 turn
      cases same
    · exact separators.trans (((member_nested encloses _).bind fun _ d => pure_spends _ d) turn)

theorem membersTurn_shut {name : String} {start : Position} {read : List Member} {o : ObjectNode}
    (turn : membersTurn body name start read c = .done (.stop o) rest) :
    ∃ closing, Spent (Shut '\x7d' closing) c rest ∧ o.typeName = name ∧ o.range = ⟨start, closing.range.stop⟩ := by
  have separators := (past_plain isBracket_of_endsStatement c).nested
  rw [membersTurn_apply] at turn
  split at turn
  · cases turn
  · rename_i t front
    split at turn
    · rename_i here
      obtain ⟨mid, shut, ends, same⟩ := next_shut front here turn
      obtain ⟨same, rfl⟩ := ended_eq_done.1 same
      cases same
      exact ⟨t, separators.shut shut, rfl, by rw [← ends]; rfl⟩
    · obtain ⟨_, _, _, same⟩ := bind_eq_done.1 turn
      cases same

theorem members_encloses (encloses : body.Encloses) : (members body).Encloses := by
  intro name start c o rest success
  obtain ⟨_, mid, opened, loop⟩ := bind_eq_done.1 success
  obtain ⟨closing, shut, named, range⟩ := iterate_shut (fun _ _ _ _ turn => membersTurn_nested encloses turn)
    (fun _ _ _ _ turn => membersTurn_shut turn) loop
  exact ⟨named, closing, shut.enclose opened, range⟩

theorem body_encloses (limit levels : Nat) : (Reader.body limit levels).Encloses := by
  induction levels with
  | zero => exact fun _ _ _ _ _ success => absurd success complain_ne_done
  | succ levels ih => exact members_encloses ih

/-- An object is its head and what stands between its braces. -/
theorem object_framed (encloses : body.Encloses) {o : ObjectNode} (success : object body c = .done o rest) :
    (∃ range rest, qualifiedName c = .done (o.typeName, range) rest) ∧
      ∃ closing, Framed c.tokens closing rest.tokens ∧ o.range.stop = closing.range.stop := by
  obtain ⟨⟨name, start⟩, mid, head, read⟩ := bind_eq_done.1 success
  obtain ⟨before, split, plain⟩ := objectHead_plain c head
  obtain ⟨same, closing, ⟨enclosed, split', braces⟩, range⟩ := encloses read
  obtain ⟨⟨_, _⟩, _, called, more⟩ := bind_eq_done.1 head
  obtain ⟨_, _, _, ended⟩ := bind_eq_done.1 more
  cases ended
  refine ⟨⟨_, _, same ▸ called⟩, closing, ⟨before, enclosed, ?_, plain, braces⟩, by rw [range]⟩
  rw [split, split']

theorem endOfDocument_eq_done (success : endOfDocument c = .done () rest) :
    ∀ t ∈ c.tokens, endsStatement t = true := by
  simp only [endOfDocument, skipSeparators_bind, cursor_bind] at success
  obtain ⟨taken, split, run⟩ := past_run endsStatement c
  generalize c.past endsStatement = d at success split
  obtain ⟨_ | ⟨t, ts⟩, e⟩ := d
  · rw [split, List.append_nil]
    exact run
  · cases success

end Reader

/-! ## Documents -/

open Reader

/-- What stands from the type name of the root object to the end: the brackets nest, and the last token besides line
    breaks and semicolons is the brace that closes the root object. -/
structure Whole (root : ObjectNode) (c : Cursor) : Prop where
  named : ∃ range rest, qualifiedName c = .done (root.typeName, range) rest
  nested : Nested c.tokens
  closed : ∃ closing tail, Framed c.tokens closing tail ∧ closing.range.stop = root.range.stop ∧
    (∀ t ∈ tail, endsStatement t = true) ∧ (c.tokens.filter fun t => !endsStatement t).getLast? = some closing

theorem Whole.of_document {limit : Nat} {c rest : Cursor} {d : Document} (success : document limit c = .done d rest) :
    ∃ mid, header c = .done (d.pragmas, d.imports) mid ∧ Whole d.root mid := by
  obtain ⟨⟨pragmas, imports⟩, mid, header, success⟩ := bind_eq_done.1 success
  simp only [cursor_bind] at success
  split at success
  · cases success
  · obtain ⟨root, last, read, success⟩ := bind_eq_done.1 success
    obtain ⟨_, _, ended, same⟩ := bind_eq_done.1 success
    cases same
    have separators := endOfDocument_eq_done ended
    obtain ⟨named, closing, framed, range⟩ := object_framed (body_encloses limit limit) read
    obtain ⟨taken, split, nested⟩ := object_nested (body_encloses limit limit) mid read
    refine ⟨mid, header, named, ?_, closing, last.tokens, framed, range.symm, separators, ?_⟩
    · rw [split]
      exact nested.append (Plain.nested fun t member => isBracket_of_endsStatement t (separators t member))
    · obtain ⟨head, _, split, _, opening, inner, rfl, _, _, closes⟩ := framed
      have content : endsStatement closing = false := by
        rw [endsStatement, Token.isNewline, Token.isPunct, closes]
        decide
      have behind : last.tokens.filter (fun t => !endsStatement t) = [] := by simpa using separators
      rw [split, List.filter_append, List.filter_append, behind, List.append_nil, ← List.cons_append,
        List.filter_append, ← List.append_assoc]
      simp [content]

/-- The brackets of every document that is read nest from the root object to the end, and the brace that closes the
    root object is the last token that counts. So no text is read in which a bracket behind the header is missing, is
    closed by another one or is closed without being open, or in which anything else follows the root object. -/
theorem brackets_nest (text : List Char) :
    (∀ d, parse text = .parsed d → ∃ tokens c, Token.scan text = .ok tokens ∧ c.tokens <:+ tokens ∧
      header ⟨tokens, .origin⟩ = .done (d.pragmas, d.imports) c ∧ Whole d.root c) ∧
    ∀ tokens h c, Token.scan text = .ok tokens → header ⟨tokens, .origin⟩ = .done h c →
      (¬Nested c.tokens ∨ ∃ closing tail, Framed c.tokens closing tail ∧ ∃ t ∈ tail, endsStatement t = false) →
        ∀ d, parse text ≠ .parsed d := by
  have whole (d : Document) (parsed : parse text = .parsed d) : ∃ tokens c, Token.scan text = .ok tokens ∧
      c.tokens <:+ tokens ∧ header ⟨tokens, .origin⟩ = .done (d.pragmas, d.imports) c ∧ Whole d.root c := by
    obtain ⟨tokens, rest, scanned, read⟩ := document_of_parse parsed
    obtain ⟨c, header, whole⟩ := Whole.of_document read
    exact ⟨tokens, c, scanned, (header_passes.takes header).1, header, whole⟩
  refine ⟨whole, fun tokens h c scanned header broken d parsed => ?_⟩
  obtain ⟨tokens', c', scanned', _, header', whole⟩ := whole d parsed
  obtain rfl := Except.ok.inj (scanned.symm.trans scanned')
  cases header.symm.trans header'
  rcases broken with unbalanced | ⟨closing, tail, framed, t, member, content⟩
  · exact unbalanced whole.nested
  · obtain ⟨_, _, framed', _, separators, _⟩ := whole.closed
    obtain ⟨_, rfl⟩ := framed.unique framed'
    rw [separators t member] at content
    cases content

/-- A text with brackets of all kinds, and semicolons behind the root object. -/
def bracketedText : List Char :=
  ("import B\nA \x7b\n f: [C \x7b\x7d, (1)]\n signal s(int a)\n g: h[1](\x7b\x7d)\n" ++
    " function i(a) \x7b return [a] \x7d\n\x7d;\n;").toList

/-- A text in which a bracket is closed by another one. -/
def mismatchedText : List Char := "A \x7b b: (1] \x7d".toList

theorem brackets_nest_bracketed :
    (∃ d, parse bracketedText = .parsed d ∧ ∃ c, Whole d.root c) ∧ ∀ d, parse mismatchedText ≠ .parsed d := by
  constructor
  · obtain ⟨d, parsed⟩ := Reading.exists_parsed (show (parse bracketedText).isParsed = true by decide +kernel)
    obtain ⟨_, c, _, _, _, whole⟩ := (brackets_nest bracketedText).1 d parsed
    exact ⟨d, parsed, c, whole⟩
  · have broken : (match Token.scan mismatchedText with
        | .error _ => false
        | .ok tokens => match header ⟨tokens, .origin⟩ with
          | .done _ c => decide (¬Nested c.tokens)
          | .failed _ => false
          | .stuck => false) = true := by decide +kernel
    cases scanned : Token.scan mismatchedText with
    | error => simp [scanned] at broken
    | ok tokens =>
        simp only [scanned] at broken
        cases read : header ⟨tokens, .origin⟩ with
        | done h c =>
            rw [read] at broken
            exact (brackets_nest mismatchedText).2 tokens h c scanned read (.inl (of_decide_eq_true broken))
        | failed | stuck => simp [read] at broken

end Document

end QmlIndex
