import QmlIndex.Proofs.Document.Spacing

/-! # Layout does not change what a document says

Every reader of a declaration agrees with itself on two spacings of the same tokens, whatever the places that it is
given. So reading depends on the kinds of the tokens only, and on the line breaks only as far as there are any: blank
lines, indentation and comments never alter a document, apart from its ranges.
-/

namespace QmlIndex.Document

open Outcome

namespace Reader

variable {c d : Cursor}

/-! ## Header -/

theorem pragma_agrees : Agrees Pragma.bare pragma pragma := by
  refine (word_agrees _).bind fun _ _ _ => ident_agrees.bind ?_
  rintro ⟨name, _⟩ ⟨_, _⟩ ⟨⟩ c d spread
  simp only [cursor_bind]
  rw [← spread.atPunct]
  split
  · rename_i colon
    refine matches_bind (next_matches_punct spread colon) fun _ _ _ => ?_
    intro c d spread
    simp only [cursor_bind, spread.statementWords]
    refine (skipWhile_agrees fun same => by rw [endsStatement_congr same]).bind (fun _ _ _ => ?_) spread
    exact ended_agrees fun _ _ => rfl
  · exact Agrees.on (ended_agrees fun _ _ => rfl) spread

theorem importTarget_agrees : Agrees id importTarget importTarget := by
  intro c d spread
  simp only [importTarget, cursor_bind]
  rcases spread.peek with ⟨left, right⟩ | ⟨t, s, left, right, same⟩
  · rw [left, right]
    exact complain_agrees id _ spread
  · rw [left, right, Option.map_some, Option.map_some, same]
    have solid : s.kind ≠ .newline → ∀ u, c.peek = some u → u.kind ≠ .newline := by
      intro firm u front
      rw [left] at front
      cases front
      rwa [same]
    cases kind : s.kind with
    | str path =>
        refine matches_bind (next_matches spread (solid (by simp [kind]))) fun _ _ _ => ?_
        exact pure_agrees rfl
    | ident =>
        refine (qualifiedName_agrees.bind ?_) spread
        rintro ⟨name, _⟩ ⟨_, _⟩ ⟨⟩
        exact pure_agrees rfl
    | number | punct | newline => exact complain_agrees id _ spread

theorem importVersion_agrees : Agrees id importVersion importVersion := by
  intro c d spread
  simp only [importVersion, cursor_bind]
  rcases spread.peek with ⟨left, right⟩ | ⟨t, s, left, right, same⟩
  · rw [left, right]
    exact .done rfl spread
  · rw [left, right, Option.map_some, Option.map_some, same]
    cases kind : s.kind with
    | number version =>
        have solid : ∀ u, c.peek = some u → u.kind ≠ .newline := by
          intro u front
          rw [left] at front
          cases front
          simp [same, kind]
        exact matches_bind (next_matches spread solid) fun _ _ _ => pure_agrees rfl
    | ident | str | punct | newline => exact .done rfl spread

theorem importQualifier_agrees : Agrees id importQualifier importQualifier := by
  intro c d spread
  simp only [importQualifier, cursor_bind]
  rw [← spread.atWord]
  split
  · rename_i here
    refine matches_bind (next_matches_word spread here) fun _ _ _ => ident_agrees.bind ?_
    rintro ⟨name, _⟩ ⟨_, _⟩ ⟨⟩
    exact pure_agrees rfl
  · exact .done rfl spread

theorem importStatement_agrees : Agrees ImportStatement.bare importStatement importStatement := by
  refine (word_agrees _).bind fun _ _ _ => importTarget_agrees.bind ?_
  rintro target _ ⟨⟩
  refine importVersion_agrees.bind ?_
  rintro version _ ⟨⟩
  refine importQualifier_agrees.bind ?_
  rintro qualifier _ ⟨⟩ c d spread
  simp only [cursor_bind]
  rcases spread.peek with ⟨left, right⟩ | ⟨t, s, left, right, same⟩
  · rw [left, right]
    exact Agrees.on (ended_agrees fun _ _ => rfl) spread
  · rw [left, right]
    simp only [endsStatement_congr same]
    split
    · exact Agrees.on (ended_agrees fun _ _ => rfl) spread
    · exact .failed rfl

/-- What is seen of a header. -/
def Header.bare (h : Header) : Header := (h.1.map Pragma.bare, h.2.map ImportStatement.bare)

theorem headerTurn_agrees (h h' : Header) (same : h.bare = h'.bare) :
    Agrees (Turn.map Header.bare Header.bare) (headerTurn h) (headerTurn h') := by
  obtain ⟨pragmas, imports⟩ := Prod.mk.inj same
  refine skipSeparators_agrees.bind fun _ _ _ => ?_
  intro c d spread
  simp only [cursor_bind]
  rw [← spread.atWord, ← spread.atWord]
  split
  · refine pragma_agrees.bind (fun p p' read => pure_agrees ?_) spread
    simp only [Turn.map, Header.bare, List.map_append, List.map_cons, List.map_nil, pragmas, imports, read]
  · split
    · refine importStatement_agrees.bind (fun i i' read => pure_agrees ?_) spread
      simp only [Turn.map, Header.bare, List.map_append, List.map_cons, List.map_nil, pragmas, imports, read]
    · exact .done (congrArg Turn.stop same) spread

theorem header_agrees : Agrees Header.bare header header :=
  headerTurn_advances.iterate_sweeps.agrees headerTurn_advances.iterate_sweeps headerTurn_agrees rfl

/-! ## Declarations without bodies -/

theorem typeName_agrees : Agrees id typeName typeName := by
  refine qualifiedName_agrees.bind ?_
  rintro ⟨name, _⟩ ⟨_, _⟩ ⟨⟩ c d spread
  simp only [cursor_bind]
  rw [← spread.atPunct]
  split
  · rename_i here
    refine matches_bind (next_matches_punct spread here) fun _ _ _ => qualifiedName_agrees.bind ?_
    rintro ⟨inner, _⟩ ⟨_, _⟩ ⟨⟩
    exact (punct_agrees _).bind fun _ _ _ => pure_agrees rfl
  · exact .done rfl spread

theorem signal_agrees (start start' : Position) : Agrees Member.bare (signal start) (signal start') := by
  refine (word_agrees _).bind fun _ _ _ => ident_agrees.bind ?_
  rintro ⟨name, _⟩ ⟨_, _⟩ ⟨⟩ c d spread
  simp only [cursor_bind]
  rw [← spread.atPunct]
  split
  · refine Agrees.on (skipBalanced_agrees.bind fun _ _ _ => ?_) spread
    exact ended_agrees fun _ _ => rfl
  · exact Agrees.on (ended_agrees fun _ _ => rfl) spread

theorem region_agrees (opening : Char) (complaint : Complaint) :
    Agrees id (region opening complaint) (region opening complaint) := by
  intro c d spread
  simp only [region, cursor_bind]
  rw [← spread.atPunct]
  split
  · exact skipBalanced_agrees spread
  · exact complain_agrees id _ spread

theorem resultType_agrees : Agrees id resultType resultType := by
  intro c d spread
  simp only [resultType, cursor_bind]
  rw [← spread.atPunct]
  split
  · rename_i here
    refine matches_bind (next_matches_punct spread here) fun _ _ _ => ?_
    exact typeName_agrees.bind fun _ _ _ => pure_agrees rfl
  · exact .done rfl spread

theorem function_agrees (start start' : Position) : Agrees Member.bare (function start) (function start') := by
  refine (word_agrees _).bind fun _ _ _ => ident_agrees.bind ?_
  rintro ⟨name, _⟩ ⟨_, _⟩ ⟨⟩
  refine (region_agrees _ _).bind fun _ _ _ => resultType_agrees.bind fun _ _ _ => ?_
  refine skipNewlines_agrees.bind fun _ _ _ => (region_agrees _ _).bind fun _ _ _ => ?_
  exact ended_agrees fun _ _ => rfl

theorem enumeration_agrees (start start' : Position) : Agrees Member.bare (enumeration start) (enumeration start') := by
  refine (word_agrees _).bind fun _ _ _ => ident_agrees.bind ?_
  rintro ⟨name, _⟩ ⟨_, _⟩ ⟨⟩
  refine skipNewlines_agrees.bind fun _ _ _ => (region_agrees _ _).bind fun _ _ _ => ?_
  exact ended_agrees fun _ _ => rfl

/-- Before an id stand a word and a colon, which are taken unseen. -/
theorem idMember_matches (spread : Spreads c.tokens d.tokens) {w : String} (named : c.word? = some w)
    (bound : c.isBindingName) (start start' : Position) :
    Matches Member.bare (idMember start c) (idMember start' d) := by
  obtain ⟨ts, _⟩ := c
  cases ts with
  | nil => cases named
  | cons t ts =>
      have solid : t.kind ≠ .newline := by
        intro newline
        simp [Cursor.word?, Cursor.peek, Token.ident?, newline] at named
      obtain ⟨ss, _⟩ := d
      obtain ⟨s, others, rfl, _, rest⟩ := spread.exists_tail solid
      cases ts with
      | nil => cases bound
      | cons colon ts =>
          have firm : colon.kind ≠ .newline := by
            intro newline
            simp [Cursor.isBindingName, Token.isPunct, newline] at bound
          obtain ⟨mark, others, rfl, _, rest⟩ := rest.exists_tail firm
          refine ident_agrees.bind ?_ (c := ⟨ts, colon.range.stop⟩) (d := ⟨others, mark.range.stop⟩) rest
          rintro ⟨name, _⟩ ⟨_, _⟩ ⟨⟩
          exact ended_agrees fun _ _ => rfl

theorem onTarget_agrees : Agrees id onTarget onTarget := by
  intro c d spread
  simp only [onTarget, cursor_bind]
  rw [← spread.atWord]
  split
  · rename_i here
    refine matches_bind (next_matches_word spread here) fun _ _ _ => ?_
    exact qualifiedName_agrees.bind fun _ _ _ => pure_agrees rfl
  · exact .done rfl spread

theorem beforeBody_agrees : Agrees id beforeBody beforeBody := onTarget_agrees.bind fun _ _ _ => skipNewlines_agrees

theorem objectHead_agrees : Agrees Prod.fst objectHead objectHead := by
  refine qualifiedName_agrees.bind ?_
  rintro ⟨name, _⟩ ⟨_, _⟩ ⟨⟩
  exact beforeBody_agrees.bind fun _ _ _ => pure_agrees rfl

theorem componentHead_agrees : Agrees id componentHead componentHead := by
  refine (word_agrees _).bind fun _ _ _ => ident_agrees.bind ?_
  rintro ⟨name, _⟩ ⟨_, _⟩ ⟨⟩
  exact (punct_agrees _).bind fun _ _ _ => skipNewlines_agrees.bind fun _ _ _ => pure_agrees rfl

theorem propertyHead_agrees : Agrees id propertyHead propertyHead := by
  refine (word_agrees _).bind fun _ _ _ => typeName_agrees.bind ?_
  rintro type _ ⟨⟩
  refine ident_agrees.bind ?_
  rintro ⟨name, _⟩ ⟨_, _⟩ ⟨⟩
  exact pure_agrees rfl

theorem endOfDocument_agrees : Agrees id endOfDocument endOfDocument := by
  refine skipSeparators_agrees.bind fun _ _ _ => ?_
  intro c d spread
  simp only [cursor_bind]
  rcases spread.peek with ⟨left, right⟩ | ⟨t, s, left, right, _⟩
  · rw [left, right]
    exact .done rfl spread
  · rw [left, right]
    exact .failed rfl

/-! ## Declarations with bodies -/

/-- A reader of bodies that agrees with itself, wherever the body starts. -/
def BodyReader.Agrees (body : BodyReader) : Prop :=
  ∀ name start start', Reader.Agrees ObjectNode.bare (body name start) (body name start')

variable {body : BodyReader}

theorem object_agrees (bodies : body.Agrees) : Agrees ObjectNode.bare (object body) (object body) := by
  refine objectHead_agrees.bind ?_
  rintro ⟨name, start⟩ ⟨_, start'⟩ ⟨⟩
  exact bodies name start start'

theorem component_agrees (bodies : body.Agrees) (start start' : Position) :
    Agrees Member.bare (component body start) (component body start') := by
  refine componentHead_agrees.bind ?_
  rintro name _ ⟨⟩
  refine (object_agrees bodies).bind fun base base' same => ended_agrees fun _ _ => ?_
  simp only [Member.bare, same]

theorem deadEnd_congr (spread : Spreads c.tokens d.tokens) : c.DeadEnd ↔ d.DeadEnd := by
  have rest : Spreads (c.past separatesElements).tokens (d.past separatesElements).tokens := by
    cases skipWhile_agrees separatesElements_congr spread with
    | done _ rest => exact rest
  rw [Cursor.DeadEnd, Cursor.DeadEnd, rest.atPunct, rest.atPunct]

theorem listTurn_agrees (bodies : body.Agrees) (objects objects' : List ObjectNode)
    (same : bareObjects objects = bareObjects objects') :
    Agrees (Turn.map bareObjects bareObjects) (listTurn body objects) (listTurn body objects') := by
  refine (skipWhile_agrees separatesElements_congr).bind fun _ _ _ => ?_
  intro c d spread
  simp only [cursor_bind]
  rcases spread.peek with ⟨left, right⟩ | ⟨t, s, left, right, kind⟩
  · rw [left, right]
    exact .failed rfl
  · rw [left, right]
    simp only [Token.isPunct_congr kind, spread.looksLikeObject]
    split
    · rename_i here
      refine matches_bind (next_matches spread fun u front newline => ?_) fun _ _ _ =>
        pure_agrees (congrArg Turn.stop same)
      rw [left] at front
      cases front
      simp [Token.isPunct, ← kind, newline] at here
    · split
      · refine (object_agrees bodies).bind (fun o o' read => pure_agrees ?_) spread
        simp only [bareObjects_eq_map] at same ⊢
        simp only [Turn.map, bareObjects_eq_map, List.map_append, List.map_cons, List.map_nil, same, read]
      · refine Agrees.on ((skipExpression_agrees _).bind fun _ _ _ => ?_) spread
        exact pure_agrees (congrArg Turn.again same)

/-- A turn at a dead end takes the separators before it, of which there are some in both spacings or in none. -/
theorem past_shorter_congr (spread : Spreads c.tokens d.tokens) :
    (c.past separatesElements).tokens.length < c.tokens.length ↔
      (d.past separatesElements).tokens.length < d.tokens.length := by
  have shorter_iff : ∀ x : Cursor, (x.past separatesElements).tokens.length < x.tokens.length ↔
      x.peek.any separatesElements = true := by
    rintro ⟨tokens, e⟩
    cases tokens with
    | nil => simp [Cursor.past, Cursor.skipWhile, Cursor.peek]
    | cons t ts =>
        by_cases separates : separatesElements t = true
        · have le := (past_suffix separatesElements ⟨ts, t.range.stop⟩).length_le
          simp only [Cursor.past, Cursor.skipWhile, separates, if_true, Cursor.peek, List.head?_cons, Option.any_some,
            iff_true, List.length_cons] at le ⊢
          omega
        · simp [Cursor.past, Cursor.skipWhile, separates, Cursor.peek]
  rw [shorter_iff, shorter_iff]
  rcases spread.peek with ⟨left, right⟩ | ⟨t, s, left, right, same⟩
  · rw [left, right]
  · rw [left, right, Option.any_some, Option.any_some, separatesElements_congr same]

theorem list_agrees (bodies : body.Agrees) (keeps : body.Keeps) : Agrees bareObjects (list body) (list body) := by
  refine (punct_agrees _).bind fun _ _ _ => iterate_agrees (listTurn_agrees bodies) ?_ rfl
  intro objects objects' c d next next' rest rest' _ spread left right
  by_cases dead : c.DeadEnd
  · rw [listTurn_of_deadEnd dead] at left
    rw [listTurn_of_deadEnd ((deadEnd_congr spread).mp dead)] at right
    cases left
    cases right
    exact past_shorter_congr spread
  · have live : ¬d.DeadEnd := fun other => dead ((deadEnd_congr spread).mpr other)
    exact iff_of_true (listTurn_again keeps dead left) (listTurn_again keeps live right)

theorem value_agrees (bodies : body.Agrees) (keeps : body.Keeps) : Agrees bareObjects (value body) (value body) := by
  refine skipNewlines_agrees.bind fun _ _ _ => ?_
  intro c d spread
  simp only [cursor_bind, ← spread.atPunct, ← spread.looksLikeObject]
  split
  · exact Agrees.on (skipBalanced_agrees.bind fun _ _ _ => pure_agrees rfl) spread
  · split
    · exact list_agrees bodies keeps spread
    · split
      · refine Agrees.on ((object_agrees bodies).bind fun o o' same => ?_) spread
        exact pure_agrees (congrArg (· :: []) same)
      · exact Agrees.on ((skipExpression_agrees _).bind fun _ _ _ => pure_agrees rfl) spread

theorem property_agrees (bodies : body.Agrees) (keeps : body.Keeps) (start start' : Position) :
    Agrees Member.bare (property body start) (property body start') := by
  refine propertyHead_agrees.bind ?_
  rintro ⟨name, type⟩ _ ⟨⟩ c d spread
  simp only [cursor_bind, ← spread.atPunct]
  split
  · rename_i here
    refine matches_bind (next_matches_punct spread here) fun _ _ _ => (value_agrees bodies keeps).bind ?_
    intro objects objects' same
    exact ended_agrees fun _ _ => congrArg (Member.property name type .blank) same
  · exact Agrees.on (ended_agrees fun _ _ => rfl) spread

theorem isModifier_congr {t s : Token} (same : t.kind = s.kind) : isModifier t = isModifier s := by
  rw [isModifier, isModifier, Token.ident?_congr same]

theorem modified_agrees (bodies : body.Agrees) (keeps : body.Keeps) (start start' : Position) :
    Agrees Member.bare (modified body start) (modified body start') := by
  refine (skipWhile_agrees isModifier_congr).bind fun _ _ _ => ?_
  intro c d spread
  simp only [cursor_bind, ← spread.atWord]
  split
  · exact property_agrees bodies keeps start start' spread
  · refine Agrees.on (ident_agrees.bind ?_) spread
    rintro ⟨name, _⟩ ⟨_, _⟩ ⟨⟩
    exact ended_agrees fun _ _ => rfl

theorem named_agrees (bodies : body.Agrees) (keeps : body.Keeps) (start start' : Position) :
    Agrees Member.bare (named body start) (named body start') := by
  refine qualifiedName_agrees.bind ?_
  rintro ⟨name, range⟩ ⟨_, range'⟩ ⟨⟩ c d spread
  simp only [cursor_bind, ← spread.opensObject, ← spread.atPunct]
  split
  · refine Agrees.on (beforeBody_agrees.bind fun _ _ _ => (bodies name range.start range'.start).bind ?_) spread
    intro o o' same
    exact pure_agrees (congrArg Member.object same)
  · split
    · rename_i here
      refine matches_bind (next_matches_punct spread here) fun _ _ _ => (value_agrees bodies keeps).bind ?_
      intro objects objects' same
      exact ended_agrees fun _ _ => congrArg (Member.binding name .blank) same
    · exact complain_agrees Member.bare _ spread

/-- The kind of a member is told by tokens that are no line breaks, or by one that is. -/
theorem declaration?_congr (spread : Spreads c.tokens d.tokens) :
    (declaration? c).map Prod.fst = (declaration? d).map Prod.fst := by
  obtain ⟨ts, e⟩ := c
  obtain ⟨ss, e'⟩ := d
  cases ts with
  | nil =>
      obtain rfl : ss = [] := spread.nil_iff.mp rfl
      rfl
  | cons t ts =>
      cases ss with
      | nil => simpa using spread.nil_iff
      | cons s ss =>
          have same := Token.ident?_congr spread.head_kind
          simp only [declaration?, Cursor.peek, Cursor.word?, List.head?_cons, Option.bind_some, ← same]
          cases named : t.ident? with
          | none => rfl
          | some w =>
              have rest := spread.tail fun newline => by simp [Token.ident?, newline] at named
              have bound : Cursor.isBindingName ⟨t :: ts, e⟩ = Cursor.isBindingName ⟨s :: ss, e'⟩ := by
                simp only [Cursor.isBindingName, List.getElem?_cons_succ, ← List.head?_eq_getElem?]
                exact rest.atPunct (c := ⟨ts, .origin⟩) (d := ⟨ss, .origin⟩) ':'
              simp only [Option.map_some, bound]

theorem member_agrees (bodies : body.Agrees) (keeps : body.Keeps) : Agrees Member.bare (member body) (member body) := by
  intro c d spread
  have kinds := declaration?_congr spread
  simp only [member, cursor_bind]
  cases left : declaration? c with
  | none =>
      rw [left, Option.map_none, eq_comm, Option.map_eq_none_iff] at kinds
      rw [kinds]
      exact complain_agrees Member.bare _ spread
  | some declaration =>
      rw [left, Option.map_some, eq_comm, Option.map_eq_some_iff] at kinds
      obtain ⟨⟨kind, start'⟩, right, same⟩ := kinds
      obtain ⟨_, start⟩ := declaration
      obtain rfl : kind = _ := same
      rw [right]
      cases kind with
      | id =>
          obtain ⟨⟨w, named⟩, bound⟩ := isBindingName_of_id left
          exact idMember_matches spread named bound start start'
      | property => exact property_agrees bodies keeps start start' spread
      | modified => exact modified_agrees bodies keeps start start' spread
      | signal => exact signal_agrees start start' spread
      | function => exact function_agrees start start' spread
      | component => exact component_agrees bodies start start' spread
      | enumeration => exact enumeration_agrees start start' spread
      | named => exact named_agrees bodies keeps start start' spread

theorem membersTurn_agrees (bodies : body.Agrees) (keeps : body.Keeps) (name : String) (start start' : Position)
    (members members' : List Member) (same : bareMembers members = bareMembers members') :
    Agrees (Turn.map bareMembers ObjectNode.bare) (membersTurn body name start members)
      (membersTurn body name start' members') := by
  refine skipSeparators_agrees.bind fun _ _ _ => ?_
  intro c d spread
  simp only [cursor_bind]
  rcases spread.peek with ⟨left, right⟩ | ⟨t, s, left, right, kind⟩
  · rw [left, right]
    exact .failed rfl
  · rw [left, right]
    simp only [Token.isPunct_congr kind]
    split
    · rename_i here
      refine matches_bind (next_matches spread fun u front newline => ?_) fun _ _ _ => ended_agrees fun _ _ => ?_
      · rw [left] at front
        cases front
        simp [Token.isPunct, ← kind, newline] at here
      · exact congrArg (fun l => Turn.stop (ObjectNode.mk name .blank l)) same
    · refine Agrees.on ((member_agrees bodies keeps).bind fun m m' read => pure_agrees ?_) spread
      simp only [bareMembers_eq_map] at same ⊢
      simp only [Turn.map, bareMembers_eq_map, List.map_append, List.map_cons, List.map_nil, same, read]

/-- Bodies agree however deep others may nest in them. -/
theorem body_agrees (limit levels : Nat) : (Reader.body limit levels).Agrees := by
  induction levels with
  | zero => exact fun _ _ _ => complain_agrees ObjectNode.bare _
  | succ levels ih =>
      intro name start start'
      have keeps := body_keeps limit levels
      refine (punct_agrees _).bind fun _ _ _ => ?_
      exact (membersTurn_advances keeps name start).iterate_sweeps.agrees
        (membersTurn_advances keeps name start').iterate_sweeps (membersTurn_agrees ih keeps name start start') rfl

theorem document_agrees (limit : Nat) : Agrees Document.bare (document limit) (document limit) := by
  refine header_agrees.bind ?_
  rintro ⟨pragmas, imports⟩ ⟨pragmas', imports'⟩ same c d spread
  obtain ⟨samePragmas, sameImports⟩ := Prod.mk.inj same
  simp only [cursor_bind]
  have left_out : c.peek.isNone = d.peek.isNone := by
    rcases spread.peek with ⟨left, right⟩ | ⟨t, s, left, right, _⟩ <;> simp [left, right]
  rw [← left_out]
  split
  · exact .failed rfl
  · refine Agrees.on ((object_agrees (body_agrees limit limit)).bind fun root root' read => ?_) spread
    refine endOfDocument_agrees.bind fun _ _ _ => pure_agrees ?_
    simp only [Document.bare] at samePragmas sameImports ⊢
    rw [samePragmas, sameImports, read]

end Reader

/-- Reading ends alike on two spacings of the same tokens. -/
theorem bare_ofTokens_of_spreads {tokens others : List Token} (spread : Spreads tokens others) (limit : Nat) :
    (ofTokens limit tokens).bare = (ofTokens limit others).bare := by
  have ends := Reader.document_agrees limit (c := ⟨tokens, .origin⟩) (d := ⟨others, .origin⟩) spread
  rw [ofTokens, ofTokens]
  generalize Reader.document limit ⟨tokens, .origin⟩ = left, Reader.document limit ⟨others, .origin⟩ = right at ends
  cases ends with
  | done same => exact congrArg Reading.parsed same
  | failed same => exact congrArg Reading.failed same
  | stuck => rfl

/-- Each run of line breaks is replaced by one. -/
def squeeze : List TokenKind → List TokenKind
  | [] => []
  | kind :: rest => if kind = .newline ∧ rest.head? = some .newline then squeeze rest else kind :: squeeze rest

theorem spreads_squeeze (tokens : List Token) : Spreads tokens ((squeeze (tokens.map Token.kind)).map Token.blank) := by
  induction tokens with
  | nil => exact .nil
  | cons t ts ih =>
      rw [List.map_cons, squeeze]
      split
      · rename_i run
        obtain ⟨first, second⟩ := run
        cases ts with
        | nil => cases second
        | cons s ts => exact .again first (by simpa using second) ih
      · exact .cons rfl ih

/-- Two lists of tokens that differ only in places and in the lengths of their runs of line breaks give one document
    but for its ranges, or one fault but for its place, or none of them an answer; and the summaries of two such texts
    differ in no more than their ranges. -/
theorem layout_irrelevant {tokens others : List Token}
    (same : squeeze (tokens.map Token.kind) = squeeze (others.map Token.kind)) :
    (∀ limit, (ofTokens limit tokens).bare = (ofTokens limit others).bare) ∧
    ∀ text text' d d', Token.scan text = .ok tokens → Token.scan text' = .ok others →
      parse text = .parsed d → parse text' = .parsed d' → d.summary.bare = d'.summary.bare := by
  have agree : ∀ limit, (ofTokens limit tokens).bare = (ofTokens limit others).bare := by
    intro limit
    calc (ofTokens limit tokens).bare
        = (ofTokens limit ((squeeze (tokens.map Token.kind)).map Token.blank)).bare :=
          bare_ofTokens_of_spreads (spreads_squeeze tokens) limit
      _ = (ofTokens limit ((squeeze (others.map Token.kind)).map Token.blank)).bare := by rw [same]
      _ = (ofTokens limit others).bare := (bare_ofTokens_of_spreads (spreads_squeeze others) limit).symm
  refine ⟨agree, fun text text' d d' scanned scanned' parsed parsed' => ?_⟩
  have erased := agree maxNesting
  rw [parse, scanned] at parsed
  rw [parse, scanned'] at parsed'
  simp only at parsed parsed'
  rw [parsed, parsed'] at erased
  rw [← summary_bare, ← summary_bare, Reading.parsed.inj erased]

/-! ## A document with blank lines -/

namespace Loose

/-- One document, written close together. -/
def dense : List Char := "A\x7b\nb:1+\n2\nC\x7b\x7d\n\x7d".toList

/-- The same with blank lines, blanks and comments. -/
def loose : List Char := "A \x7b // a\n\n  b: 1 +\n\n\n  2 /* two\nlines */\n  C \x7b\x7d\n\n\x7d".toList

def tokens (text : List Char) : List Token :=
  match Token.scan text with
  | .ok tokens => tokens
  | .error _ => []

theorem scan_eq {text : List Char} (whole : (Cut.ofText text).fault = none) : Token.scan text = .ok (tokens text) := by
  simp [tokens, Token.scan, whole]

end Loose

open Loose in
theorem layout_irrelevant_loose :
    squeeze ((tokens loose).map Token.kind) = squeeze ((tokens dense).map Token.kind) ∧
    tokens loose ≠ tokens dense ∧
    (ofTokens 1 (tokens loose)).bare = (ofTokens 1 (tokens dense)).bare ∧
    ∃ d d', parse loose = .parsed d ∧ parse dense = .parsed d' ∧ d.summary.bare = d'.summary.bare := by
  have same : squeeze ((tokens loose).map Token.kind) = squeeze ((tokens dense).map Token.kind) := by decide +kernel
  have scanned : Token.scan loose = .ok (tokens loose) := scan_eq (by decide +kernel)
  have scanned' : Token.scan dense = .ok (tokens dense) := scan_eq (by decide +kernel)
  obtain ⟨d, parsed⟩ := Reading.exists_parsed (show (parse loose).isParsed = true by decide +kernel)
  obtain ⟨d', parsed'⟩ := Reading.exists_parsed (show (parse dense).isParsed = true by decide +kernel)
  obtain ⟨agree, summaries⟩ := layout_irrelevant same
  exact ⟨same, by decide +kernel, agree 1, d, d', parsed, parsed', summaries _ _ d d' scanned scanned' parsed parsed'⟩

end QmlIndex.Document
