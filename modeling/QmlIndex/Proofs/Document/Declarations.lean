import QmlIndex.Proofs.Document.Advance

/-! # What the readers of declarations take

The readers without object bodies in them always end, and the ones that stand for a declaration take a
token. The readers with bodies take at least what stands before the body, whatever the body takes; whether
they end is another matter.
-/

namespace QmlIndex.Document

/-- An element of a list starts, after the separators, with a token that ends every expression and no
    list. -/
def Cursor.DeadEnd (c : Cursor) : Prop :=
  (c.past Reader.separatesElements).atPunct ';' ∨ (c.past Reader.separatesElements).atPunct '\x7d'

namespace Reader

/-! ## Without bodies -/

theorem pragma_passes : Passes 1 pragma := by
  refine (word_passes _).bind_left fun _ => ident_passes.weaken.bind_left fun _ => ?_
  refine cursor_passes.bind_left fun c => ?_
  split
  · refine next_passes.bind_left fun _ => cursor_passes.bind_left fun _ => ?_
    exact (skipWhile_passes _).bind_left fun _ => lastEnd_passes.bind_left fun _ => pure_passes _
  · exact lastEnd_passes.bind_left fun _ => pure_passes _

theorem importTarget_passes : Passes 0 importTarget := by
  refine cursor_passes.bind_left fun c => ?_
  split
  · exact next_passes.bind_left fun _ => pure_passes _
  · exact qualifiedName_passes.weaken.bind_left fun _ => pure_passes _
  · exact complain_passes _

theorem importVersion_passes : Passes 0 importVersion := by
  refine cursor_passes.bind_left fun c => ?_
  split
  · exact next_passes.bind_left fun _ => pure_passes _
  · exact pure_passes _

theorem importQualifier_passes : Passes 0 importQualifier := by
  refine cursor_passes.bind_left fun c => ?_
  split
  · exact next_passes.bind_left fun _ => ident_passes.weaken.bind_left fun _ => pure_passes _
  · exact pure_passes _

theorem importStatement_passes : Passes 1 importStatement := by
  refine (word_passes _).bind_left fun _ => importTarget_passes.bind_left fun _ => ?_
  refine importVersion_passes.bind_left fun _ => importQualifier_passes.bind_left fun _ => ?_
  refine cursor_passes.bind_left fun c => ?_
  split
  · split
    · exact lastEnd_passes.bind_left fun _ => pure_passes _
    · exact fail_passes _
  · exact lastEnd_passes.bind_left fun _ => pure_passes _

theorem typeName_passes : Passes 1 typeName := by
  refine qualifiedName_passes.bind_left fun _ => cursor_passes.bind_left fun c => ?_
  split
  · refine next_passes.bind_left fun _ => qualifiedName_passes.weaken.bind_left fun _ => ?_
    exact (punct_passes _).weaken.bind_left fun _ => pure_passes _
  · exact pure_passes _

theorem signal_passes (start : Position) : Passes 1 (signal start) := by
  refine (word_passes _).bind_left fun _ => ident_passes.weaken.bind_left fun _ => ?_
  refine cursor_passes.bind_left fun c => ?_
  have last (name : String) : Passes 0 do return Member.signal name ⟨start, ← lastEnd⟩ :=
    lastEnd_passes.bind_left fun _ => pure_passes _
  split
  · exact skipBalanced_passes.weaken.bind_left fun _ => last _
  · exact (pure_passes _).bind_left fun _ => last _

theorem region_passes (opening : Char) (complaint : Complaint) : Passes 1 (region opening complaint) := by
  refine cursor_passes.bind_right fun c => ?_
  split
  · exact skipBalanced_passes
  · exact complain_passes _

theorem resultType_passes : Passes 0 resultType := by
  refine cursor_passes.bind_left fun c => ?_
  split
  · exact next_passes.bind_left fun _ => typeName_passes.weaken.bind_left fun _ => pure_passes _
  · exact pure_passes _

theorem function_passes (start : Position) : Passes 1 (function start) := by
  refine (word_passes _).bind_left fun _ => ident_passes.weaken.bind_left fun _ => ?_
  refine (region_passes _ _).weaken.bind_left fun _ => resultType_passes.bind_left fun _ => ?_
  refine (skipWhile_passes _).bind_left fun _ => (region_passes _ _).weaken.bind_left fun _ => ?_
  exact lastEnd_passes.bind_left fun _ => pure_passes _

theorem enumeration_passes (start : Position) : Passes 1 (enumeration start) := by
  refine (word_passes _).bind_left fun _ => ident_passes.weaken.bind_left fun _ => ?_
  refine (skipWhile_passes _).bind_left fun _ => (region_passes _ _).weaken.bind_left fun _ => ?_
  exact lastEnd_passes.bind_left fun _ => pure_passes _

theorem idMember_passes (start : Position) : Passes 1 (idMember start) := by
  refine next_passes.bind_right fun _ => next_passes.bind_right fun _ => ident_passes.bind_left fun _ => ?_
  exact lastEnd_passes.bind_left fun _ => pure_passes _

theorem onTarget_passes : Passes 0 onTarget := by
  refine cursor_passes.bind_left fun c => ?_
  split
  · exact next_passes.bind_left fun _ => qualifiedName_passes.weaken.bind_left fun _ => pure_passes _
  · exact pure_passes _

theorem beforeBody_passes : Passes 0 beforeBody := onTarget_passes.bind_left fun _ => skipWhile_passes _

theorem objectHead_passes : Passes 1 objectHead :=
  qualifiedName_passes.bind_left fun _ => beforeBody_passes.bind_left fun _ => pure_passes _

theorem componentHead_passes : Passes 1 componentHead := by
  refine (word_passes _).bind_left fun _ => ident_passes.weaken.bind_left fun _ => ?_
  refine (punct_passes _).weaken.bind_left fun _ => (skipWhile_passes _).bind_left fun _ => ?_
  exact pure_passes _

theorem propertyHead_passes : Passes 1 propertyHead :=
  (word_passes _).bind_left fun _ => typeName_passes.weaken.bind_left fun _ =>
    ident_passes.weaken.bind_left fun _ => pure_passes _

theorem endOfDocument_passes : Passes 0 endOfDocument := by
  refine (skipWhile_passes _).bind_left fun _ => cursor_passes.bind_left fun c => ?_
  split
  · exact fail_passes _
  · exact pure_passes _

/-! ## With bodies -/

/-- A reader of bodies that never gives tokens back. -/
def BodyReader.Keeps (body : BodyReader) : Prop := ∀ name start, Takes 0 (body name start)

variable {body : BodyReader}

theorem object_takes (keeps : body.Keeps) : Takes 1 (object body) :=
  objectHead_passes.takes.bind_left fun head => keeps head.1 head.2

theorem component_takes (keeps : body.Keeps) (start : Position) : Takes 1 (component body start) := by
  refine componentHead_passes.takes.bind_left fun _ => (object_takes keeps).weaken.bind_left fun _ => ?_
  exact lastEnd_passes.takes.bind_left fun _ => (pure_passes _).takes

theorem listTurn_takes (keeps : body.Keeps) (objects : List ObjectNode) :
    Takes 0 (listTurn body objects) := by
  refine (skipWhile_passes _).takes.bind_left fun _ => Takes.cursor_bind fun c => ?_
  split
  · exact (fail_passes _).takes
  · split
    · exact next_passes.takes.bind_left fun _ => (pure_passes _).takes
    · split
      · exact (object_takes keeps).weaken.bind_left fun _ => (pure_passes _).takes
      · exact (skipExpression_passes _).takes.bind_left fun _ => (pure_passes _).takes

theorem list_takes (keeps : body.Keeps) : Takes 1 (list body) :=
  (punct_passes _).takes.bind_left fun _ => iterate_takes (listTurn_takes keeps) []

theorem value_takes (keeps : body.Keeps) : Takes 0 (value body) := by
  refine (skipWhile_passes _).takes.bind_left fun _ => Takes.cursor_bind fun c => ?_
  split
  · exact skipBalanced_passes.takes.weaken.bind_left fun _ => (pure_passes _).takes
  · split
    · exact (list_takes keeps).weaken
    · split
      · exact (object_takes keeps).weaken.bind_left fun _ => (pure_passes _).takes
      · exact (skipExpression_passes _).takes.bind_left fun _ => (pure_passes _).takes

theorem property_takes (keeps : body.Keeps) (start : Position) : Takes 1 (property body start) := by
  refine propertyHead_passes.takes.bind_left fun _ => Takes.cursor_bind fun c => ?_
  split
  · refine next_passes.takes.bind_left fun _ => (value_takes keeps).bind_left fun _ => ?_
    exact lastEnd_passes.takes.bind_left fun _ => (pure_passes _).takes
  · exact lastEnd_passes.takes.bind_left fun _ => (pure_passes _).takes

theorem modified_takes (keeps : body.Keeps) (start : Position) : Takes 1 (modified body start) := by
  refine (skipWhile_passes _).takes.bind_right fun _ => Takes.cursor_bind fun c => ?_
  split
  · exact property_takes keeps start
  · refine ident_passes.takes.bind_left fun _ => ?_
    exact lastEnd_passes.takes.bind_left fun _ => (pure_passes _).takes

theorem named_takes (keeps : body.Keeps) (start : Position) : Takes 1 (named body start) := by
  refine qualifiedName_passes.takes.bind_left fun _ => Takes.cursor_bind fun c => ?_
  split
  · exact beforeBody_passes.takes.bind_left fun _ => (keeps _ _).bind_left fun _ => (pure_passes _).takes
  · split
    · refine next_passes.takes.bind_left fun _ => (value_takes keeps).bind_left fun _ => ?_
      exact lastEnd_passes.takes.bind_left fun _ => (pure_passes _).takes
    · exact (complain_passes _).takes

theorem declared_takes (keeps : body.Keeps) (d : Declaration) (start : Position) :
    Takes 1 (declared body d start) := by
  cases d with
  | id => exact (idMember_passes start).takes
  | property => exact property_takes keeps start
  | modified => exact modified_takes keeps start
  | signal => exact (signal_passes start).takes
  | function => exact (function_passes start).takes
  | component => exact component_takes keeps start
  | enumeration => exact (enumeration_passes start).takes
  | named => exact named_takes keeps start

theorem member_takes (keeps : body.Keeps) : Takes 1 (member body) := by
  refine Takes.cursor_bind fun c => ?_
  split
  · exact declared_takes keeps _ _
  · exact (complain_passes _).takes

theorem membersTurn_takes (keeps : body.Keeps) (name : String) (start : Position) (members : List Member) :
    Takes 0 (membersTurn body name start members) := by
  refine (skipWhile_passes _).takes.bind_left fun _ => Takes.cursor_bind fun c => ?_
  split
  · exact (fail_passes _).takes
  · split
    · refine next_passes.takes.bind_left fun _ => ?_
      exact lastEnd_passes.takes.bind_left fun _ => (pure_passes _).takes
    · exact (member_takes keeps).weaken.bind_left fun _ => (pure_passes _).takes

/-- No body gives tokens back, however deep bodies may nest in it. -/
theorem body_keeps (limit levels : Nat) : (Reader.body limit levels).Keeps := by
  induction levels with
  | zero => exact fun _ _ => (complain_passes _).takes
  | succ levels ih =>
      intro name start
      exact (punct_passes _).takes.weaken.bind_left fun _ =>
        iterate_takes (membersTurn_takes ih name start) []

/-! ## Turns -/

theorem headerTurn_passes (h : Header) : Passes 0 (headerTurn h) := by
  refine (skipWhile_passes _).bind_left fun _ => cursor_passes.bind_left fun c => ?_
  split
  · exact pragma_passes.weaken.bind_left fun _ => pure_passes _
  · split
    · exact importStatement_passes.weaken.bind_left fun _ => pure_passes _
    · exact pure_passes _

theorem headerTurn_advances : Advances headerTurn := by
  refine ⟨fun h => (headerTurn_passes h).takes, fun h c next rest again => ?_⟩
  have within := (past_suffix endsStatement c).length_le
  simp only [headerTurn, skipSeparators_bind, cursor_bind] at again
  split at again
  · obtain ⟨read, mid, ended, same⟩ := bind_eq_done.1 again
    cases same
    have := (pragma_passes.takes ended).2
    omega
  · split at again
    · obtain ⟨read, mid, ended, same⟩ := bind_eq_done.1 again
      cases same
      have := (importStatement_passes.takes ended).2
      omega
    · cases again

theorem header_passes : Passes 0 header :=
  headerTurn_advances.iterate_sweeps.passes (fun h => (headerTurn_passes h).ends) ([], [])

theorem membersTurn_apply (name : String) (start : Position) (members : List Member) (c : Cursor) :
    membersTurn body name start members c =
      match (c.past endsStatement).peek with
      | none => .failed (.missingBrace name)
      | some t =>
        if t.isPunct '\x7d' then
          (do let _ ← next; return .stop (.mk name ⟨start, ← lastEnd⟩ members) : Reader _)
            (c.past endsStatement)
        else (do return .again (members ++ [← member body]) : Reader _) (c.past endsStatement) := by
  simp only [membersTurn, skipSeparators_bind, cursor_bind]
  cases (c.past endsStatement).peek with
  | none => rfl
  | some t =>
      simp only
      split <;> rfl

theorem membersTurn_advances (keeps : body.Keeps) (name : String) (start : Position) :
    Advances (membersTurn body name start) := by
  refine ⟨membersTurn_takes keeps name start, fun members c next rest again => ?_⟩
  have within := (past_suffix endsStatement c).length_le
  rw [membersTurn_apply] at again
  split at again
  · cases again
  · split at again
    · obtain ⟨_, _, _, same⟩ := bind_eq_done.1 again
      cases same
    · obtain ⟨read, mid, ended, same⟩ := bind_eq_done.1 again
      cases same
      have := (member_takes keeps ended).2
      omega

/-- An `id` member starts with a word and a colon. -/
theorem isBindingName_of_id {c : Cursor} {start : Position} (h : declaration? c = some (.id, start)) :
    (∃ w, c.word? = some w) ∧ c.isBindingName = true := by
  simp only [declaration?] at h
  split at h
  · rename_i t w _ named
    refine ⟨⟨w, named⟩, ?_⟩
    cases bound : c.isBindingName with
    | true => rfl
    | false =>
        rw [bound, declarationOf] at h
        grind
  · cases h

/-! ## Elements of a list -/

theorem atPunct_iff {c : Cursor} {p : Char} :
    c.atPunct p ↔ ∃ t rest, c.tokens = t :: rest ∧ t.kind = .punct p := by
  obtain ⟨_ | ⟨t, rest⟩, lastEnd⟩ := c
  · simp [Cursor.atPunct, Cursor.peek]
  · simp [Cursor.atPunct, Cursor.peek, Token.isPunct]

theorem looksLikeObject_of_punct {c : Cursor} {p : Char} (h : c.atPunct p) :
    c.looksLikeObject = false := by
  obtain ⟨t, rest, tokens, kind⟩ := atPunct_iff.1 h
  have nameless : t.ident? = none := by rw [Token.ident?, kind]
  rw [Cursor.looksLikeObject, tokens, Cursor.afterDotted, nameless]

theorem listTurn_apply (objects : List ObjectNode) (c : Cursor) :
    listTurn body objects c =
      match (c.past separatesElements).peek with
      | none => .failed .missingListEnd
      | some t =>
        if t.isPunct ']' then (do let _ ← next; return .stop objects : Reader _) (c.past separatesElements)
        else if (c.past separatesElements).looksLikeObject then
          (do return .again (objects ++ [← object body]) : Reader _) (c.past separatesElements)
        else (do skipExpression true; return .again objects : Reader _) (c.past separatesElements) := by
  simp only [listTurn, skipWhile_bind, cursor_bind]
  cases (c.past separatesElements).peek with
  | none => rfl
  | some t =>
      simp only
      split
      · rfl
      · split <;> rfl

theorem endsExpression_element {t : Token} (separates : separatesElements t = false)
    (inside : t.isPunct ']' = false) (rest : List Token) :
    endsExpression true none t rest = (t.isPunct ';' || t.isPunct '\x7d') := by
  rw [separatesElements, Token.isNewline, Token.isPunct] at separates
  rw [Token.isPunct] at inside
  rw [endsExpression, Token.isPunct, Token.isPunct, Bool.eq_iff_iff]
  cases kind : t.kind <;> simp_all

/-- An expression in a list takes its first token if that is no token that ends it. -/
theorem skipExpression_element {c rest : Cursor} {t : Token}
    (front : (c.past separatesElements).peek = some t) (inside : t.isPunct ']' = false) (live : ¬c.DeadEnd)
    (ended : skipExpression true (c.past separatesElements) = .done () rest) :
    rest.tokens.length < (c.past separatesElements).tokens.length := by
  have ends := endsExpression_element (not_of_past_peek front) inside
  rw [Cursor.DeadEnd] at live
  generalize c.past separatesElements = d at *
  obtain ⟨_ | ⟨first, more⟩, lastEnd⟩ := d
  · cases front
  · cases front
    have goes : endsExpression true none t more = false := by
      simpa [ends, Cursor.atPunct, Cursor.peek] using live
    rw [skipExpression, skipExpressionFrom, goes] at ended
    simp only [List.isEmpty_nil, Bool.and_false, Bool.false_eq_true, if_false] at ended
    split at ended
    · cases ended
    · have := (skipExpression_sweeps true).takes (_, _) (c := ⟨more, _⟩) ended
      exact Nat.lt_succ_of_le this.1.length_le

/-- At a dead end a turn only passes the separators. -/
theorem listTurn_of_deadEnd {c : Cursor} (dead : c.DeadEnd) (objects : List ObjectNode) :
    listTurn body objects c = .done (.again objects) (c.past separatesElements) := by
  have noObject : (c.past separatesElements).looksLikeObject = false :=
    dead.elim looksLikeObject_of_punct looksLikeObject_of_punct
  rw [listTurn_apply, noObject]
  rw [Cursor.DeadEnd] at dead
  generalize c.past separatesElements = d at *
  obtain ⟨_ | ⟨t, more⟩, lastEnd⟩ := d
  · simp [Cursor.atPunct, Cursor.peek] at dead
  · have kinds : t.kind = .punct ';' ∨ t.kind = .punct '\x7d' := by
      simpa [Cursor.atPunct, Cursor.peek, Token.isPunct] using dead
    have inside : t.isPunct ']' = false := by rcases kinds with kind | kind <;> simp [Token.isPunct, kind]
    have ends : endsExpression true none t more = true := by
      rcases kinds with kind | kind <;> simp [endsExpression, kind]
    have stays : skipExpression true ⟨t :: more, lastEnd⟩ = .done () ⟨t :: more, lastEnd⟩ := by
      rw [skipExpression, skipExpressionFrom, ends]
      rfl
    simp [Cursor.peek, inside, stays]

/-- Everywhere else a turn that asks for another one has taken a token. -/
theorem listTurn_again (keeps : body.Keeps) {c rest : Cursor} (live : ¬c.DeadEnd)
    {objects next : List ObjectNode} (again : listTurn body objects c = .done (.again next) rest) :
    rest.tokens.length < c.tokens.length := by
  have within := (past_suffix separatesElements c).length_le
  rw [listTurn_apply] at again
  split at again
  · cases again
  · rename_i t front
    split at again
    · obtain ⟨_, _, _, same⟩ := bind_eq_done.1 again
      cases same
    · rename_i inside
      split at again
      · obtain ⟨read, mid, ended, same⟩ := bind_eq_done.1 again
        cases same
        have := (object_takes keeps ended).2
        omega
      · obtain ⟨_, mid, ended, same⟩ := bind_eq_done.1 again
        cases same
        have := skipExpression_element front (by simpa using inside) live ended
        omega

end Reader

end QmlIndex.Document
