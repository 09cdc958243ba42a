import Mathlib.Data.List.TakeWhile
import QmlIndex.Proofs.Document.Spacing
import QmlIndex.Proofs.Outline.Lexing

/-! # Reading an outline

Every reader of a declaration, put before the lexemes of one, gives its tree and stops right behind it, whatever
declaration follows on the next line. Bodies are read as deep as there are levels left.
-/

namespace QmlIndex

open Text Document

namespace Outline

open Lexeme

open Reader (BodyReader)

variable {α β : Type} {rest : List Lexeme}

/-! ## Before a lexeme -/

/-- The cursor before the lexemes, at no place in particular. -/
def before (l : List Lexeme) : Cursor := ⟨(l.filterMap Lexeme.kind).map Token.blank, .origin⟩

@[simp]
theorem before_space : before (space :: rest) = before rest := rfl

@[simp]
theorem tokens_word {w : String} :
    (before (word w :: rest)).tokens = Token.blank (.ident w) :: (before rest).tokens := rfl

@[simp]
theorem tokens_number {n : String} :
    (before (number n :: rest)).tokens = Token.blank (.number n) :: (before rest).tokens := rfl

@[simp]
theorem tokens_quoted {t : String} :
    (before (quoted t :: rest)).tokens = Token.blank (.str t) :: (before rest).tokens := rfl

@[simp]
theorem tokens_mark {c : Char} :
    (before (mark c :: rest)).tokens = Token.blank (.punct c) :: (before rest).tokens := rfl

@[simp]
theorem tokens_newline : (before (newline :: rest)).tokens = Token.blank .newline :: (before rest).tokens := rfl

@[simp]
theorem mk_tokens : (⟨(before rest).tokens, .origin⟩ : Cursor) = before rest := rfl

@[simp]
theorem range_blank (k : TokenKind) : (Token.blank k).range = .blank := rfl

@[simp]
theorem stop_blank : TextRange.blank.stop = .origin := rfl

@[simp]
theorem kind_blank (k : TokenKind) : (Token.blank k).kind = k := rfl

@[simp]
theorem isPunct_blank (k : TokenKind) (c : Char) : (Token.blank k).isPunct c = (k == .punct c) := rfl

@[simp]
theorem isNewline_blank (k : TokenKind) : (Token.blank k).isNewline = (k == .newline) := rfl

@[simp]
theorem ident?_word (w : String) : (Token.blank (.ident w)).ident? = some w := rfl

@[simp]
theorem ident?_mark (c : Char) : (Token.blank (.punct c)).ident? = none := rfl

@[simp]
theorem ident?_number (n : String) : (Token.blank (.number n)).ident? = none := rfl

@[simp]
theorem ident?_newline : (Token.blank .newline).ident? = none := rfl

theorem bind_of_done {r : Reader α} {f : α → Reader β} {c d : Cursor} {a : α} (read : r c = .done a d) :
    (r >>= f) c = f a d := by
  change Reader.bind r f c = _
  rw [Reader.bind, read]

@[simp]
theorem word_bind {w : String} {f : TextRange → Reader β} :
    (Reader.word w >>= f) (before (word w :: rest)) = f .blank (before rest) := by
  apply bind_of_done
  simp [Reader.word, Reader.accept]

@[simp]
theorem ident_bind {w : String} {f : String × TextRange → Reader β} :
    (Reader.ident >>= f) (before (word w :: rest)) = f (w, .blank) (before rest) := rfl

@[simp]
theorem punct_bind {c : Char} {f : Unit → Reader β} :
    (Reader.punct c >>= f) (before (mark c :: rest)) = f () (before rest) := by
  apply bind_of_done
  simp [Reader.punct, Reader.accept]

@[simp]
theorem next_mark {c : Char} {f : Option Token → Reader β} :
    (Reader.next >>= f) (before (mark c :: rest)) = f (some (.blank (.punct c))) (before rest) := rfl

@[simp]
theorem next_word {w : String} {f : Option Token → Reader β} :
    (Reader.next >>= f) (before (word w :: rest)) = f (some (.blank (.ident w))) (before rest) := rfl

@[simp]
theorem atPunct_word {w : String} {p : Char} : (before (word w :: rest)).atPunct p = false := by
  simp [Cursor.atPunct, Cursor.peek]

@[simp]
theorem atPunct_mark {c p : Char} : (before (mark c :: rest)).atPunct p = (c == p) := by
  rw [Bool.eq_iff_iff]
  simp [Cursor.atPunct, Cursor.peek]

@[simp]
theorem atPunct_number {n : String} {p : Char} : (before (number n :: rest)).atPunct p = false := by
  simp [Cursor.atPunct, Cursor.peek]

@[simp]
theorem atPunct_newline {p : Char} : (before (newline :: rest)).atPunct p = false := by
  simp [Cursor.atPunct, Cursor.peek]

@[simp]
theorem atWord_word {v w : String} : (before (word v :: rest)).atWord w = (v == w) := by
  simp [Cursor.atWord, Cursor.word?, Cursor.peek]

@[simp]
theorem atWord_mark {c : Char} {w : String} : (before (mark c :: rest)).atWord w = false := by
  simp [Cursor.atWord, Cursor.word?, Cursor.peek]

@[simp]
theorem atWord_newline {w : String} : (before (newline :: rest)).atWord w = false := by
  simp [Cursor.atWord, Cursor.word?, Cursor.peek]

/-- A class of tokens that the next one is not in. -/
theorem past_of_not {p : Token → Bool} {c : Cursor} (none : c.peek.any p = false) : c.past p = c := by
  obtain ⟨_ | ⟨t, ts⟩, e⟩ := c
  · rfl
  · have out : p t = false := none
    simp [Cursor.past, Cursor.skipWhile, out]

/-- A class of tokens that the next one is in. -/
theorem past_of_in {p : Token → Bool} {l : Lexeme} {k : TokenKind} (kind : l.kind = some k)
    (inside : p (.blank k) = true) : (before (l :: rest)).past p = (before rest).past p := by
  simp only [before, List.filterMap_cons, kind, List.map_cons, Cursor.past, Cursor.skipWhile, inside, if_true]
  rfl

/-! ## Names -/

theorem segments_before (names : List Name) (name : String) (ended : (before rest).atPunct '.' = false) :
    Reader.segments (before ((names.flatMap fun n => [mark '.', word n.text]) ++ rest)).tokens name .blank .origin =
      .done (".".intercalate (name :: names.map Name.text), .blank) (before rest) := by
  induction names generalizing name with
  | nil =>
      have stays : ∀ c : Cursor, c.lastEnd = .origin → c.atPunct '.' = false →
          Reader.segments c.tokens name .blank .origin = .done (name, .blank) c := by
        rintro ⟨_ | ⟨t, _ | ⟨u, more⟩⟩, _⟩ rfl plain
        · rfl
        · rfl
        · have out : t.isPunct '.' = false := plain
          rw [Reader.segments, out]
      simpa using stays (before rest) rfl ended
  | cons n names ih =>
      have cover : TextRange.blank.cover .blank = .blank := rfl
      have step := ih (name ++ "." ++ n.text)
      simpa [Reader.segments, cover] using step

theorem qualifiedName_before (q : Dotted) (rest : List Lexeme) (ended : (before rest).atPunct '.' = false) :
    Reader.qualifiedName (before (q.lexemes ++ rest)) = .done (q.text, .blank) (before rest) :=
  segments_before q.rest q.first.text ended

theorem afterDotted_before (q : Dotted) (ended : (before rest).atPunct '.' = false) :
    Cursor.afterDotted (before (q.lexemes ++ rest)).tokens = some (q.last.text, (before rest).tokens) := by
  obtain ⟨first, names⟩ := q
  simp only [Dotted.lexemes, Dotted.last, List.cons_append, tokens_word]
  induction names generalizing first with
  | nil =>
      simp only [List.flatMap_nil, List.nil_append, List.getLast?_nil, Option.getD_none]
      rw [Cursor.afterDotted]
      cases left : (before rest).tokens with
      | nil => simp
      | cons t ts =>
          have out : t.isPunct '.' = false := by simpa [Cursor.atPunct, Cursor.peek, left] using ended
          simp [out]
  | cons n names ih =>
      have step := ih n
      rw [List.getLast?_cons, Option.getD_some]
      simpa [Cursor.afterDotted] using step

theorem startsUppercase_name {n : Name} (capital : (n.text.toList.head?).any isUppercase = true) :
    startsUppercase n.text = true := by
  have solid : ∀ c ∈ n.text.toList, (c != '.') = true := by
    intro c member
    have lexical := n.lexical
    rw [bne_iff_ne]
    rintro rfl
    cases spelled : n.text.toList with
    | nil => simp [spelled] at member
    | cons first more =>
        obtain ⟨start, continues⟩ : isIdentStart first = true ∧ ∀ d ∈ more, isIdentContinue d = true := by
          simpa [isWord, spelled] using lexical
        have outside : isIdentStart '.' = false ∧ isIdentContinue '.' = false := by decide
        rw [spelled] at member
        cases member with
        | head => simp [outside] at start
        | tail _ inner => simpa [outside] using continues '.' inner
  have whole : n.text.toList.reverse.takeWhile (· != '.') = n.text.toList.reverse := by
    rw [List.takeWhile_eq_self_iff]
    exact fun c member => solid c (List.mem_reverse.mp member)
  rw [startsUppercase, whole, List.getLast?_reverse]
  exact capital

/-- The type of a property, which the name of the property follows. -/
theorem typeName_before (type : PropertyType) {w : String} :
    Reader.typeName (before (type.lexemes ++ space :: word w :: rest)) = .done type.text (before (word w :: rest)) := by
  cases type with
  | plain name =>
      rw [Reader.typeName, PropertyType.lexemes, bind_of_done (qualifiedName_before name _ (by simp))]
      simp [PropertyType.text]
  | list element =>
      have head : Reader.qualifiedName (before (word "list" :: mark '<' ::
          (element.lexemes ++ mark '>' :: space :: word w :: rest))) =
          .done ("list", .blank) (before (mark '<' :: (element.lexemes ++ mark '>' :: space :: word w :: rest))) :=
        segments_before [] "list" (by simp)
      have inner := qualifiedName_before element (mark '>' :: space :: word w :: rest) (by simp)
      simp only [PropertyType.lexemes, List.cons_append, List.append_assoc, List.nil_append]
      rw [Reader.typeName, bind_of_done head]
      simp only [Reader.cursor_bind, atPunct_mark, beq_self_eq_true, if_true, next_mark]
      rw [bind_of_done inner]
      simp [PropertyType.text, String.append_assoc]

theorem propertyHead_before (type : PropertyType) (name : Name) :
    Reader.propertyHead (before (word "property" :: space :: (type.lexemes ++ space :: word name.text :: rest))) =
      .done (name.text, type.text) (before rest) := by
  rw [Reader.propertyHead, word_bind, before_space, bind_of_done (typeName_before type)]
  simp

/-- A pair of brackets with nothing in it. -/
theorem skipBalanced_before {opening closing : Char}
    (pair : (opening, closing) ∈ [('(', ')'), ('\x7b', '\x7d')]) :
    Reader.skipBalanced (before (mark opening :: mark closing :: rest)) = .done () (before rest) := by
  simp only [List.mem_cons, Prod.mk.injEq, List.not_mem_nil, or_false] at pair
  rcases pair with ⟨rfl, rfl⟩ | ⟨rfl, rfl⟩ <;> rfl

theorem region_before (complaint : Complaint) {opening closing : Char}
    (pair : (opening, closing) ∈ [('(', ')'), ('\x7b', '\x7d')]) :
    Reader.region opening complaint (before (mark opening :: mark closing :: rest)) = .done () (before rest) := by
  simp only [Reader.region, Reader.cursor_bind, atPunct_mark, beq_self_eq_true, if_true]
  exact skipBalanced_before pair

theorem signal_before (name : Name) :
    Reader.signal .origin (before (word "signal" :: space :: word name.text :: mark '(' :: mark ')' :: rest)) =
      .done (.signal name.text .blank) (before rest) := by
  rw [Reader.signal, word_bind, before_space, ident_bind]
  simp only [Reader.cursor_bind, atPunct_mark, beq_self_eq_true, if_true]
  rw [bind_of_done (skipBalanced_before (by simp))]
  rfl

theorem function_before (name : Name) :
    Reader.function .origin (before (word "function" :: space :: word name.text :: mark '(' :: mark ')' :: space ::
      mark '\x7b' :: mark '\x7d' :: rest)) = .done (.function name.text .blank) (before rest) := by
  have noResult : Reader.resultType (before (mark '\x7b' :: mark '\x7d' :: rest)) =
      .done () (before (mark '\x7b' :: mark '\x7d' :: rest)) := by simp [Reader.resultType]
  have here : (before (mark '\x7b' :: mark '\x7d' :: rest)).past Token.isNewline =
      before (mark '\x7b' :: mark '\x7d' :: rest) := past_of_not (by simp [Cursor.peek])
  rw [Reader.function, word_bind, before_space, ident_bind]
  simp only
  rw [bind_of_done (region_before _ (by simp)), before_space, bind_of_done noResult, Reader.skipNewlines_bind, here,
    bind_of_done (region_before _ (by simp))]
  rfl

theorem enumeration_before (name : Name) :
    Reader.enumeration .origin (before (word "enum" :: space :: word name.text :: space :: mark '\x7b' :: mark '\x7d' ::
      rest)) = .done (.enum name.text .blank) (before rest) := by
  have here : (before (mark '\x7b' :: mark '\x7d' :: rest)).past Token.isNewline =
      before (mark '\x7b' :: mark '\x7d' :: rest) := past_of_not (by simp [Cursor.peek])
  rw [Reader.enumeration, word_bind, before_space, ident_bind]
  simp only
  rw [before_space, Reader.skipNewlines_bind, here, bind_of_done (region_before _ (by simp))]
  rfl

/-! ## Objects -/

/-- A reader of bodies that reads the body of the object. -/
def Object.Reads (body : BodyReader) : Object → Prop
  | .mk type _ members => ∀ rest,
      body type.text .origin (before (mark '\x7b' :: newline :: (memberLexemes members ++ mark '\x7d' :: rest))) =
        .done (.mk type.text .blank (memberTrees members)) (before rest)

variable {body : BodyReader}

theorem atPunct_onTarget (target : Option Dotted) {p : Char} (other : p ≠ '\x7b') :
    (before (onTarget target ++ space :: mark '\x7b' :: rest)).atPunct p = false := by
  cases target with
  | none => simpa [onTarget] using other.symm
  | some name => simp [onTarget]

theorem beforeBody_before (target : Option Dotted) :
    Reader.beforeBody (before (onTarget target ++ space :: mark '\x7b' :: rest)) =
      .done () (before (mark '\x7b' :: rest)) := by
  have settled : (before (mark '\x7b' :: rest)).past Token.isNewline = before (mark '\x7b' :: rest) :=
    past_of_not (by simp [Cursor.peek])
  have target : Reader.onTarget (before (onTarget target ++ space :: mark '\x7b' :: rest)) =
      .done () (before (mark '\x7b' :: rest)) := by
    cases target with
    | none => simp [onTarget, Reader.onTarget]
    | some name =>
        have named := qualifiedName_before name (space :: mark '\x7b' :: rest) (by simp)
        simp only [onTarget, Reader.onTarget, List.cons_append, before_space, Reader.cursor_bind, atWord_word,
          beq_self_eq_true, if_true, next_word]
        rw [bind_of_done named]
        simp
  rw [Reader.beforeBody, bind_of_done target]
  exact congrArg (Outcome.done ()) settled

/-- An object starts with a word. -/
theorem Object.exists_front (o : Object) : ∃ n : Name, ∃ more, o.lexemes = word n.text :: more := by
  cases o with
  | mk type target members => exact ⟨type.first, _, rfl⟩

theorem object_before {o : Object} (reads : o.Reads body) :
    Reader.object body (before (o.lexemes ++ rest)) = .done o.tree (before rest) := by
  cases o with
  | mk type target members =>
      simp only [Object.lexemes, List.append_assoc, List.cons_append, List.nil_append]
      have head (rest : List Lexeme) :
          Reader.objectHead (before (type.lexemes ++ (onTarget target ++ space :: mark '\x7b' :: rest))) =
            .done (type.text, .origin) (before (mark '\x7b' :: rest)) := by
        rw [Reader.objectHead, bind_of_done (qualifiedName_before type.toDotted _ (atPunct_onTarget target (by decide)))]
        exact bind_of_done (beforeBody_before target)
      rw [Reader.object, bind_of_done (head _)]
      exact reads rest

theorem component_before (name : Name) {o : Object} (reads : o.Reads body) :
    Reader.component body .origin (before (word "component" :: space :: word name.text :: mark ':' :: space ::
      (o.lexemes ++ rest))) = .done (.component name.text .blank o.tree) (before rest) := by
  obtain ⟨n, more, starts⟩ := o.exists_front
  have here : (before (o.lexemes ++ rest)).past Token.isNewline = before (o.lexemes ++ rest) :=
    past_of_not (by simp [starts, Cursor.peek])
  have head : Reader.componentHead (before (word "component" :: space :: word name.text :: mark ':' :: space ::
      (o.lexemes ++ rest))) = .done name.text (before (o.lexemes ++ rest)) := by
    rw [Reader.componentHead, word_bind, before_space, ident_bind]
    simp only
    rw [punct_bind, before_space, Reader.skipNewlines_bind, here]
    rfl
  rw [Reader.component, bind_of_done head, bind_of_done (object_before reads)]
  rfl

theorem looksLikeObject_before (o : Object) : (before (o.lexemes ++ rest)).looksLikeObject = true := by
  cases o with
  | mk type target members =>
      simp only [Object.lexemes, List.append_assoc, List.cons_append, List.nil_append]
      rw [Cursor.looksLikeObject, afterDotted_before type.toDotted (atPunct_onTarget target (by decide))]
      simp only [startsUppercase_name type.capital, Bool.true_and]
      cases target <;> simp [onTarget]

/-! ## Lists and values -/

theorem tokens_append (l rest : List Lexeme) : (before (l ++ rest)).tokens = (before l).tokens ++ (before rest).tokens := by
  simp [before]

/-- One turn of the loop over the elements of a list, from before the object or from before a comma. -/
theorem iterate_element {o : Object} (reads : o.Reads body) {c : Cursor}
    (front : c.past Reader.separatesElements = before (o.lexemes ++ rest)) (read : List ObjectNode) :
    Reader.iterate (Reader.listTurn body) read c =
      Reader.iterate (Reader.listTurn body) (read ++ [o.tree]) (before rest) := by
  obtain ⟨n, more, starts⟩ := o.exists_front
  have peek : (before (o.lexemes ++ rest)).peek = some (.blank (.ident n.text)) := by simp [starts, Cursor.peek]
  have turn : Reader.listTurn body read c = .done (.again (read ++ [o.tree])) (before rest) := by
    rw [Reader.listTurn_apply, front, peek, looksLikeObject_before]
    simp only [isPunct_blank, beq_iff_eq, reduceCtorEq, if_false, if_true]
    exact bind_of_done (object_before reads)
  have shorter : (before rest).tokens.length < c.tokens.length := by
    have within := (Reader.past_suffix Reader.separatesElements c).length_le
    rw [front, tokens_append, List.length_append, starts, tokens_word, List.length_cons] at within
    omega
  rw [Reader.iterate_apply, turn]
  simp only [shorter, if_true]

theorem elementLexemes_cons (o : Object) (objects : List Object) :
    elementLexemes (o :: objects) = o.lexemes ++ objects.flatMap fun o => mark ',' :: space :: o.lexemes := by
  induction objects generalizing o with
  | nil => simp [elementLexemes]
  | cons next objects ih => simp [elementLexemes, ih]

theorem iterate_elements (objects : List Object) (reads : ∀ o ∈ objects, o.Reads body) (read : List ObjectNode) :
    Reader.iterate (Reader.listTurn body) read
        (before ((objects.flatMap fun o => mark ',' :: space :: o.lexemes) ++ mark ']' :: rest)) =
      .done (read ++ objectTrees objects) (before rest) := by
  induction objects generalizing read with
  | nil =>
      have settled : (before (mark ']' :: rest)).past Reader.separatesElements = before (mark ']' :: rest) :=
        past_of_not (by simp [Cursor.peek, Reader.separatesElements])
      have turn : Reader.listTurn body read (before (mark ']' :: rest)) = .done (.stop read) (before rest) := by
        rw [Reader.listTurn_apply, settled]
        simp [Cursor.peek]
      rw [Reader.iterate_apply, List.flatMap_nil, List.nil_append, turn]
      simp [objectTrees]
  | cons o objects ih =>
      obtain ⟨n, more, starts⟩ := o.exists_front
      have front : (before (mark ',' :: space :: (o.lexemes ++ ((objects.flatMap fun o => mark ',' :: space ::
          o.lexemes) ++ mark ']' :: rest)))).past Reader.separatesElements =
          before (o.lexemes ++ ((objects.flatMap fun o => mark ',' :: space :: o.lexemes) ++ mark ']' :: rest)) := by
        rw [past_of_in (k := .punct ',') rfl rfl, before_space]
        exact past_of_not (by simp [starts, Cursor.peek, Reader.separatesElements])
      simp only [List.flatMap_cons, List.cons_append, List.append_assoc]
      rw [iterate_element (reads o List.mem_cons_self) front,
        ih fun o member => reads o (List.mem_cons_of_mem _ member)]
      simp [objectTrees]

theorem list_before (objects : List Object) (reads : ∀ o ∈ objects, o.Reads body) :
    Reader.list body (before (mark '[' :: (elementLexemes objects ++ mark ']' :: rest))) =
      .done (objectTrees objects) (before rest) := by
  rw [Reader.list, punct_bind]
  cases objects with
  | nil => exact iterate_elements [] nofun []
  | cons o objects =>
      obtain ⟨n, more, starts⟩ := o.exists_front
      rw [elementLexemes_cons, List.append_assoc]
      rw [iterate_element (reads o List.mem_cons_self)
        (past_of_not (by simp [starts, Cursor.peek, Reader.separatesElements])),
        iterate_elements objects fun o member => reads o (List.mem_cons_of_mem _ member)]
      rfl

/-- The objects written in a value. -/
def Value.objects : Value → List Object
  | .plain => []
  | .object o => [o]
  | .list objects => objects

/-- The next line does not go on with the expression that ends here. -/
def Settled (rest : List Lexeme) : Prop := nextLineContinues false (before rest).tokens = false

theorem value_before (v : Value) (reads : ∀ o ∈ v.objects, o.Reads body) (settled : Settled rest) :
    Reader.value body (before (v.lexemes ++ newline :: rest)) = .done v.trees (before (newline :: rest)) := by
  cases v with
  | plain =>
      have here : (before (number "0" :: newline :: rest)).past Token.isNewline =
          before (number "0" :: newline :: rest) := past_of_not (by simp [Cursor.peek])
      have looks : (before (number "0" :: newline :: rest)).looksLikeObject = false := by
        simp [Cursor.looksLikeObject, Cursor.afterDotted]
      have skipped : Reader.skipExpression false (before (number "0" :: newline :: rest)) =
          .done () (before (newline :: rest)) := by
        rw [Settled] at settled
        simp [Reader.skipExpression, Reader.skipExpressionFrom, endsExpression, owe, isOperator, settled]
        rfl
      simp only [Value.lexemes, List.cons_append, List.nil_append, Reader.value, Reader.skipNewlines_bind, here,
        Reader.cursor_bind, atPunct_number, looks, Bool.false_eq_true, if_false]
      rw [bind_of_done skipped]
      rfl
  | object o =>
      obtain ⟨n, more, starts⟩ := o.exists_front
      have here : (before (o.lexemes ++ newline :: rest)).past Token.isNewline = before (o.lexemes ++ newline :: rest) :=
        past_of_not (by simp [starts, Cursor.peek])
      have word : ∀ p, (before (o.lexemes ++ newline :: rest)).atPunct p = false := by simp [starts]
      simp only [Value.lexemes, Reader.value, Reader.skipNewlines_bind, here, Reader.cursor_bind, word,
        looksLikeObject_before, Bool.false_eq_true, if_false, if_true]
      rw [bind_of_done (object_before (reads o List.mem_cons_self))]
      rfl
  | list objects =>
      have here : (before (mark '[' :: (elementLexemes objects ++ mark ']' :: newline :: rest))).past Token.isNewline =
          before (mark '[' :: (elementLexemes objects ++ mark ']' :: newline :: rest)) :=
        past_of_not (by simp [Cursor.peek])
      simp only [Value.lexemes, List.cons_append, List.append_assoc, List.nil_append, Reader.value,
        Reader.skipNewlines_bind, here, Reader.cursor_bind]
      simpa [Value.trees] using list_before objects reads

/-! ## Members -/

/-- The objects written in a member. -/
def Declaration.objects : Declaration → List Object
  | .property _ _ _ (some value) => value.objects
  | .component _ o => [o]
  | .binding _ value => value.objects
  | .object o => [o]
  | _ => []

/-- What stands behind the name of a property. -/
def assigned : Option Value → List Lexeme
  | none => []
  | some value => mark ':' :: space :: value.lexemes

theorem lexemes_property (modifiers : List Modifier) (type : PropertyType) (name : Name) (value : Option Value) :
    (Declaration.property modifiers type name value).lexemes = modifierLexemes modifiers ++ word "property" :: space ::
      (type.lexemes ++ space :: word name.text :: assigned value) := by
  cases value <;> simp [Declaration.lexemes, assigned]

/-- A member starts with a word. -/
theorem Declaration.exists_front (d : Declaration) : ∃ w more, d.lexemes = word w :: more := by
  cases d with
  | id | signal | function | enum | component | binding => exact ⟨_, _, rfl⟩
  | property modifiers =>
      rw [lexemes_property]
      cases modifiers <;> exact ⟨_, _, rfl⟩
  | object o =>
      obtain ⟨n, more, starts⟩ := o.exists_front
      exact ⟨_, _, starts⟩

theorem declaration?_before (w : String) :
    Reader.declaration? (before (word w :: rest)) =
      some (Reader.declarationOf ((before rest).atPunct ':') w, .origin) := by
  have name : (before (word w :: rest)).isBindingName = (before rest).atPunct ':' := by
    simp [Cursor.isBindingName, Cursor.atPunct, Cursor.peek, List.head?_eq_getElem?]
  simp [Reader.declaration?, Cursor.peek, Cursor.word?, name]
  rfl

theorem declarationOf_name (n : Name) (bound : Bool) : Reader.declarationOf bound n.text = .named := by
  have free := n.free
  simp only [reserved, List.mem_append, List.mem_cons, List.not_mem_nil, or_false, not_or] at free
  simp [Reader.declarationOf, free]

theorem declarationOf_modifier (m : Modifier) : Reader.declarationOf false m.word = .modified := by
  have known := m.known
  have other : m.word ≠ "property" := by
    intro same
    rw [same] at known
    revert known
    decide
  simp [Reader.declarationOf, known, other]

/-- A member that starts with a word is read as what the word declares. -/
theorem member_before {w : String} {d : Reader.Declaration}
    (kind : Reader.declarationOf ((before rest).atPunct ':') w = d) :
    Reader.member body (before (word w :: rest)) = Reader.declared body d .origin (before (word w :: rest)) := by
  rw [Reader.member, Reader.cursor_bind, declaration?_before, kind]

theorem property_before (modifiers : List Modifier) (type : PropertyType) (name : Name) (value : Option Value)
    (reads : ∀ o ∈ (Declaration.property modifiers type name value).objects, o.Reads body) (settled : Settled rest) :
    Reader.property body .origin (before (word "property" :: space :: (type.lexemes ++ space :: word name.text ::
      (assigned value ++ newline :: rest)))) =
      .done (Declaration.property modifiers type name value).tree (before (newline :: rest)) := by
  rw [Reader.property, bind_of_done (propertyHead_before type name)]
  cases value with
  | none =>
      simp [assigned]
      rfl
  | some v =>
      simp only [assigned, List.cons_append, Reader.cursor_bind, atPunct_mark, beq_self_eq_true, if_true, next_mark,
        before_space]
      rw [bind_of_done (value_before v reads settled)]
      rfl

theorem past_modifiers (l : List Modifier) :
    (before (modifierLexemes l ++ word "property" :: rest)).past Reader.isModifier =
      before (word "property" :: rest) := by
  induction l with
  | nil =>
      have outside : Reader.isModifier (.blank (.ident "property")) = false := by decide
      exact past_of_not outside
  | cons m l ih =>
      have inside : Reader.isModifier (.blank (.ident m.word)) = true := by simpa [Reader.isModifier] using m.known
      simp only [modifierLexemes, List.flatMap_cons, List.cons_append, List.nil_append]
      rw [past_of_in rfl inside]
      exact ih

theorem modified_before (m : Modifier) (l : List Modifier) :
    Reader.modified body .origin (before (modifierLexemes (m :: l) ++ word "property" :: rest)) =
      Reader.property body .origin (before (word "property" :: rest)) := by
  simp only [Reader.modified, Reader.skipWhile_bind, past_modifiers, Reader.cursor_bind, atWord_word, beq_self_eq_true,
    if_true]

theorem named_object_before {o : Object} (reads : o.Reads body) :
    Reader.named body .origin (before (o.lexemes ++ rest)) = .done (.object o.tree) (before rest) := by
  cases o with
  | mk type target members =>
      simp only [Object.lexemes, List.append_assoc, List.cons_append, List.nil_append]
      rw [Reader.named, bind_of_done (qualifiedName_before type.toDotted _ (atPunct_onTarget target (by decide)))]
      have opens (rest : List Lexeme) :
          Reader.opensObject type.text (before (onTarget target ++ space :: mark '\x7b' :: rest)) = true := by
        cases target <;> simp [onTarget, Reader.opensObject]
      simp only [Reader.cursor_bind, opens, if_true]
      rw [bind_of_done (beforeBody_before target)]
      exact bind_of_done (reads rest)

theorem named_binding_before (name : Dotted) (value : Value) (reads : ∀ o ∈ value.objects, o.Reads body)
    (settled : Settled rest) :
    Reader.named body .origin (before (name.lexemes ++ mark ':' :: space :: (value.lexemes ++ newline :: rest))) =
      .done (.binding name.text .blank value.trees) (before (newline :: rest)) := by
  rw [Reader.named, bind_of_done (qualifiedName_before name _ (by simp))]
  have plain (rest : List Lexeme) : Reader.opensObject name.text (before (mark ':' :: rest)) = false := by
    simp [Reader.opensObject, Cursor.nextSignificantIs]
  simp only [Reader.cursor_bind, plain, Bool.false_eq_true, if_false, atPunct_mark, beq_self_eq_true, if_true, next_mark,
    before_space]
  rw [bind_of_done (value_before value reads settled)]
  rfl

theorem declaration_before (d : Declaration) (reads : ∀ o ∈ d.objects, o.Reads body) (settled : Settled rest) :
    Reader.member body (before (d.lexemes ++ newline :: rest)) = .done d.tree (before (newline :: rest)) := by
  cases d with
  | id name =>
      refine (member_before (d := .id) (by simp [Reader.declarationOf])).trans ?_
      simp [Reader.declared, Reader.idMember]
      rfl
  | property l type name value =>
      have property := property_before l type name value reads settled
      rw [lexemes_property]
      simp only [List.append_assoc, List.cons_append]
      cases l with
      | nil =>
          have first : ∀ more p, (before (type.lexemes ++ more)).atPunct p = false := by
            intro more p
            cases type <;> simp [PropertyType.lexemes, Dotted.lexemes]
          exact (member_before (d := .property) (by simp [Reader.declarationOf, first])).trans property
      | cons m l =>
          have first : ∀ more p, (before (modifierLexemes l ++ word "property" :: more)).atPunct p = false := by
            intro more p
            cases l <;> simp [modifierLexemes]
          refine (member_before (d := .modified) ?_).trans ((modified_before m l).trans property)
          rw [← declarationOf_modifier m]
          exact congrArg (Reader.declarationOf · m.word) (first _ _)
  | signal name =>
      exact (member_before (d := .signal) (by simp [Reader.declarationOf, modifiers])).trans (signal_before name)
  | function name =>
      exact (member_before (d := .function) (by simp [Reader.declarationOf, modifiers])).trans (function_before name)
  | enum name =>
      exact (member_before (d := .enumeration) (by simp [Reader.declarationOf, modifiers])).trans
        (enumeration_before name)
  | component name o =>
      exact (member_before (d := .component) (by simp [Reader.declarationOf, modifiers])).trans
        (component_before name (reads o List.mem_cons_self))
  | binding name value =>
      simp only [Declaration.lexemes, List.append_assoc, List.cons_append]
      exact (member_before (declarationOf_name name.first _)).trans (named_binding_before name value reads settled)
  | object o =>
      obtain ⟨n, more, starts⟩ := o.exists_front
      have named : Reader.named body .origin (before (o.lexemes ++ newline :: rest)) =
          .done (.object o.tree) (before (newline :: rest)) := named_object_before (reads o List.mem_cons_self)
      simp only [Declaration.lexemes, starts] at named ⊢
      exact (member_before (declarationOf_name n _)).trans named

/-! ## Bodies -/

theorem settled_word {w : String} : Settled (word w :: rest) := rfl

theorem settled_brace : Settled (mark '\x7d' :: rest) := rfl

theorem settled_members (members : List Declaration) (rest : List Lexeme) :
    Settled (memberLexemes members ++ mark '\x7d' :: rest) := by
  cases members with
  | nil => exact settled_brace
  | cons d members =>
      obtain ⟨w, more, starts⟩ := d.exists_front
      simp only [memberLexemes, starts, List.cons_append]
      exact settled_word

/-- The lines of a body, from the end of the line before them. -/
theorem past_members (members : List Declaration) :
    (before (newline :: (memberLexemes members ++ mark '\x7d' :: rest))).past Reader.endsStatement =
      before (memberLexemes members ++ mark '\x7d' :: rest) := by
  rw [past_of_in (k := .newline) rfl rfl]
  cases members with
  | nil => exact past_of_not (by simp [memberLexemes, Cursor.peek, Reader.endsStatement])
  | cons d members =>
      obtain ⟨w, more, starts⟩ := d.exists_front
      exact past_of_not (by simp [memberLexemes, starts, Cursor.peek, Reader.endsStatement])

theorem iterate_members (keeps : body.Keeps) (name : String) (members : List Declaration)
    (reads : ∀ d ∈ members, ∀ o ∈ d.objects, o.Reads body) (read : List Member) :
    Reader.iterate (Reader.membersTurn body name .origin) read
        (before (newline :: (memberLexemes members ++ mark '\x7d' :: rest))) =
      .done (.mk name .blank (read ++ memberTrees members)) (before rest) := by
  have sweeps := (Reader.membersTurn_advances keeps name .origin).iterate_sweeps
  induction members generalizing read with
  | nil =>
      have turn : Reader.membersTurn body name .origin read (before (newline :: (memberLexemes [] ++ mark '\x7d' ::
          rest))) = .done (.stop (.mk name .blank read)) (before rest) := by
        rw [Reader.membersTurn_apply, past_members]
        rfl
      rw [sweeps.loop, turn]
      simp [Reader.resume, memberTrees]
  | cons d members ih =>
      have member := declaration_before d (reads d List.mem_cons_self) (settled_members members rest)
      have turn : Reader.membersTurn body name .origin read
          (before (newline :: (memberLexemes (d :: members) ++ mark '\x7d' :: rest))) =
          .done (.again (read ++ [d.tree])) (before (newline :: (memberLexemes members ++ mark '\x7d' :: rest))) := by
        obtain ⟨w, more, starts⟩ := d.exists_front
        have peek : (before (d.lexemes ++ newline :: (memberLexemes members ++ mark '\x7d' :: rest))).peek =
            some (.blank (.ident w)) := by simp [starts, Cursor.peek]
        rw [Reader.membersTurn_apply, past_members]
        simp only [memberLexemes, List.append_assoc, List.cons_append, peek, isPunct_blank, beq_iff_eq, reduceCtorEq,
          if_false]
        exact bind_of_done member
      rw [sweeps.loop, turn, Reader.resume, ih fun d member => reads d (List.mem_cons_of_mem _ member)]
      simp [memberTrees]

theorem depth_le_of_mem {o : Object} {objects : List Object} (member : o ∈ objects) :
    o.depth ≤ depthOfObjects objects := by
  induction objects with
  | nil => cases member
  | cons first objects ih =>
      rw [depthOfObjects]
      cases member with
      | head => omega
      | tail _ inner =>
          have := ih inner
          omega

theorem depth_le_declaration {o : Object} {d : Declaration} (member : o ∈ d.objects) : o.depth ≤ d.depth := by
  have value {v : Value} (member : o ∈ v.objects) : o.depth ≤ v.depth := by
    cases v with
    | plain => cases member
    | object object =>
        cases member with
        | head => exact Nat.le_refl _
        | tail _ none => cases none
    | list objects => exact depth_le_of_mem member
  cases d with
  | id | signal | function | enum => cases member
  | property _ _ _ assigned =>
      cases assigned with
      | none => cases member
      | some v => exact value member
  | binding name v => exact value member
  | component _ object | object object =>
      cases member with
      | head => exact Nat.le_refl _
      | tail _ none => cases none

theorem depth_le_members {d : Declaration} {members : List Declaration} (member : d ∈ members) :
    d.depth ≤ depthOfMembers members := by
  induction members with
  | nil => cases member
  | cons first members ih =>
      rw [depthOfMembers]
      cases member with
      | head => omega
      | tail _ inner =>
          have := ih inner
          omega

/-- Bodies are read as deep as there are levels left. -/
theorem reads_body (limit : Nat) {levels : Nat} {o : Object} (deep : o.depth ≤ levels) :
    o.Reads (Reader.body limit levels) := by
  induction levels generalizing o with
  | zero =>
      cases o with
      | mk type target members => simp [Object.depth] at deep
  | succ levels ih =>
      cases o with
      | mk type target members =>
          rw [Object.depth] at deep
          intro rest
          rw [Reader.body, Reader.members, punct_bind]
          refine iterate_members (Reader.body_keeps limit levels) type.text members ?_ []
          intro d member o inner
          have := depth_le_members member
          have := depth_le_declaration inner
          exact ih (by omega)

end Outline

end QmlIndex
