import Mathlib.Data.List.TakeWhile
import QmlIndex.Proofs.Document.Walk

/-! # Looking ahead for objects

An object is looked for as a dotted name that a brace or the word `on` follows, and line breaks may stand in front of
either. It is read with line breaks in front of the brace only. So the two agree on the name, and on where the body
begins; but an `on` in a line of its own is taken for a part of the object and then refused. A binding that ends in a
name is therefore read as a binding, unless the word `on` begins the next line.
-/

namespace QmlIndex.Document

/-! ## Dotted names -/

/-- The tokens of a dotted name, of which `last` is the last word. -/
inductive DottedName (last : Token) : List Token → Prop where
  | word (named : last.ident?.isSome = true) : DottedName last [last]
  | dot {t dot : Token} {ts : List Token} (named : t.ident?.isSome = true) (dotted : dot.isPunct '.' = true)
      (rest : DottedName last ts) : DottedName last (t :: dot :: ts)

/-- No segment of a name follows. -/
def Undotted (ts : List Token) : Prop := ts.head?.any (·.isPunct '.') = false

variable {last t : Token} {value rest : List Token} {e : Position}

theorem kind_of_ident? {w : String} (named : t.ident? = some w) : t.kind = .ident w := by
  rw [Token.ident?] at named
  split at named
  · rename_i name kind
    rw [kind, Option.some.inj named]
  · cases named

theorem kind_of_isSome (named : t.ident?.isSome = true) : ∃ w, t.kind = .ident w := by
  obtain ⟨w, found⟩ := Option.isSome_iff_exists.mp named
  exact ⟨w, kind_of_ident? found⟩

theorem kind_of_isPunct {p : Char} (here : t.isPunct p = true) : t.kind = .punct p := by
  simpa [Token.isPunct] using here

theorem kind_of_isNewline (broken : t.isNewline = true) : t.kind = .newline := by
  simpa [Token.isNewline] using broken

theorem isPunct_of_isSome (named : t.ident?.isSome = true) (p : Char) : t.isPunct p = false := by
  obtain ⟨w, kind⟩ := kind_of_isSome named
  simp [Token.isPunct, kind]

theorem isNewline_of_isSome (named : t.ident?.isSome = true) : t.isNewline = false := by
  obtain ⟨w, kind⟩ := kind_of_isSome named
  simp [Token.isNewline, kind]

theorem isPunct_of_isNewline (broken : t.isNewline = true) (p : Char) : t.isPunct p = false := by
  simp [Token.isPunct, kind_of_isNewline broken]

theorem undotted_append {breaks : List Token} (broken : ∀ s ∈ breaks, s.isNewline = true)
    (other : t.isPunct '.' = false) (rest : List Token) : Undotted (breaks ++ t :: rest) := by
  cases breaks with
  | nil => simp [Undotted, other]
  | cons s breaks => simp [Undotted, isPunct_of_isNewline (broken s List.mem_cons_self)]

theorem dropWhile_append_stop {breaks : List Token} (broken : ∀ s ∈ breaks, s.isNewline = true)
    (stops : t.isNewline = false) (rest : List Token) :
    (breaks ++ t :: rest).dropWhile Token.isNewline = t :: rest := by
  rw [List.dropWhile_append_of_pos broken, List.dropWhile_cons_of_neg (by simp [stops])]

namespace DottedName

theorem last_isSome (name : DottedName last value) : last.ident?.isSome = true := by
  induction name with
  | word named => exact named
  | dot _ _ _ ih => exact ih

theorem starts (name : DottedName last value) : ∃ t more, value = t :: more ∧ t.ident?.isSome = true := by
  cases name with
  | word named => exact ⟨last, [], rfl, named⟩
  | dot named _ _ => exact ⟨_, _, rfl, named⟩

/-- Looking ahead passes exactly the name. -/
theorem afterDotted (name : DottedName last value) {segment : String} (ends : last.ident? = some segment)
    (undotted : Undotted rest) : Cursor.afterDotted (value ++ rest) = some (segment, rest) := by
  induction name with
  | word _ =>
      rw [List.singleton_append, Cursor.afterDotted, ends]
      cases rest with
      | nil => rfl
      | cons dot more =>
          have other : dot.isPunct '.' = false := undotted
          simp [other]
  | dot named dotted _ ih =>
      obtain ⟨w, found⟩ := Option.isSome_iff_exists.mp named
      rw [List.cons_append, List.cons_append, Cursor.afterDotted, found]
      simpa [dotted] using ih

end DottedName

theorem exists_dottedName {tokens : List Token} {segment : String}
    (found : Cursor.afterDotted tokens = some (segment, rest)) : ∃ last value, DottedName last value ∧
      last.ident? = some segment ∧ tokens = value ++ rest ∧ Undotted rest := by
  fun_induction Cursor.afterDotted tokens with
  | case1 | case2 => cases found
  | case3 t w named dot more dotted ih =>
      obtain ⟨last, value, name, ends, rfl, undotted⟩ := ih found
      exact ⟨last, t :: dot :: value, .dot (by rw [named]; rfl) dotted name, ends, rfl, undotted⟩
  | case4 t w named dot more undotted =>
      obtain ⟨rfl, rfl⟩ := Prod.mk.inj (Option.some.inj found)
      exact ⟨t, [t], .word (by rw [named]; rfl), named, rfl, by simpa [Undotted] using undotted⟩
  | case5 t w named =>
      obtain ⟨rfl, rfl⟩ := Prod.mk.inj (Option.some.inj found)
      exact ⟨t, [t], .word (by rw [named]; rfl), named, rfl, rfl⟩

/-! ## What is found ahead -/

/-- A dotted name with a capital at its end, line breaks, and a brace or the word `on`. -/
structure Cursor.ObjectAhead (c : Cursor) (last : Token) (value breaks : List Token) (opening : Token)
    (rest : List Token) : Prop where
  tokens : c.tokens = value ++ (breaks ++ opening :: rest)
  name : DottedName last value
  capital : last.ident?.any startsUppercase = true
  broken : ∀ t ∈ breaks, t.isNewline = true
  opens : opening.isPunct '\x7b' = true ∨ opening.ident? = some "on"

namespace Reader

theorem segments_of_undotted (undotted : Undotted rest) (name : String) (range : TextRange) :
    segments rest name range e = .done (name, range) ⟨rest, e⟩ := by
  obtain _ | ⟨dot, _ | ⟨t, more⟩⟩ := rest
  · rfl
  · rfl
  · have other : dot.isPunct '.' = false := undotted
    rw [segments, other]

/-- A dotted name is read from its tokens, up to the last word. -/
theorem qualifiedName_dotted (name : DottedName last value) (undotted : Undotted rest) :
    ∃ text range, qualifiedName ⟨value ++ rest, e⟩ = .done (text, range) ⟨rest, last.range.stop⟩ := by
  -- The text and the range so far vary, for they grow with every segment.
  have further : ∃ t w more, value = t :: more ∧ t.ident? = some w ∧ ∀ text range, ∃ text' range',
      segments (more ++ rest) text range t.range.stop = .done (text', range') ⟨rest, last.range.stop⟩ := by
    induction name with
    | word named =>
        obtain ⟨w, found⟩ := Option.isSome_iff_exists.mp named
        exact ⟨last, w, [], rfl, found, fun text range => ⟨text, range, segments_of_undotted undotted text range⟩⟩
    | @dot t dot _ named dotted _ ih =>
        obtain ⟨w, found⟩ := Option.isSome_iff_exists.mp named
        obtain ⟨t', w', more, rfl, found', onward⟩ := ih
        refine ⟨t, w, dot :: t' :: more, rfl, found, fun text range => ?_⟩
        obtain ⟨text', range', ended⟩ := onward (text ++ "." ++ w') (range.cover t'.range)
        exact ⟨text', range', by simpa [segments, dotted, found'] using ended⟩
  obtain ⟨t, w, more, rfl, found, onward⟩ := further
  obtain ⟨text, range, ended⟩ := onward w t.range
  refine ⟨text, range, ?_⟩
  rw [qualifiedName, bind_eq_done]
  exact ⟨(w, t.range), ⟨more ++ rest, t.range.stop⟩, by simp [ident, accept, found], ended⟩

/-- An expression goes on behind a dotted name. -/
theorem skipExpressionFrom_dotted (name : DottedName last value) (inList : Bool) (previous : Option TokenKind) :
    skipExpressionFrom inList (value ++ rest) [] previous e =
      skipExpressionFrom inList rest [] (some last.kind) last.range.stop := by
  have word : ∀ {t : Token} {tail : List Token} {previous : Option TokenKind} {e : Position}, t.ident?.isSome = true →
      skipExpressionFrom inList (t :: tail) [] previous e =
        skipExpressionFrom inList tail [] (some t.kind) t.range.stop := by
    intro t tail previous e named
    obtain ⟨w, kind⟩ := kind_of_isSome named
    simp [skipExpressionFrom, endsExpression, owe, Token.isNewline, kind]
  induction name generalizing previous e with
  | word named => exact word named
  | @dot t dot ts named dotted _ ih =>
      have kind := kind_of_isPunct dotted
      have point : ∀ {tail : List Token} {previous : Option TokenKind} {e : Position},
          skipExpressionFrom inList (dot :: tail) [] previous e =
            skipExpressionFrom inList tail [] (some dot.kind) dot.range.stop := by
        intro tail previous e
        simp [skipExpressionFrom, endsExpression, owe, closerOf, isCloser, Token.isNewline, kind]
      rw [List.cons_append, List.cons_append, word named, point, ih]

/-! ## Line breaks -/

/-- Behind a class of tokens. -/
theorem past_append {p : Token → Bool} {run : List Token} (inside : ∀ s ∈ run, p s = true) (outside : p t = false)
    (rest : List Token) (e : Position) :
    ∃ e', (Cursor.mk (run ++ t :: rest) e).past p = ⟨t :: rest, e'⟩ := by
  induction run generalizing e with
  | nil => exact ⟨e, by simp [Cursor.past, Cursor.skipWhile, outside]⟩
  | cons s run ih =>
      obtain ⟨e', found⟩ := ih (fun u member => inside u (List.mem_cons_of_mem s member)) s.range.stop
      refine ⟨e', ?_⟩
      simpa [Cursor.past, Cursor.skipWhile, inside s List.mem_cons_self] using found

theorem past_tokens (p : Token → Bool) (c : Cursor) : (c.past p).tokens = c.tokens.dropWhile p := by
  obtain ⟨tokens, e⟩ := c
  simp only [Cursor.past]
  fun_induction Cursor.skipWhile p tokens e with
  | case1 t more _ inside ih => rw [ih, List.dropWhile_cons_of_pos inside]
  | case2 t more _ outside => rw [List.dropWhile_cons_of_neg outside]
  | case3 => rfl

/-- A class of tokens that is passed within a larger one, which goes no further. -/
theorem past_eq_past {p q : Token → Bool} (within : ∀ s, p s = true → q s = true) {c : Cursor}
    (ends : (c.past p).peek = some t) (outside : q t = false) : c.past q = c.past p := by
  obtain ⟨tokens, e⟩ := c
  simp only [Cursor.past] at ends ⊢
  fun_induction Cursor.skipWhile p tokens e with
  | case1 s more _ inside ih =>
      rw [Cursor.skipWhile, if_pos (within s inside)]
      exact ih ends
  | case2 s more _ _ =>
      obtain rfl : s = t := Option.some.inj ends
      rw [Cursor.skipWhile, if_neg (by simp [outside])]
  | case3 => cases ends

/-- A line that begins with a word begins something new. -/
theorem nextLineContinues_of_word (inList : Bool) {tokens : List Token}
    (first : (tokens.dropWhile Token.isNewline).head? = some t) (named : t.ident?.isSome = true) :
    nextLineContinues inList tokens = false := by
  induction tokens with
  | nil => cases first
  | cons s more ih =>
      by_cases broken : s.isNewline = true
      · have kind := kind_of_isNewline broken
        rw [List.dropWhile_cons_of_pos broken] at first
        simpa [nextLineContinues, kind] using ih first
      · rw [List.dropWhile_cons_of_neg broken] at first
        obtain rfl : s = t := Option.some.inj first
        obtain ⟨w, kind⟩ := kind_of_isSome named
        simp [nextLineContinues, kind]

/-! ## Objects -/

theorem bind_of_done {α β : Type} {r : Reader α} {a : α} {c mid : Cursor} (read : r c = .done a mid)
    (f : α → Reader β) : (r >>= f) c = f a mid := by
  change Reader.bind r f c = _
  rw [Reader.bind, read]

theorem bind_of_failed {α β : Type} {r : Reader α} {fault : Fault} {c : Cursor} (read : r c = .failed fault)
    (f : α → Reader β) : (r >>= f) c = .failed fault := by
  change Reader.bind r f c = _
  rw [Reader.bind, read]

theorem bind_assoc_apply {α β γ : Type} (r : Reader α) (f : α → Reader β) (g : β → Reader γ) (c : Cursor) :
    (r >>= f >>= g) c = (r >>= fun a => f a >>= g) c := by
  cases read : r c with
  | done a mid =>
      rw [bind_of_done read]
      change Reader.bind (r >>= f) g c = Reader.bind (f a) g mid
      rw [Reader.bind, Reader.bind, bind_of_done read]
  | failed fault => rw [bind_of_failed read, bind_of_failed (bind_of_failed read f)]
  | stuck => rw [bind_eq_stuck.mpr (.inl read), bind_eq_stuck.mpr (.inl (bind_eq_stuck.mpr (.inl read)))]

/-- What the reader of bodies says at a token that is no brace. -/
def refusal (limit : Nat) : Nat → Complaint
  | 0 => .nestedTooDeep limit
  | _ + 1 => .expectedPunct '\x7b'

theorem body_refuses {c : Cursor} {limit levels : Nat} (here : c.peek = some t) (other : t.isPunct '\x7b' = false)
    (name : String) (start : Position) :
    body limit levels name start c = .failed (.found (refusal limit levels) t.range.start) := by
  obtain ⟨tokens, e⟩ := c
  obtain ⟨tail, rfl⟩ : ∃ tail, tokens = t :: tail := by
    cases tokens with
    | nil => cases here
    | cons s tail =>
        obtain rfl : s = t := Option.some.inj here
        exact ⟨tail, rfl⟩
  have failed : punct '\x7b' ⟨t :: tail, e⟩ = .failed (.found (.expectedPunct '\x7b') t.range.start) := by
    simp [punct, accept, other, complain, Cursor.peek]
  cases levels with
  | zero => rfl
  | succ levels => exact bind_of_failed failed _

theorem beforeBody_of_not_on {c : Cursor} (other : c.atWord "on" = false) :
    beforeBody c = .done () (c.past Token.isNewline) := by
  change Reader.bind onTarget _ c = _
  rw [Reader.bind, onTarget, cursor_bind, if_neg (by simp [other])]
  rfl

theorem onTarget_on (on : t.ident? = some "on") (rest : List Token) (e : Position) :
    onTarget ⟨t :: rest, e⟩ = (do let _ ← qualifiedName : Reader Unit) ⟨rest, t.range.stop⟩ := by
  have here : (Cursor.mk (t :: rest) e).atWord "on" = true := by simp [Cursor.atWord, Cursor.word?, Cursor.peek, on]
  rw [onTarget, cursor_bind, if_pos here]
  exact bind_of_done rfl _

/-- An `on` is passed with the name behind it. -/
theorem beforeBody_on (on : t.ident? = some "on") (rest : List Token) (e : Position) :
    beforeBody ⟨t :: rest, e⟩ = (do let _ ← qualifiedName; skipNewlines : Reader Unit) ⟨rest, t.range.stop⟩ := by
  have target := onTarget_on on rest e
  calc beforeBody ⟨t :: rest, e⟩
      = Reader.bind onTarget (fun _ => skipNewlines) ⟨t :: rest, e⟩ := rfl
    _ = Reader.bind (do let _ ← qualifiedName : Reader Unit) (fun _ => skipNewlines) ⟨rest, t.range.stop⟩ := by
        rw [Reader.bind, Reader.bind, target]
    _ = (do let _ ← qualifiedName; skipNewlines : Reader Unit) ⟨rest, t.range.stop⟩ :=
        bind_assoc_apply qualifiedName (fun _ => pure ()) (fun _ => skipNewlines) _

end Reader

namespace Cursor

variable {c : Cursor} {breaks behind : List Token} {opening : Token}

namespace ObjectAhead

theorem not_newline (ahead : c.ObjectAhead last value breaks opening rest) : opening.isNewline = false := by
  rcases ahead.opens with brace | on
  · simp [Token.isNewline, kind_of_isPunct brace]
  · exact isNewline_of_isSome (by rw [on]; rfl)

theorem undotted (ahead : c.ObjectAhead last value breaks opening rest) : Undotted (breaks ++ opening :: rest) := by
  refine undotted_append ahead.broken ?_ rest
  rcases ahead.opens with brace | on
  · simp [Token.isPunct, kind_of_isPunct brace]
  · exact isPunct_of_isSome (by rw [on]; rfl) _

/-- The name is read as it was found. -/
theorem reads (ahead : c.ObjectAhead last value breaks opening rest) :
    ∃ name range, Reader.qualifiedName c = .done (name, range) ⟨breaks ++ opening :: rest, last.range.stop⟩ := by
  obtain ⟨tokens, e⟩ := c
  obtain rfl : tokens = _ := ahead.tokens
  exact Reader.qualifiedName_dotted ahead.name ahead.undotted

end ObjectAhead

/-- What is found behind a dotted name with a capital at its end, and behind line breaks. -/
theorem looksLikeObject_append (tokens : c.tokens = value ++ (breaks ++ opening :: rest)) (name : DottedName last value)
    (capital : last.ident?.any startsUppercase = true) (broken : ∀ t ∈ breaks, t.isNewline = true)
    (stops : opening.isNewline = false) (undotted : Undotted (breaks ++ opening :: rest)) :
    c.looksLikeObject = (opening.isPunct '\x7b' || opening.ident? == some "on") := by
  obtain ⟨segment, ends⟩ := Option.isSome_iff_exists.mp name.last_isSome
  have capitals : startsUppercase segment = true := by simpa [ends] using capital
  rw [looksLikeObject, tokens, name.afterDotted ends undotted]
  simp only [capitals, dropWhile_append_stop broken stops, List.head?_cons, Option.any_some, Bool.true_and]

theorem looksLikeObject_iff :
    c.looksLikeObject = true ↔ ∃ last value breaks opening rest, c.ObjectAhead last value breaks opening rest := by
  constructor
  · intro looks
    rw [looksLikeObject] at looks
    split at looks
    · cases looks
    · rename_i segment behind found
      obtain ⟨capital, opens⟩ := (Bool.and_eq_true _ _).mp looks
      obtain ⟨last, value, name, ends, tokens, _⟩ := exists_dottedName found
      cases seen : behind.dropWhile Token.isNewline with
      | nil => simp [seen] at opens
      | cons opening rest =>
          refine ⟨last, value, behind.takeWhile Token.isNewline, opening, rest, ?_, name, ?_, ?_, ?_⟩
          · rw [tokens, ← seen, List.takeWhile_append_dropWhile]
          · rw [ends]
            exact capital
          · exact fun t member => List.mem_takeWhile_imp member
          · simpa [seen] using opens
  · rintro ⟨last, value, breaks, opening, rest, ahead⟩
    rw [looksLikeObject_append ahead.tokens ahead.name ahead.capital ahead.broken ahead.not_newline ahead.undotted]
    simpa using ahead.opens

namespace ObjectAhead

/-- Without an `on` right behind the name, the body is read where the brace or the `on` was found. -/
theorem head_of_not_on (ahead : c.ObjectAhead last value breaks opening rest)
    (other : (Cursor.mk (breaks ++ opening :: rest) last.range.stop).atWord "on" = false) {name : String}
    {range : TextRange}
    (named : Reader.qualifiedName c = .done (name, range) ⟨breaks ++ opening :: rest, last.range.stop⟩) :
    ∃ e, Reader.objectHead c = .done (name, range.start) ⟨opening :: rest, e⟩ := by
  obtain ⟨e, met⟩ := Reader.past_append ahead.broken ahead.not_newline rest last.range.stop
  refine ⟨e, ?_⟩
  rw [Reader.objectHead, Reader.bind_of_done named]
  exact Reader.bind_of_done ((Reader.beforeBody_of_not_on other).trans (congrArg _ met)) _

theorem not_on_of_breaks (ahead : c.ObjectAhead last value breaks opening rest) (broken : breaks ≠ []) :
    (Cursor.mk (breaks ++ opening :: rest) last.range.stop).atWord "on" = false := by
  obtain ⟨t, _, rfl⟩ := List.exists_cons_of_ne_nil broken
  simp [atWord, word?, peek, Token.ident?, kind_of_isNewline (ahead.broken t List.mem_cons_self)]

/-- A brace is met with line breaks in front of it or without. -/
theorem head_of_brace (ahead : c.ObjectAhead last value breaks opening rest) (brace : opening.isPunct '\x7b' = true)
    {name : String} {range : TextRange}
    (named : Reader.qualifiedName c = .done (name, range) ⟨breaks ++ opening :: rest, last.range.stop⟩) :
    ∃ e, Reader.objectHead c = .done (name, range.start) ⟨opening :: rest, e⟩ := by
  refine ahead.head_of_not_on ?_ named
  by_cases broken : breaks = []
  · simp [broken, atWord, word?, peek, Token.ident?, kind_of_isPunct brace]
  · exact ahead.not_on_of_breaks broken

/-- An `on` behind line breaks is met where the body should begin. -/
theorem object_refused (ahead : c.ObjectAhead last value breaks opening rest) (on : opening.ident? = some "on")
    (broken : breaks ≠ []) (limit levels : Nat) :
    Reader.object (Reader.body limit levels) c =
      .failed (.found (Reader.refusal limit levels) opening.range.start) := by
  obtain ⟨name, range, named⟩ := ahead.reads
  obtain ⟨e, head⟩ := ahead.head_of_not_on (ahead.not_on_of_breaks broken) named
  rw [Reader.object, Reader.bind_of_done head]
  exact Reader.body_refuses rfl (isPunct_of_isSome (by rw [on]; rfl) _) name range.start

/-- An `on` right behind the name is taken for a part of the object, and so is the name behind it. -/
theorem head_of_on (on : opening.ident? = some "on") {name : String} {range : TextRange} {e : Position}
    (named : Reader.qualifiedName c = .done (name, range) ⟨opening :: rest, e⟩) :
    Reader.objectHead c = (do let _ ← Reader.qualifiedName; Reader.skipNewlines; return (name, range.start))
      ⟨rest, opening.range.stop⟩ := by
  rw [Reader.objectHead, Reader.bind_of_done named]
  calc Reader.bind Reader.beforeBody (fun _ => pure (name, range.start)) ⟨opening :: rest, e⟩
      = Reader.bind (do let _ ← Reader.qualifiedName; Reader.skipNewlines) (fun _ => pure (name, range.start))
          ⟨rest, opening.range.stop⟩ := by rw [Reader.bind, Reader.bind, Reader.beforeBody_on on rest]
    _ = _ := Reader.bind_assoc_apply Reader.qualifiedName _ _ _

end ObjectAhead

/-! ## Bindings to names -/

/-- A binding to a dotted name with a capital at its end, and the tokens behind it, of which the first is a line
    break. -/
structure NameBinding (c : Cursor) (name : String) (start : Position) (last : Token) (behind : List Token) : Prop where
  declares : Reader.declaration? c = some (.named, start)
  reads : ∃ range colon breaks value stop,
    Reader.qualifiedName c = .done (name, range) ⟨colon :: (breaks ++ (value ++ behind)), stop⟩ ∧
      colon.isPunct ':' = true ∧ (∀ t ∈ breaks, t.isNewline = true) ∧ DottedName last value
  capital : last.ident?.any startsUppercase = true
  ended : behind.head?.any Token.isNewline = true

end Cursor

namespace Reader

/-- A member starts with a word. -/
theorem word_of_declaration {c : Cursor} (declares : (declaration? c).isSome = true) :
    ∃ t tail, c.tokens = t :: tail ∧ t.ident?.isSome = true := by
  obtain ⟨_ | ⟨t, tail⟩, e⟩ := c
  · cases declares
  · refine ⟨t, tail, rfl, ?_⟩
    cases named : t.ident? with
    | some w => rfl
    | none =>
        have nothing : (Cursor.mk (t :: tail) e).word? = none := named
        simp [declaration?, nothing] at declares

theorem word_of_member {body : BodyReader} {c f : Cursor} {m : Member} (read : member body c = .done m f) :
    ∃ t tail, c.tokens = t :: tail ∧ t.ident?.isSome = true := by
  rw [member, cursor_bind] at read
  cases declares : declaration? c with
  | some _ => exact word_of_declaration (by rw [declares]; rfl)
  | none =>
      rw [declares] at read
      exact absurd read complain_ne_done

variable {lines later breaks : List Token} {s : Token}

/-- A name with the end of the line behind it is passed as an expression. -/
theorem skipExpression_dotted (name : DottedName last value) (broken : ∀ t ∈ lines, t.isNewline = true)
    (ended : lines ≠ []) (named : s.ident?.isSome = true) :
    skipExpression false ⟨value ++ (lines ++ s :: later), e⟩ = .done () ⟨lines ++ s :: later, last.range.stop⟩ := by
  obtain ⟨t, more, rfl⟩ := List.exists_cons_of_ne_nil ended
  have line := kind_of_isNewline (broken t List.mem_cons_self)
  obtain ⟨w, word⟩ := kind_of_isSome name.last_isSome
  have front : ((more ++ s :: later).dropWhile Token.isNewline).head? = some s := by
    rw [dropWhile_append_stop (fun t member => broken t (List.mem_cons_of_mem _ member)) (isNewline_of_isSome named),
      List.head?_cons]
  have ends := nextLineContinues_of_word false front named
  rw [skipExpression, skipExpressionFrom_dotted name]
  simp [skipExpressionFrom, endsExpression, line, word, isOperator, ends]

/-- What is found ahead of such a name is the word on the next line. -/
theorem looksLikeObject_iff_on {c : Cursor} (tokens : c.tokens = value ++ (lines ++ s :: later))
    (name : DottedName last value) (capital : last.ident?.any startsUppercase = true)
    (broken : ∀ t ∈ lines, t.isNewline = true) (named : s.ident?.isSome = true) :
    c.looksLikeObject = true ↔ s.ident? = some "on" := by
  have undotted := undotted_append broken (isPunct_of_isSome named '.') later
  rw [Cursor.looksLikeObject_append tokens name capital broken (isNewline_of_isSome named) undotted,
    isPunct_of_isSome named]
  simp

/-- The value of a binding, if a line ends behind it and the next one begins with a word. -/
theorem value_dotted (name : DottedName last value) (capital : last.ident?.any startsUppercase = true)
    (spaced : ∀ t ∈ breaks, t.isNewline = true) (broken : ∀ t ∈ lines, t.isNewline = true) (ended : lines ≠ [])
    (named : s.ident?.isSome = true) (limit levels : Nat) (later : List Token) (e : Position) :
    Reader.value (body limit levels) ⟨breaks ++ (value ++ (lines ++ s :: later)), e⟩ =
      if s.ident? = some "on" then .failed (.found (refusal limit levels) s.range.start)
      else .done [] ⟨lines ++ s :: later, last.range.stop⟩ := by
  obtain ⟨t, more, rfl, starts⟩ := name.starts
  obtain ⟨e', past⟩ := past_append spaced (isNewline_of_isSome starts) (more ++ (lines ++ s :: later)) e
  have other (p : Char) : (Cursor.mk (t :: (more ++ (lines ++ s :: later))) e').atPunct p = false :=
    isPunct_of_isSome starts p
  have looks := looksLikeObject_iff_on (c := ⟨t :: (more ++ (lines ++ s :: later)), e'⟩) rfl name capital broken named
  rw [Reader.value, skipNewlines_bind, List.cons_append, past, cursor_bind, if_neg (by simp [other]),
    if_neg (by simp [other])]
  by_cases on : s.ident? = some "on"
  · rw [if_pos (looks.mpr on), if_pos on]
    have ahead : (Cursor.mk (t :: (more ++ (lines ++ s :: later))) e').ObjectAhead last (t :: more) lines s later :=
      ⟨rfl, name, capital, broken, .inr on⟩
    exact bind_of_failed (ahead.object_refused on ended limit levels) _
  · rw [if_neg (mt looks.mp on), if_neg on]
    exact bind_of_done (skipExpression_dotted name broken ended named) _

variable {d f : Cursor} {name : String} {start : Position} {read : List Member} {m : Member}

theorem member_of_nameBinding (binds : d.NameBinding name start last (lines ++ s :: later))
    (broken : ∀ t ∈ lines, t.isNewline = true) (ended : lines ≠ []) (named : s.ident?.isSome = true)
    (limit levels : Nat) :
    member (body limit levels) d =
      if s.ident? = some "on" then .failed (.found (refusal limit levels) s.range.start)
      else .done (.binding name ⟨start, last.range.stop⟩ []) ⟨lines ++ s :: later, last.range.stop⟩ := by
  obtain ⟨range, colon, breaks, value, stop, reads, isColon, spaced, dotted⟩ := binds.reads
  have kind := kind_of_isPunct isColon
  have unopened (tokens : List Token) : opensObject name ⟨colon :: tokens, stop⟩ = false := by
    simp [opensObject, Cursor.atPunct, Cursor.atWord, Cursor.word?, Cursor.nextSignificantIs, Cursor.peek,
      Token.isNewline, Token.isPunct, Token.ident?, kind]
  have at_colon (tokens : List Token) : (Cursor.mk (colon :: tokens) stop).atPunct ':' = true := isColon
  have taken := value_dotted dotted binds.capital spaced broken ended named limit levels later colon.range.stop
  rw [member, cursor_bind, binds.declares]
  change Reader.named (body limit levels) start d = _
  rw [Reader.named, bind_of_done reads]
  simp only [cursor_bind]
  rw [if_neg (by simp [unopened]), if_pos (at_colon _)]
  rw [bind_of_done (rfl : next ⟨colon :: _, stop⟩ = .done (some colon) ⟨_, colon.range.stop⟩)]
  by_cases on : s.ident? = some "on"
  · rw [if_pos on] at taken ⊢
    exact bind_of_failed taken _
  · rw [if_neg on] at taken ⊢
    exact bind_of_done taken _

theorem membersTurn_of_member {body : BodyReader} (here : (d.past endsStatement).peek = some t)
    (unclosed : t.isPunct '\x7d' = false) (owner : String) (opened : Position) (read : List Member) :
    membersTurn body owner opened read d =
      (do return .again (read ++ [← member body]) : Reader (Turn (List Member) ObjectNode)) (d.past endsStatement) := by
  rw [membersTurn_apply, here]
  simp [unclosed]

/-- The bindings to a name and the members behind them, as the loop over the members of an object reads them. -/
theorem members_of_nameBinding (limit levels : Nat) (owner : String) (opened : Position) {c : Cursor}
    {behind : List Token} (binds : (c.past endsStatement).NameBinding name start last behind)
    (follows : member (body limit levels) ((Cursor.mk behind last.range.stop).past Token.isNewline) = .done m f) :
    ∃ s, ((Cursor.mk behind last.range.stop).past Token.isNewline).peek = some s ∧
      ∀ read, iterate (membersTurn (body limit levels) owner opened) read c =
        if s.ident? = some "on" then .failed (.found (refusal limit levels) s.range.start)
        else iterate (membersTurn (body limit levels) owner opened)
          (read ++ [.binding name ⟨start, last.range.stop⟩ [], m]) f := by
  obtain ⟨s, later, tokens, named⟩ := word_of_member follows
  have front : ((Cursor.mk behind last.range.stop).past Token.isNewline).peek = some s := by rw [Cursor.peek, tokens]; rfl
  refine ⟨s, front, fun read => ?_⟩
  rw [past_tokens] at tokens
  -- The line breaks behind the name, of which there is one at least.
  have split : behind = behind.takeWhile Token.isNewline ++ s :: later := by
    rw [← tokens, List.takeWhile_append_dropWhile]
  have broken : ∀ t ∈ behind.takeWhile Token.isNewline, t.isNewline = true := fun _ => List.mem_takeWhile_imp
  have ended : behind.takeWhile Token.isNewline ≠ [] := by
    intro none
    have first := binds.ended
    rw [split, none] at first
    simp [isNewline_of_isSome named] at first
  have first := member_of_nameBinding (split ▸ binds) broken ended named limit levels
  rw [← split] at first
  have sweeps := (membersTurn_advances (body_keeps limit levels) owner opened).iterate_sweeps
  obtain ⟨t, tail, here, word⟩ := word_of_declaration (c := c.past endsStatement) (by rw [binds.declares]; rfl)
  have here : (c.past endsStatement).peek = some t := by rw [Cursor.peek, here]; rfl
  rw [sweeps.loop, membersTurn_of_member here (isPunct_of_isSome word _)]
  by_cases on : s.ident? = some "on"
  · rw [if_pos on] at first ⊢
    rw [bind_of_failed first, resume]
  · rw [if_neg on] at first ⊢
    rw [bind_of_done first]
    have same := past_eq_past (q := endsStatement) (fun t broken => by simp [endsStatement, broken]) front
      (by simp [endsStatement, isNewline_of_isSome named, isPunct_of_isSome named])
    change resume _ (.done (.again (read ++ [_])) ⟨behind, last.range.stop⟩) = _
    rw [resume, sweeps.loop, membersTurn_of_member (same ▸ front) (isPunct_of_isSome named _), same,
      bind_of_done follows]
    simp [resume]

/-! ## What looking ahead promises -/

/-- Where an object is found ahead, its name is read as it was found; so is a brace behind it, with the line breaks in
    front of it, and an `on` right behind the name. An `on` behind line breaks is refused where the body should begin.
    In the body of an object, a binding to a dotted name with a capital at its end is therefore read as a binding without
    objects, with the member on the next line behind it, unless that member begins with `on`: then the object is
    refused. -/
theorem lookahead_exact (limit levels : Nat) :
    (∀ c : Cursor, c.looksLikeObject = true → ∃ last value breaks opening rest name range,
      c.ObjectAhead last value breaks opening rest ∧
        qualifiedName c = .done (name, range) ⟨breaks ++ opening :: rest, last.range.stop⟩ ∧
        (opening.isPunct '\x7b' = true → ∃ e, objectHead c = .done (name, range.start) ⟨opening :: rest, e⟩) ∧
        (opening.ident? = some "on" → breaks = [] →
          objectHead c = (do let _ ← qualifiedName; skipNewlines; return (name, range.start))
            ⟨rest, opening.range.stop⟩) ∧
        (opening.ident? = some "on" → breaks ≠ [] →
          object (body limit levels) c = .failed (.found (refusal limit levels) opening.range.start))) ∧
      ∀ (owner : String) (opened : Position) (c : Cursor) (name : String) (start : Position) (last : Token)
        (behind : List Token) (m : Member) (f : Cursor), (c.past endsStatement).NameBinding name start last behind →
        member (body limit levels) ((Cursor.mk behind last.range.stop).past Token.isNewline) = .done m f →
        ∃ s, ((Cursor.mk behind last.range.stop).past Token.isNewline).peek = some s ∧
          ∀ read, iterate (membersTurn (body limit levels) owner opened) read c =
            if s.ident? = some "on" then .failed (.found (refusal limit levels) s.range.start)
            else iterate (membersTurn (body limit levels) owner opened)
              (read ++ [.binding name ⟨start, last.range.stop⟩ [], m]) f := by
  refine ⟨fun c looks => ?_, fun owner opened c name start last behind m f binds follows =>
    members_of_nameBinding limit levels owner opened binds follows⟩
  obtain ⟨last, value, breaks, opening, rest, ahead⟩ := Cursor.looksLikeObject_iff.mp looks
  obtain ⟨name, range, named⟩ := ahead.reads
  refine ⟨last, value, breaks, opening, rest, name, range, ahead, named, fun brace => ahead.head_of_brace brace named,
    ?_, fun on broken => ahead.object_refused on broken limit levels⟩
  rintro on rfl
  exact Cursor.ObjectAhead.head_of_on on named

/-- `x: Foo`, a binding of `word` on the next line, and the end of the object. -/
def twoBindings (word : String) : List Token :=
  [⟨.ident "x", ⟨0, 0⟩, ⟨0, 1⟩⟩, ⟨.punct ':', ⟨0, 1⟩, ⟨0, 2⟩⟩, ⟨.ident "Foo", ⟨0, 3⟩, ⟨0, 6⟩⟩,
    ⟨.newline, ⟨0, 6⟩, ⟨1, 0⟩⟩, ⟨.ident word, ⟨1, 0⟩, ⟨1, 2⟩⟩, ⟨.punct ':', ⟨1, 2⟩, ⟨1, 3⟩⟩,
    ⟨.number "3", ⟨1, 4⟩, ⟨1, 5⟩⟩, ⟨.newline, ⟨1, 5⟩, ⟨2, 0⟩⟩, ⟨.punct '\x7d', ⟨2, 0⟩, ⟨2, 1⟩⟩]

theorem twoBindings_binds (word : String) :
    ((Cursor.mk (twoBindings word) ⟨0, 0⟩).past endsStatement).NameBinding "x" ⟨0, 0⟩ ⟨.ident "Foo", ⟨0, 3⟩, ⟨0, 6⟩⟩
      ((twoBindings word).drop 3) where
  declares := rfl
  reads := ⟨⟨⟨0, 0⟩, ⟨0, 1⟩⟩, _, [], _, ⟨0, 1⟩, rfl, rfl, nofun, .word rfl⟩
  capital := by decide
  ended := rfl

/-- A name with an `on` on the next line, and a name that ends a line in front of another binding. -/
theorem lookahead_exact_lines :
    (∃ name range rest, qualifiedName ⟨(twoBindings "on").drop 2, ⟨0, 2⟩⟩ = .done (name, range) rest) ∧
      iterate (membersTurn (body 128 1) "Item" ⟨0, 0⟩) [] ⟨twoBindings "at", ⟨0, 0⟩⟩ =
        iterate (membersTurn (body 128 1) "Item" ⟨0, 0⟩)
          [.binding "x" ⟨⟨0, 0⟩, ⟨0, 6⟩⟩ [], .binding "at" ⟨⟨1, 0⟩, ⟨1, 5⟩⟩ []]
          ⟨(twoBindings "at").drop 7, ⟨1, 5⟩⟩ := by
  obtain ⟨ahead, members⟩ := lookahead_exact 128 1
  refine ⟨?_, ?_⟩
  · obtain ⟨_, _, _, _, _, name, range, _, named, _⟩ := ahead ⟨(twoBindings "on").drop 2, ⟨0, 2⟩⟩ (by decide)
    exact ⟨name, range, _, named⟩
  · have follows : member (body 128 1) ((Cursor.mk ((twoBindings "at").drop 3) ⟨0, 6⟩).past Token.isNewline) =
        .done (.binding "at" ⟨⟨1, 0⟩, ⟨1, 5⟩⟩ []) ⟨(twoBindings "at").drop 7, ⟨1, 5⟩⟩ := rfl
    obtain ⟨s, front, loop⟩ := members "Item" ⟨0, 0⟩ _ _ _ _ _ _ _ (twoBindings_binds "at") follows
    obtain rfl : (⟨.ident "at", ⟨1, 0⟩, ⟨1, 2⟩⟩ : Token) = s := Option.some.inj front
    exact loop []

/-- A binding named `on` is not read behind a name with a capital. -/
theorem on_not_read_behind_name :
    ¬∀ (limit levels : Nat) (owner : String) (opened : Position) (c : Cursor) (name : String) (start : Position)
      (last : Token) (behind : List Token) (m : Member) (f : Cursor) (read : List Member),
      (c.past endsStatement).NameBinding name start last behind →
      member (body limit levels) ((Cursor.mk behind last.range.stop).past Token.isNewline) = .done m f →
      iterate (membersTurn (body limit levels) owner opened) read c =
        iterate (membersTurn (body limit levels) owner opened)
          (read ++ [.binding name ⟨start, last.range.stop⟩ [], m]) f := by
  intro claimed
  have follows : member (body 128 1) ((Cursor.mk ((twoBindings "on").drop 3) ⟨0, 6⟩).past Token.isNewline) =
      .done (.binding "on" ⟨⟨1, 0⟩, ⟨1, 5⟩⟩ []) ⟨(twoBindings "on").drop 7, ⟨1, 5⟩⟩ := rfl
  have binds := twoBindings_binds "on"
  obtain ⟨s, front, loop⟩ := members_of_nameBinding 128 1 "Item" ⟨0, 0⟩ binds follows
  obtain rfl : (⟨.ident "on", ⟨1, 0⟩, ⟨1, 2⟩⟩ : Token) = s := Option.some.inj front
  -- The loop that has read both bindings ends at the brace.
  have ends := (membersTurn_advances (body_keeps 128 1) "Item" ⟨0, 0⟩).iterate_sweeps.loop
    [.binding "x" ⟨⟨0, 0⟩, ⟨0, 6⟩⟩ [], .binding "on" ⟨⟨1, 0⟩, ⟨1, 5⟩⟩ []] ⟨(twoBindings "on").drop 7, ⟨1, 5⟩⟩
  have failed := (loop []).symm.trans (claimed 128 1 "Item" ⟨0, 0⟩ _ _ _ _ _ _ _ [] binds follows)
  cases failed.trans ends

end Reader

end QmlIndex.Document
