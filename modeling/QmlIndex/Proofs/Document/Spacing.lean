import QmlIndex.Proofs.Document.Bare
import QmlIndex.Proofs.Document.Declarations

/-! # Readers on two spacings of the same tokens

One list of tokens *spreads* another if it has the same kinds of tokens, at whatever places, with some line breaks
written several times. Two readers *agree* if on such lists they end alike: with values of which the same is seen, at
tokens of which one list again spreads the other, or with one fault at two places, or never. No reader stops inside a
run of line breaks, which is what makes agreement go through sequences and repetitions.
-/

namespace QmlIndex

namespace Token

variable {t s : Token}

/-- The token of a kind at no place in particular. -/
def blank (kind : TokenKind) : Token := ⟨kind, .blank⟩

theorem isPunct_congr (same : t.kind = s.kind) (p : Char) : t.isPunct p = s.isPunct p := by rw [isPunct, same, isPunct]

theorem isNewline_congr (same : t.kind = s.kind) : t.isNewline = s.isNewline := by rw [isNewline, same, isNewline]

theorem ident?_congr (same : t.kind = s.kind) : t.ident? = s.ident? := by rw [ident?, same, ident?]

end Token

namespace Document

/-- The tokens are the others, at other places and with line breaks repeated. -/
inductive Spreads : List Token → List Token → Prop where
  | nil : Spreads [] []
  | cons {t s : Token} {ts ss : List Token} : t.kind = s.kind → Spreads ts ss → Spreads (t :: ts) (s :: ss)
  /-- One more line break in a run of them. -/
  | again {t s : Token} {ts ss : List Token} :
      t.kind = .newline → s.kind = .newline → Spreads (s :: ts) ss → Spreads (t :: s :: ts) ss

namespace Spreads

variable {t s : Token} {ts ss : List Token} {c d : Cursor}

/-- Erasing all places. -/
theorem blank (ts : List Token) : Spreads ts (ts.map fun t => Token.blank t.kind) := by
  induction ts with
  | nil => exact .nil
  | cons t ts ih => exact .cons rfl ih

theorem head_kind (h : Spreads (t :: ts) (s :: ss)) : t.kind = s.kind := by
  generalize left : t :: ts = tokens at h
  generalize right : s :: ss = others at h
  induction h generalizing t ts with
  | nil => cases left
  | cons same _ =>
      cases left
      cases right
      exact same
  | again first second _ ih =>
      cases left
      exact first.trans (second.symm.trans (ih rfl right))

theorem nil_iff (h : Spreads ts ss) : ts = [] ↔ ss = [] := by
  induction h with
  | nil | cons => simp
  | again _ _ _ ih => simpa using ih

/-- The two lists begin alike. -/
theorem peek (h : Spreads c.tokens d.tokens) :
    (c.peek = none ∧ d.peek = none) ∨ ∃ t s, c.peek = some t ∧ d.peek = some s ∧ t.kind = s.kind := by
  obtain ⟨ts, _⟩ := c
  obtain ⟨ss, _⟩ := d
  cases ts with
  | nil => exact .inl ⟨rfl, by simpa [Cursor.peek] using h.nil_iff⟩
  | cons t ts =>
      cases ss with
      | nil => simpa using h.nil_iff
      | cons s ss => exact .inr ⟨t, s, rfl, rfl, h.head_kind⟩

/-- A token that is no line break stands for itself alone. -/
theorem tail (h : Spreads (t :: ts) (s :: ss)) (solid : t.kind ≠ .newline) : Spreads ts ss := by
  cases h with
  | cons _ rest => exact rest
  | again first => exact absurd first solid

theorem exists_tail (h : Spreads (t :: ts) ss) (solid : t.kind ≠ .newline) :
    ∃ s rest, ss = s :: rest ∧ t.kind = s.kind ∧ Spreads ts rest := by
  cases h with
  | cons same rest => exact ⟨_, _, rfl, same, rest⟩
  | again first => exact absurd first solid

/-! ## Looking ahead -/

theorem atPunct (h : Spreads c.tokens d.tokens) (p : Char) : c.atPunct p = d.atPunct p := by
  rcases h.peek with ⟨left, right⟩ | ⟨t, s, left, right, same⟩
  · rw [Cursor.atPunct, left, Cursor.atPunct, right]
  · simp only [Cursor.atPunct, left, right, Option.any_some, Token.isPunct_congr same]

theorem word? (h : Spreads c.tokens d.tokens) : c.word? = d.word? := by
  rcases h.peek with ⟨left, right⟩ | ⟨t, s, left, right, same⟩
  · rw [Cursor.word?, left, Cursor.word?, right]
  · simp only [Cursor.word?, left, right, Option.bind_some, Token.ident?_congr same]

theorem atWord (h : Spreads c.tokens d.tokens) (w : String) : c.atWord w = d.atWord w := by
  rw [Cursor.atWord, h.word?, Cursor.atWord]

/-- Passing a class of tokens: the line breaks of a run are all in it or all out of it. -/
theorem dropWhile {p : Token → Bool} (byKind : ∀ {t s : Token}, t.kind = s.kind → p t = p s) (h : Spreads ts ss) :
    Spreads (ts.dropWhile p) (ss.dropWhile p) := by
  induction h with
  | nil => exact .nil
  | @cons t s ts ss same rest ih =>
      rw [List.dropWhile_cons, List.dropWhile_cons, byKind same]
      split
      · exact ih
      · exact .cons same rest
  | @again t s ts ss first second rest ih =>
      have same : p t = p s := byKind (first.trans second.symm)
      rw [List.dropWhile_cons] at ih ⊢
      rw [same]
      split at ih
      · rename_i inside
        rw [if_pos inside, List.dropWhile_cons, if_pos inside]
        exact ih
      · rename_i outside
        rw [if_neg outside]
        exact .again first second ih

theorem nextLineContinues (h : Spreads ts ss) (inList : Bool) :
    Document.nextLineContinues inList ts = Document.nextLineContinues inList ss := by
  induction h with
  | nil => rfl
  | cons same _ ih =>
      rw [Document.nextLineContinues, Document.nextLineContinues, same]
      split <;> simp_all
  | again first _ _ ih =>
      rw [Document.nextLineContinues, first]
      exact ih

theorem afterDotted (h : Spreads ts ss) :
    (Cursor.afterDotted ts = none ∧ Cursor.afterDotted ss = none) ∨ ∃ segment rest others,
      Cursor.afterDotted ts = some (segment, rest) ∧ Cursor.afterDotted ss = some (segment, others) ∧
        Spreads rest others := by
  fun_induction Cursor.afterDotted ts generalizing ss with
  | case1 =>
      obtain rfl := h.nil_iff.mp rfl
      exact .inl ⟨rfl, rfl⟩
  | case2 t rest nameless =>
      cases ss with
      | nil => simpa using h.nil_iff
      | cons s others =>
          rw [Token.ident?_congr h.head_kind] at nameless
          exact .inl ⟨rfl, by rw [Cursor.afterDotted, nameless]⟩
  | case3 t segment named dot more dotted ih =>
      have solid : t.kind ≠ .newline := by
        intro newline
        simp [Token.ident?, newline] at named
      obtain ⟨s, others, rfl, same, tail⟩ := h.exists_tail solid
      have firm : dot.kind ≠ .newline := by
        intro newline
        simp [Token.isPunct, newline] at dotted
      obtain ⟨point, further, rfl, mark, rest⟩ := tail.exists_tail firm
      rw [Token.ident?_congr same] at named
      rw [Token.isPunct_congr mark] at dotted
      have looks : Cursor.afterDotted (s :: point :: further) = Cursor.afterDotted further := by
        rw [Cursor.afterDotted, named]
        simp [dotted]
      rw [looks]
      exact ih rest
  | case4 t segment named dot more undotted =>
      have solid : t.kind ≠ .newline := by
        intro newline
        simp [Token.ident?, newline] at named
      obtain ⟨s, others, rfl, same, tail⟩ := h.exists_tail solid
      rw [Token.ident?_congr same] at named
      refine .inr ⟨segment, _, others, rfl, ?_, tail⟩
      cases others with
      | nil => simpa using tail.nil_iff
      | cons point further =>
          rw [Token.isPunct_congr tail.head_kind] at undotted
          rw [Cursor.afterDotted, named]
          simp [undotted]
  | case5 t segment named =>
      have solid : t.kind ≠ .newline := by
        intro newline
        simp [Token.ident?, newline] at named
      obtain ⟨s, others, rfl, same, tail⟩ := h.exists_tail solid
      rw [Token.ident?_congr same] at named
      obtain rfl := tail.nil_iff.mp rfl
      exact .inr ⟨segment, [], [], rfl, by rw [Cursor.afterDotted, named], .nil⟩

/-- What a look past line breaks finds. -/
theorem significant (h : Spreads ts ss) {p : Token → Bool} (byKind : ∀ {t s : Token}, t.kind = s.kind → p t = p s) :
    ((ts.dropWhile Token.isNewline).head?).any p = ((ss.dropWhile Token.isNewline).head?).any p := by
  have rest := h.dropWhile Token.isNewline_congr
  rcases peek (c := ⟨ts.dropWhile Token.isNewline, .origin⟩) (d := ⟨ss.dropWhile Token.isNewline, .origin⟩) rest with
    ⟨left, right⟩ | ⟨t, s, left, right, same⟩
  · simp only [Cursor.peek] at left right
    rw [left, right]
  · simp only [Cursor.peek] at left right
    rw [left, right, Option.any_some, Option.any_some, byKind same]

theorem looksLikeObject (h : Spreads c.tokens d.tokens) : c.looksLikeObject = d.looksLikeObject := by
  rw [Cursor.looksLikeObject, Cursor.looksLikeObject]
  rcases h.afterDotted with ⟨left, right⟩ | ⟨segment, rest, others, left, right, spread⟩
  · rw [left, right]
  · simp only [left, right]
    congr 1
    apply spread.significant
    intro t s same
    rw [Token.isPunct_congr same, Token.ident?_congr same]

theorem nextSignificantIs (h : Spreads c.tokens d.tokens) (p : Char) : c.nextSignificantIs p = d.nextSignificantIs p :=
  h.significant fun same => Token.isPunct_congr same p

theorem opensObject (h : Spreads c.tokens d.tokens) (name : String) :
    Reader.opensObject name c = Reader.opensObject name d := by
  simp only [Reader.opensObject, h.atPunct, h.atWord, h.nextSignificantIs]

/-- The words of a header statement. -/
theorem statementWords (h : Spreads ts ss) :
    (ts.takeWhile (!Reader.endsStatement ·)).filterMap Token.ident? =
      (ss.takeWhile (!Reader.endsStatement ·)).filterMap Token.ident? := by
  induction h with
  | nil => rfl
  | cons same _ ih =>
      simp only [List.takeWhile_cons, Reader.endsStatement, Token.isNewline_congr same, Token.isPunct_congr same] at ih ⊢
      split
      · simp only [List.filterMap_cons, Token.ident?_congr same, ih]
      · rfl
  | again first second _ ih =>
      simp only [List.takeWhile_cons, Reader.endsStatement, Token.isNewline, first, second] at ih ⊢
      exact ih

end Spreads

/-! ## Ends of readers -/

/-- Two ends of readers, with values of which the same is seen. -/
inductive Outcome.Matches {α γ : Type} (view : α → γ) : Outcome α → Outcome α → Prop where
  | done {a b : α} {c d : Cursor} : view a = view b → Spreads c.tokens d.tokens → Matches view (.done a c) (.done b d)
  | failed {f g : Fault} : f.bare = g.bare → Matches view (.failed f) (.failed g)
  | stuck : Matches view .stuck .stuck

/-- What is seen of a turn. -/
def Turn.map {σ τ α γ : Type} (f : σ → τ) (g : α → γ) : Turn σ α → Turn τ γ
  | .again state => .again (f state)
  | .stop value => .stop (g value)

namespace Reader

open Outcome

variable {α β γ δ σ τ : Type} {c d : Cursor}

/-- The two readers end alike on every two spacings of the same tokens. -/
def Agrees (view : α → γ) (r r' : Reader α) : Prop :=
  ∀ ⦃c d : Cursor⦄, Spreads c.tokens d.tokens → Matches view (r c) (r' d)

theorem matches_bind {view : α → γ} {view' : β → δ} {r r' : Reader α} {f f' : α → Reader β}
    (first : Matches view (r c) (r' d)) (rest : ∀ a b, view a = view b → Agrees view' (f a) (f' b)) :
    Matches view' ((r >>= f) c) ((r' >>= f') d) := by
  change Matches view' (Reader.bind r f c) (Reader.bind r' f' d)
  rw [Reader.bind, Reader.bind]
  generalize r c = left, r' d = right at first
  cases first with
  | done same spread => exact rest _ _ same spread
  | failed same => exact .failed same
  | stuck => exact .stuck

namespace Agrees

variable {view : α → γ} {view' : β → δ} {r r' : Reader α}

theorem bind {f f' : α → Reader β} (first : Agrees view r r')
    (rest : ∀ a b, view a = view b → Agrees view' (f a) (f' b)) : Agrees view' (r >>= f) (r' >>= f') :=
  fun _ _ spread => matches_bind (first spread) rest

theorem on (h : Agrees view r r') (spread : Spreads c.tokens d.tokens) : Matches view (r c) (r' d) := h spread

end Agrees

theorem pure_agrees {view : α → γ} {a b : α} (same : view a = view b) : Agrees view (pure a) (pure b) :=
  fun _ _ spread => .done same spread

/-- The place where the last token ends is never seen. -/
theorem lastEnd_agrees : Agrees (fun _ => ()) lastEnd lastEnd := fun _ _ spread => .done rfl spread

/-- A value that is given the place where the last token ends. -/
theorem ended_agrees {view : α → γ} {f f' : Position → α} (same : ∀ e e', view (f e) = view (f' e')) :
    Agrees view (do return f (← lastEnd)) (do return f' (← lastEnd)) :=
  lastEnd_agrees.bind fun e e' _ => pure_agrees (same e e')

theorem complain_agrees (view : α → γ) (complaint : Complaint) : Agrees view (complain complaint) (complain complaint) := by
  intro c d spread
  rcases spread.peek with ⟨left, right⟩ | ⟨t, s, left, right, _⟩
  · rw [complain, left, complain, right]
    exact .failed rfl
  · rw [complain, left, complain, right]
    exact .failed rfl

/-- Whatever token it is that is taken, it is no line break. -/
theorem next_matches (spread : Spreads c.tokens d.tokens) (solid : ∀ t, c.peek = some t → t.kind ≠ .newline) :
    Matches (fun _ => ()) (next c) (next d) := by
  obtain ⟨ts, _⟩ := c
  obtain ⟨ss, _⟩ := d
  cases ts with
  | nil =>
      obtain rfl : ss = [] := spread.nil_iff.mp rfl
      exact .done rfl .nil
  | cons t ts =>
      obtain ⟨s, others, rfl, _, rest⟩ := spread.exists_tail (solid t rfl)
      exact .done rfl rest

theorem next_matches_punct {p : Char} (spread : Spreads c.tokens d.tokens) (here : c.atPunct p) :
    Matches (fun _ => ()) (next c) (next d) := by
  apply next_matches spread
  intro t front newline
  simp [Cursor.atPunct, front, Token.isPunct, newline] at here

theorem next_matches_word {w : String} (spread : Spreads c.tokens d.tokens) (here : c.atWord w) :
    Matches (fun _ => ()) (next c) (next d) := by
  apply next_matches spread
  intro t front newline
  simp [Cursor.atWord, Cursor.word?, front, Token.ident?, newline] at here

theorem skipWhile_agrees {p : Token → Bool} (byKind : ∀ {t s : Token}, t.kind = s.kind → p t = p s) :
    Agrees id (skipWhile p) (skipWhile p) := by
  have tokens : ∀ (ts : List Token) (e : Position), (Cursor.skipWhile p ts e).tokens = ts.dropWhile p := by
    intro ts e
    fun_induction Cursor.skipWhile p ts e <;> simp_all
  intro c d spread
  refine .done rfl ?_
  rw [tokens, tokens]
  exact spread.dropWhile byKind

theorem endsStatement_congr {t s : Token} (same : t.kind = s.kind) : endsStatement t = endsStatement s := by
  rw [endsStatement, endsStatement, Token.isNewline_congr same, Token.isPunct_congr same]

theorem separatesElements_congr {t s : Token} (same : t.kind = s.kind) : separatesElements t = separatesElements s := by
  rw [separatesElements, separatesElements, Token.isNewline_congr same, Token.isPunct_congr same]

theorem skipNewlines_agrees : Agrees id skipNewlines skipNewlines := skipWhile_agrees Token.isNewline_congr

theorem skipSeparators_agrees : Agrees id skipSeparators skipSeparators := skipWhile_agrees endsStatement_congr

/-- A token is accepted for its kind, and a line break never is. -/
theorem accept_agrees {f : Token → Option α} {view : α → γ} (complaint : Complaint)
    (byKind : ∀ t s, t.kind = s.kind → (f t).map view = (f s).map view) (solid : ∀ t, t.kind = .newline → f t = none) :
    Agrees view (accept f complaint) (accept f complaint) := by
  intro c d spread
  have complains := complain_agrees view complaint spread
  obtain ⟨ts, _⟩ := c
  obtain ⟨ss, _⟩ := d
  cases ts with
  | nil =>
      obtain rfl : ss = [] := spread.nil_iff.mp rfl
      exact complains
  | cons t ts =>
      cases ss with
      | nil => simpa using spread.nil_iff
      | cons s ss =>
          have same := byKind t s spread.head_kind
          rw [accept, accept]
          simp only
          cases left : f t with
          | none =>
              rw [left, Option.map_none, eq_comm, Option.map_eq_none_iff] at same
              rw [same]
              exact complains
          | some a =>
              rw [left, Option.map_some, eq_comm, Option.map_eq_some_iff] at same
              obtain ⟨b, right, seen⟩ := same
              rw [right]
              refine .done seen.symm (spread.tail fun newline => ?_)
              rw [solid t newline] at left
              cases left

theorem word_agrees (w : String) : Agrees (fun _ => ()) (word w) (word w) := by
  apply accept_agrees
  · intro t s same
    rw [Token.ident?_congr same]
    split <;> rfl
  · intro t newline
    simp [Token.ident?, newline]

theorem ident_agrees : Agrees Prod.fst ident ident := by
  apply accept_agrees
  · intro t s same
    rw [Token.ident?_congr same, Option.map_map, Option.map_map]
    rfl
  · intro t newline
    simp [Token.ident?, newline]

theorem punct_agrees (p : Char) : Agrees id (punct p) (punct p) := by
  apply accept_agrees
  · intro t s same
    rw [Token.isPunct_congr same]
  · intro t newline
    simp [Token.isPunct, newline]

/-! ## Repetitions -/

/-- Two loops end alike if their turns do, and if one turn takes a token when the other does. -/
theorem iterate_agrees {turn turn' : σ → Reader (Turn σ α)} {see : σ → τ} {view : α → γ}
    (turns : ∀ s s', see s = see s' → Agrees (Turn.map see view) (turn s) (turn' s'))
    (keeps : ∀ ⦃s s' c d n n' rest rest'⦄, see s = see s' → Spreads c.tokens d.tokens →
      turn s c = .done (.again n) rest → turn' s' d = .done (.again n') rest' →
        (rest.tokens.length < c.tokens.length ↔ rest'.tokens.length < d.tokens.length))
    {s s' : σ} (same : see s = see s') : Agrees view (iterate turn s) (iterate turn' s') := by
  intro c d spread
  fun_induction iterate turn s c generalizing s' d with
  | case1 s c a rest stopped =>
      have step := turns s s' same spread
      rw [iterate_apply turn' s' d]
      rw [stopped] at step
      generalize turn' s' d = right at step
      cases step with
      | @done _ b _ _ seen more =>
          cases b with
          | again => cases seen
          | stop => exact .done (Turn.stop.inj seen) more
  | case2 s c n rest again shorter ih =>
      have step := turns s s' same spread
      rw [iterate_apply turn' s' d]
      rw [again] at step
      generalize right : turn' s' d = outcome at step
      cases step with
      | @done _ b _ _ seen more =>
          cases b with
          | stop => cases seen
          | again n' =>
              simp only [(keeps same spread again right).mp shorter, if_true]
              exact ih (Turn.again.inj seen) more
  | case3 s c n rest again stays =>
      have step := turns s s' same spread
      rw [iterate_apply turn' s' d]
      rw [again] at step
      generalize right : turn' s' d = outcome at step
      cases step with
      | @done _ b _ _ seen more =>
          cases b with
          | stop => cases seen
          | again n' =>
              simp only [mt (keeps same spread again right).mpr stays, if_false]
              exact .stuck
  | case4 s c fault failed =>
      have step := turns s s' same spread
      rw [iterate_apply turn' s' d]
      rw [failed] at step
      generalize turn' s' d = right at step
      cases step with
      | failed same => exact .failed same
  | case5 s c stuck =>
      have step := turns s s' same spread
      rw [iterate_apply turn' s' d]
      rw [stuck] at step
      generalize turn' s' d = right at step
      cases step with
      | stuck => exact .stuck

/-- A loop whose turn always takes a token ends alike on two spacings if its turn does. -/
theorem Sweeps.agrees {f f' : σ → Reader α} {turn turn' : σ → Reader (Turn σ α)} {see : σ → τ} {view : α → γ}
    (sweeps : Sweeps f turn) (sweeps' : Sweeps f' turn')
    (turns : ∀ s s', see s = see s' → Agrees (Turn.map see view) (turn s) (turn' s')) {s s' : σ}
    (same : see s = see s') : Agrees view (f s) (f' s') := by
  intro c d spread
  rw [sweeps.eq_iterate, sweeps'.eq_iterate]
  refine iterate_agrees turns ?_ same spread
  intro _ _ _ _ _ _ _ _ _ _ left right
  exact iff_of_true (sweeps.advances.again left) (sweeps'.advances.again right)

/-! ## Names and scripts -/

theorem segmentTurn_agrees (read read' : String × TextRange) (same : read.1 = read'.1) :
    Agrees (Turn.map Prod.fst Prod.fst) (segmentTurn read) (segmentTurn read') := by
  intro c d spread
  have stays : Matches (Turn.map (Prod.fst : String × TextRange → String) Prod.fst) (.done (.stop read) c)
      (.done (.stop read') d) := .done (congrArg Turn.stop same) spread
  obtain ⟨ts, e⟩ := c
  obtain ⟨ss, e'⟩ := d
  cases ts with
  | nil =>
      obtain rfl : ss = [] := spread.nil_iff.mp rfl
      exact stays
  | cons dot ts =>
      cases ss with
      | nil => simpa using spread.nil_iff
      | cons point ss =>
          have mark : dot.isPunct '.' = point.isPunct '.' := Token.isPunct_congr spread.head_kind _
          by_cases dotted : dot.isPunct '.' = true
          · have solid : dot.kind ≠ .newline := by
              intro newline
              simp [Token.isPunct, newline] at dotted
            have tail := spread.tail solid
            cases ts with
            | nil =>
                obtain rfl : ss = [] := tail.nil_iff.mp rfl
                exact stays
            | cons t ts =>
                cases ss with
                | nil => simpa using tail.nil_iff
                | cons s ss =>
                    simp only [segmentTurn, ← mark, dotted, ← Token.ident?_congr tail.head_kind]
                    cases named : t.ident? with
                    | none => exact stays
                    | some segment =>
                        refine .done ?_ (tail.tail fun newline => ?_)
                        · simp only [Turn.map, same]
                        · simp [Token.ident?, newline] at named
          · -- Nothing is taken, whatever follows.
            have left : segmentTurn read ⟨dot :: ts, e⟩ = .done (.stop read) ⟨dot :: ts, e⟩ := by
              cases ts <;> simp [segmentTurn, dotted]
            have right : segmentTurn read' ⟨point :: ss, e'⟩ = .done (.stop read') ⟨point :: ss, e'⟩ := by
              rw [mark] at dotted
              cases ss <;> simp [segmentTurn, dotted]
            rw [left, right]
            exact stays

theorem qualifiedName_agrees : Agrees Prod.fst qualifiedName qualifiedName :=
  ident_agrees.bind fun _ _ same => segments_sweeps.agrees segments_sweeps segmentTurn_agrees same

theorem endsExpression_congr {t s : Token} {ts ss : List Token} (same : t.kind = s.kind) (spread : Spreads ts ss)
    (inList : Bool) (previous : Option TokenKind) :
    endsExpression inList previous t ts = endsExpression inList previous s ss := by
  rw [endsExpression, endsExpression, same, spread.nextLineContinues]

theorem skipExpressionFrom_matches {ts ss : List Token} (spread : Spreads ts ss) (inList : Bool) (owed : List Char)
    (previous : Option TokenKind) (e e' : Position) :
    Matches id (skipExpressionFrom inList ts owed previous e) (skipExpressionFrom inList ss owed previous e') := by
  induction spread generalizing owed previous e e' with
  | nil =>
      rw [skipExpressionFrom, skipExpressionFrom]
      split
      · exact .done rfl .nil
      · exact .failed rfl
  | @cons t s ts ss same rest ih =>
      rw [skipExpressionFrom, skipExpressionFrom, endsExpression_congr same rest, Token.isNewline_congr same, same]
      split
      · exact .done rfl (.cons same rest)
      · cases owe owed s.kind with
        | error => exact .failed rfl
        | ok owed => exact ih ..
  | @again t s ts ss first second rest ih =>
      have ends : endsExpression inList previous t (s :: ts) = endsExpression inList previous s ts := by
        rw [endsExpression, endsExpression, first, second, nextLineContinues, second]
      rw [skipExpressionFrom, ends]
      split
      · -- Both stop before the run of line breaks.
        rename_i stops
        have others := ih owed previous e e'
        rw [skipExpressionFrom, if_pos stops] at others
        generalize skipExpressionFrom inList ss owed previous e' = right at others
        cases others with
        | done same spread => exact .done same (.again first second spread)
      · simp only [first, owe, Token.isNewline, beq_self_eq_true, if_true]
        exact ih ..

theorem skipExpression_agrees (inList : Bool) : Agrees id (skipExpression inList) (skipExpression inList) :=
  fun _ _ spread => skipExpressionFrom_matches spread inList [] none _ _

theorem skipBalancedFrom_matches {ts ss : List Token} (spread : Spreads ts ss) (opening opening' : Position) (p : Char)
    (owed : List Char) :
    Matches id (skipBalancedFrom opening ts (p :: owed)) (skipBalancedFrom opening' ss (p :: owed)) := by
  induction spread generalizing p owed with
  | nil => exact .failed rfl
  | @cons t s ts ss same rest ih =>
      rw [skipBalancedFrom, skipBalancedFrom, same]
      rcases owe (p :: owed) s.kind with _ | _ | ⟨q, more⟩
      · exact .failed rfl
      · exact .done rfl rest
      · exact ih q more
  | again first _ _ ih =>
      rw [skipBalancedFrom, first]
      exact ih p owed

theorem skipBalanced_agrees : Agrees id skipBalanced skipBalanced := by
  intro c d spread
  obtain ⟨ts, _⟩ := c
  obtain ⟨ss, _⟩ := d
  cases ts with
  | nil =>
      obtain rfl : ss = [] := spread.nil_iff.mp rfl
      exact .failed rfl
  | cons t ts =>
      cases ss with
      | nil => simpa using spread.nil_iff
      | cons s ss =>
          have same := spread.head_kind
          rw [skipBalanced, skipBalanced]
          simp only [same]
          cases opened : owe [] s.kind with
          | error => exact .failed rfl
          | ok owed =>
              cases owed with
              | nil => exact .failed rfl
              | cons p owed =>
                  refine skipBalancedFrom_matches (spread.tail fun newline => ?_) _ _ p owed
                  rw [← same, newline] at opened
                  cases opened

end Reader

end Document

end QmlIndex
