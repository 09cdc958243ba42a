import Mathlib.Logic.Function.Iterate
import QmlIndex.Proofs.Document.Bare
import QmlIndex.Proofs.Document.Calls
import QmlIndex.Proofs.Document.Walk

/-! # The limit on nesting

Objects are reached as children, as values, in lists and as inline components, and every way leads through the reader
of bodies, which has one level less for what stands inside. So no tree is deeper than the limit, and the levels that are
left and the bodies that are open make up the limit. A reader looks at the limit for one complaint only, so with a
higher limit everything stays as it is but for that complaint.
-/

namespace QmlIndex

mutual

/-- How deep objects nest, the object itself included. -/
def ObjectNode.depth : ObjectNode → Nat
  | .mk _ _ members => membersDepth members + 1

def membersDepth : List Member → Nat
  | [] => 0
  | m :: rest => max m.depth (membersDepth rest)

def Member.depth : Member → Nat
  | .property _ _ _ objects | .binding _ _ objects => objectsDepth objects
  | .component _ _ object | .object object => object.depth
  | .id _ _ | .signal _ _ | .function _ _ | .enum _ _ => 0

def objectsDepth : List ObjectNode → Nat
  | [] => 0
  | o :: rest => max o.depth (objectsDepth rest)

end

theorem membersDepth_concat (l : List Member) (m : Member) :
    membersDepth (l ++ [m]) = max (membersDepth l) m.depth := by
  induction l with
  | nil => simp [membersDepth]
  | cons first l ih => rw [List.cons_append, membersDepth, membersDepth, ih, Nat.max_assoc]

theorem objectsDepth_concat (l : List ObjectNode) (o : ObjectNode) :
    objectsDepth (l ++ [o]) = max (objectsDepth l) o.depth := by
  induction l with
  | nil => simp [objectsDepth]
  | cons first l ih => rw [List.cons_append, objectsDepth, objectsDepth, ih, Nat.max_assoc]

namespace Document

namespace Reader

variable {α β σ : Type} {r r' : Reader α} {f f' : α → Reader β}

/-! ## Depth -/

/-- Every success gives such a value. -/
def Gives (P : α → Prop) (r : Reader α) : Prop := ∀ ⦃c a rest⦄, r c = .done a rest → P a

section

variable {P : β → Prop} {Q : α → Prop}

theorem Gives.bind (first : Gives Q r) (second : ∀ a, Q a → Gives P (f a)) : Gives P (r >>= f) := by
  intro c b rest success
  obtain ⟨a, mid, left, right⟩ := bind_eq_done.1 success
  exact second a (first left) right

/-- What was read before does not matter. -/
theorem Gives.after (second : ∀ a, Gives P (f a)) : Gives P (r >>= f) := by
  intro c b rest success
  obtain ⟨a, _, _, right⟩ := bind_eq_done.1 success
  exact second a right

theorem pure_gives {a : α} (h : Q a) : Gives Q (pure a) := by
  intro c b rest success
  cases success
  exact h

theorem ended_gives {f : Position → α} (h : ∀ e, Q (f e)) : Gives Q (do return f (← lastEnd)) :=
  .after fun e => pure_gives (h e)

theorem complain_gives (complaint : Complaint) : Gives Q (complain complaint) :=
  fun _ _ _ success => absurd success complain_ne_done

theorem fail_gives (fault : Fault) : Gives Q (fail fault) := nofun

/-- What holds of the state of a turn that goes on, and of the value of one that stops. -/
def Turn.All (S : σ → Prop) (Q : α → Prop) : Turn σ α → Prop
  | .again s => S s
  | .stop a => Q a

theorem iterate_gives {turn : σ → Reader (Turn σ α)} {S : σ → Prop} (turns : ∀ s, S s → Gives (Turn.All S Q) (turn s))
    {s : σ} (start : S s) : Gives Q (iterate turn s) := by
  intro c a rest success
  exact iterate_invariant (P := fun s _ => S s) (Q := fun a _ => Q a) (fun s _ _ _ held turn => turns s held turn)
    (fun s _ _ _ held turn => turns s held turn) start success

end

/-- The bodies are at most so deep. -/
def BodyReader.Within (n : Nat) (body : BodyReader) : Prop := ∀ name start, Gives (·.depth ≤ n) (body name start)

variable {body : BodyReader} {n : Nat}

theorem object_within (within : body.Within n) : Gives (·.depth ≤ n) (object body) :=
  .after fun head => within head.1 head.2

theorem component_within (within : body.Within n) (start : Position) : Gives (·.depth ≤ n) (component body start) :=
  .after fun _ => (object_within within).bind fun _ le => ended_gives fun _ => le

theorem listTurn_within (within : body.Within n) (objects : List ObjectNode) (le : objectsDepth objects ≤ n) :
    Gives (Turn.All (objectsDepth · ≤ n) (objectsDepth · ≤ n)) (listTurn body objects) := by
  refine .after fun _ => .after fun c => ?_
  split
  · exact fail_gives _
  · split
    · exact .after fun _ => pure_gives le
    · split
      · refine (object_within within).bind fun o shallow => pure_gives ?_
        rw [Turn.All, objectsDepth_concat]
        exact Nat.max_le.mpr ⟨le, shallow⟩
      · exact .after fun _ => pure_gives le

theorem list_within (within : body.Within n) : Gives (objectsDepth · ≤ n) (list body) :=
  .after fun _ => iterate_gives (listTurn_within within) (Nat.zero_le n)

theorem value_within (within : body.Within n) : Gives (objectsDepth · ≤ n) (value body) := by
  refine .after fun _ => .after fun c => ?_
  split
  · exact .after fun _ => pure_gives (Nat.zero_le n)
  · split
    · exact list_within within
    · split
      · exact (object_within within).bind fun o le => pure_gives (by simpa [objectsDepth] using le)
      · exact .after fun _ => pure_gives (Nat.zero_le n)

theorem property_within (within : body.Within n) (start : Position) : Gives (·.depth ≤ n) (property body start) := by
  refine .after fun _ => .after fun c => ?_
  split
  · exact .after fun _ => (value_within within).bind fun _ le => ended_gives fun _ => le
  · exact ended_gives fun _ => Nat.zero_le n

theorem modified_within (within : body.Within n) (start : Position) : Gives (·.depth ≤ n) (modified body start) := by
  refine .after fun _ => .after fun c => ?_
  split
  · exact property_within within start
  · exact .after fun _ => ended_gives fun _ => Nat.zero_le n

theorem named_within (within : body.Within n) (start : Position) : Gives (·.depth ≤ n) (named body start) := by
  refine .after fun _ => .after fun c => ?_
  split
  · exact .after fun _ => (within _ _).bind fun _ le => pure_gives le
  · split
    · exact .after fun _ => (value_within within).bind fun _ le => ended_gives fun _ => le
    · exact complain_gives _

theorem declared_within (within : body.Within n) (d : Declaration) (start : Position) :
    Gives (·.depth ≤ n) (declared body d start) := by
  have flat {m : Position → Member} (bare : ∀ e, (m e).depth = 0) : Gives (·.depth ≤ n) (do return m (← lastEnd)) :=
    ended_gives fun e => (bare e).symm ▸ Nat.zero_le n
  cases d with
  | id => exact .after fun _ => .after fun _ => .after fun _ => flat fun _ => rfl
  | property => exact property_within within start
  | modified => exact modified_within within start
  | signal =>
      refine .after fun _ => .after fun _ => .after fun c => ?_
      split
      · exact .after fun _ => flat fun _ => rfl
      · exact flat fun _ => rfl
  | function =>
      refine .after fun _ => .after fun _ => .after fun _ => .after fun _ => .after fun _ => .after fun _ => ?_
      exact flat fun _ => rfl
  | component => exact component_within within start
  | enumeration => exact .after fun _ => .after fun _ => .after fun _ => .after fun _ => flat fun _ => rfl
  | named => exact named_within within start

theorem member_within (within : body.Within n) : Gives (·.depth ≤ n) (member body) := by
  refine .after fun c => ?_
  split
  · exact declared_within within _ _
  · exact complain_gives _

theorem membersTurn_within (within : body.Within n) (name : String) (start : Position) (read : List Member)
    (le : membersDepth read ≤ n) :
    Gives (Turn.All (membersDepth · ≤ n) (·.depth ≤ n + 1)) (membersTurn body name start read) := by
  refine .after fun _ => .after fun c => ?_
  split
  · exact fail_gives _
  · split
    · exact .after fun _ => ended_gives fun _ => Nat.succ_le_succ le
    · refine (member_within within).bind fun m shallow => pure_gives ?_
      rw [Turn.All, membersDepth_concat]
      exact Nat.max_le.mpr ⟨le, shallow⟩

/-- One more level around the members. -/
theorem members_within (within : body.Within n) : (members body).Within (n + 1) := fun name start =>
  .after fun _ => iterate_gives (membersTurn_within within name start) (Nat.zero_le n)

theorem body_within (limit levels : Nat) : (Reader.body limit levels).Within levels := by
  induction levels with
  | zero => exact fun _ _ => complain_gives _
  | succ levels ih => exact members_within ih

theorem document_within (limit : Nat) : Gives (·.root.depth ≤ limit) (document limit) := by
  refine .after fun _ => .after fun c => ?_
  split
  · exact fail_gives _
  · exact (object_within (body_within limit limit)).bind fun _ le => .after fun _ => pure_gives le

/-! ## Other limits -/

end Reader

/-- Whether the fault is that bodies nest too deep. -/
def Fault.isNesting : Fault → Bool
  | .found (.nestedTooDeep _) _ | .ended (.nestedTooDeep _) => true
  | _ => false

/-- The second outcome is the first one, unless the first one is that bodies nest too deep. -/
inductive Outcome.Eases {α : Type} : Outcome α → Outcome α → Prop where
  | same (o : Outcome α) : Eases o o
  | tooDeep {fault : Fault} (o : Outcome α) : fault.isNesting = true → Eases (.failed fault) o

namespace Reader

/-- At every cursor, the second reader ends as the first one does, unless for the first one bodies nest too deep. -/
def Eases (r r' : Reader α) : Prop := ∀ c, (r c).Eases (r' c)

theorem Eases.refl (r : Reader α) : Eases r r := fun c => .same (r c)

theorem Eases.bind (first : Eases r r') (second : ∀ a, Eases (f a) (f' a)) : Eases (r >>= f) (r' >>= f') := by
  intro c
  change (Reader.bind r f c).Eases (Reader.bind r' f' c)
  rw [Reader.bind, Reader.bind]
  have here := first c
  generalize r c = o, r' c = o' at here
  cases here with
  | same =>
      cases o with
      | done a rest => exact second a rest
      | failed | stuck => exact .same _
  | tooDeep _ deep => exact .tooDeep _ deep

/-- After a reader that knows no limit. -/
theorem Eases.after (second : ∀ a, Eases (f a) (f' a)) : Eases (r >>= f) (r >>= f') := (Eases.refl r).bind second

theorem iterate_eases {turn turn' : σ → Reader (Turn σ α)} (turns : ∀ s, Eases (turn s) (turn' s)) (s : σ) :
    Eases (iterate turn s) (iterate turn' s) := by
  intro c
  induction left : c.tokens.length using Nat.strongRecOn generalizing s c with
  | ind n ih =>
      have here := turns s c
      rw [iterate_apply turn, iterate_apply turn']
      generalize turn s c = o, turn' s c = o' at here
      cases here with
      | tooDeep _ deep => exact .tooDeep _ deep
      | same =>
          obtain ⟨next | a, rest⟩ | _ | _ := o
          · by_cases shorter : rest.tokens.length < c.tokens.length
            · simp only [if_pos shorter]
              exact ih _ (left ▸ shorter) next rest rfl
            · simp only [if_neg shorter]
              exact .same _
          all_goals exact .same _

/-- Every body of the second reader is one of the first one, unless it nests too deep for that. -/
def BodyReader.Eases (body body' : BodyReader) : Prop := ∀ name start, Reader.Eases (body name start) (body' name start)

variable {body body' : BodyReader}

theorem object_eases (bodies : body.Eases body') : Eases (object body) (object body') :=
  .after fun head => bodies head.1 head.2

theorem component_eases (bodies : body.Eases body') (start : Position) :
    Eases (component body start) (component body' start) :=
  .after fun _ => (object_eases bodies).bind fun _ => .refl _

theorem listTurn_eases (bodies : body.Eases body') (objects : List ObjectNode) :
    Eases (listTurn body objects) (listTurn body' objects) := by
  refine .after fun _ => .after fun c => ?_
  split
  · exact .refl _
  · split
    · exact .refl _
    · split
      · exact (object_eases bodies).bind fun _ => .refl _
      · exact .refl _

theorem list_eases (bodies : body.Eases body') : Eases (list body) (list body') :=
  .after fun _ => iterate_eases (listTurn_eases bodies) []

theorem value_eases (bodies : body.Eases body') : Eases (value body) (value body') := by
  refine .after fun _ => .after fun c => ?_
  split
  · exact .refl _
  · split
    · exact list_eases bodies
    · split
      · exact (object_eases bodies).bind fun _ => .refl _
      · exact .refl _

theorem property_eases (bodies : body.Eases body') (start : Position) :
    Eases (property body start) (property body' start) := by
  refine .after fun _ => .after fun c => ?_
  split
  · exact .after fun _ => (value_eases bodies).bind fun _ => .refl _
  · exact .refl _

theorem modified_eases (bodies : body.Eases body') (start : Position) :
    Eases (modified body start) (modified body' start) := by
  refine .after fun _ => .after fun c => ?_
  split
  · exact property_eases bodies start
  · exact .refl _

theorem named_eases (bodies : body.Eases body') (start : Position) : Eases (named body start) (named body' start) := by
  refine .after fun _ => .after fun c => ?_
  split
  · exact .after fun _ => (bodies _ _).bind fun _ => .refl _
  · split
    · exact .after fun _ => (value_eases bodies).bind fun _ => .refl _
    · exact .refl _

theorem member_eases (bodies : body.Eases body') : Eases (member body) (member body') := by
  refine .after fun c => ?_
  split
  · rename_i d start _
    cases d with
    | property => exact property_eases bodies start
    | modified => exact modified_eases bodies start
    | component => exact component_eases bodies start
    | named => exact named_eases bodies start
    | id | signal | function | enumeration => exact .refl _
  · exact .refl _

theorem membersTurn_eases (bodies : body.Eases body') (name : String) (start : Position) (read : List Member) :
    Eases (membersTurn body name start read) (membersTurn body' name start read) := by
  refine .after fun _ => .after fun c => ?_
  split
  · exact .refl _
  · split
    · exact .refl _
    · exact (member_eases bodies).bind fun _ => .refl _

theorem members_eases (bodies : body.Eases body') : (members body).Eases (members body') := fun name start =>
  .after fun _ => iterate_eases (membersTurn_eases bodies name start) []

theorem body_eases (limit limit' : Nat) {levels levels' : Nat} (le : levels ≤ levels') :
    (Reader.body limit levels).Eases (Reader.body limit' levels') := by
  induction levels generalizing levels' with
  | zero =>
      intro name start c
      have deep : ∃ fault, Reader.body limit 0 name start c = .failed fault ∧ fault.isNesting = true := by
        simp only [Reader.body, complain]
        split <;> exact ⟨_, rfl, rfl⟩
      obtain ⟨fault, failed, nesting⟩ := deep
      rw [failed]
      exact .tooDeep _ nesting
  | succ levels ih =>
      obtain ⟨more, rfl⟩ := Nat.exists_eq_add_of_lt le
      exact members_eases (ih (by omega))

theorem document_eases {limit limit' : Nat} (le : limit ≤ limit') : Eases (document limit) (document limit') := by
  refine .after fun _ => .after fun c => ?_
  split
  · exact .refl _
  · exact (object_eases (body_eases limit limit' le)).bind fun _ => .refl _

end Reader

/-! ## Open bodies -/

/-- The reader of bodies is the reader of members, put into itself once for each level, around a complaint. -/
theorem body_eq_iterate (limit levels : Nat) :
    Reader.body limit levels = Reader.members^[levels] fun _ _ => Reader.complain (.nestedTooDeep limit) := by
  induction levels with
  | zero => rfl
  | succ levels ih => rw [Function.iterate_succ_apply', ← ih, Reader.body]

/-- The levels that are left in a routine; before the root object they are all left. -/
def Routine.levels (limit : Nat) : Routine → Nat
  | .document | .header _ => limit
  | .object levels | .body levels _ _ | .members levels _ _ _ | .member levels | .declared levels _ _ => levels
  | .value levels | .list levels | .elements levels _ => levels

/-- How many bodies are opened between two calls: the one whose members are entered. -/
def Call.opens (x y : Call) : Nat :=
  match x.routine, y.routine with
  | .body _ _ _, .members _ _ _ _ => 1
  | _, _ => 0

/-- Reading the tokens comes to a call with so many bodies open. -/
inductive Reached (limit : Nat) (tokens : List Token) : Call → Nat → Prop where
  | start : Reached limit tokens (.start tokens) 0
  | enter {x y : Call} {n : Nat} : Reached limit tokens x n → Enters limit x y → Reached limit tokens y (n + x.opens y)

/-- A body that is opened has one level less, and nothing else changes the levels. -/
theorem Enters.levels {limit : Nat} {x y : Call} (h : Enters limit x y) :
    x.opens y + y.routine.levels limit = x.routine.levels limit := by
  cases h with
  | members => exact Nat.add_comm _ _
  | _ => exact Nat.zero_add _

/-- The bodies that are open and the levels that are left make up the limit. -/
theorem Reached.levels {limit n : Nat} {tokens : List Token} {x : Call} (h : Reached limit tokens x n) :
    n + x.routine.levels limit = limit := by
  induction h with
  | start => exact Nat.zero_add _
  | enter _ entered ih =>
      have step := entered.levels
      omega

/-! ## Texts -/

/-- Read a text as a document, with a limit on nesting. -/
def parseWithin (limit : Nat) (text : List Char) : Reading :=
  match Token.scan text with
  | .error (fault, place) => .failed (.lexical fault place)
  | .ok tokens => ofTokens limit tokens

variable {limit limit' : Nat} {d : Document}

theorem depth_le_of_parseWithin {text : List Char} (parsed : parseWithin limit text = .parsed d) :
    d.root.depth ≤ limit := by
  rw [parseWithin] at parsed
  split at parsed
  · cases parsed
  · obtain ⟨_, read⟩ := document_of_ofTokens parsed
    exact Reader.document_within limit read

theorem parseWithin_of_le (text : List Char) (le : limit ≤ limit') : parseWithin limit' text = parseWithin limit text ∨
    ∃ fault, parseWithin limit text = .failed fault ∧ fault.isNesting = true := by
  rw [parseWithin, parseWithin]
  cases Token.scan text with
  | error => exact .inl rfl
  | ok tokens =>
      simp only [ofTokens]
      have here := Reader.document_eases le ⟨tokens, .origin⟩
      generalize Reader.document limit ⟨tokens, .origin⟩ = o, Reader.document limit' ⟨tokens, .origin⟩ = o' at here
      cases here with
      | same => exact .inl rfl
      | tooDeep _ deep => exact .inr ⟨_, rfl, deep⟩

/-- No document is deeper than the limit, and never are more bodies open: the reader of members is put into itself no
    more often, and wherever reading comes to, the open bodies and the levels that are left make up the limit. A higher
    limit changes nothing for a text that was read as a document or was refused for another reason than the limit. -/
theorem nesting_limit_harmless (text : List Char) :
    parse text = parseWithin maxNesting text ∧
      (∀ limit d, parseWithin limit text = .parsed d → d.root.depth ≤ limit) ∧
      (∀ limit, Reader.body limit limit = Reader.members^[limit] fun _ _ => Reader.complain (.nestedTooDeep limit)) ∧
      (∀ limit tokens x n, Token.scan text = .ok tokens → Reached limit tokens x n →
        n ≤ limit ∧ n + x.routine.levels limit = limit) ∧
      ∀ limit limit', limit ≤ limit' →
        (∀ d, parseWithin limit text = .parsed d → parseWithin limit' text = .parsed d) ∧
          ∀ fault, parseWithin limit text = .failed fault → fault.isNesting = false →
            parseWithin limit' text = .failed fault := by
  refine ⟨rfl, fun limit d parsed => depth_le_of_parseWithin parsed, fun limit => body_eq_iterate limit limit,
    fun limit tokens x n _ reached => ?_, fun limit limit' le => ⟨fun d parsed => ?_, fun fault failed other => ?_⟩⟩
  · exact ⟨by have := reached.levels; omega, reached.levels⟩
  · rcases parseWithin_of_le text le with same | ⟨fault, failed, _⟩
    · exact same.trans parsed
    · rw [failed] at parsed
      cases parsed
  · rcases parseWithin_of_le text le with same | ⟨fault', failed', deep⟩
    · exact same.trans failed
    · rw [failed'] at failed
      cases failed
      rw [deep] at other
      cases other

/-- An object in an object. -/
def twoLevels : List Char := "A \x7b B \x7b \x7d \x7d".toList

/-- An object with a name that nothing follows. -/
def bareName : List Char := "A \x7b b \x7d".toList

theorem nesting_limit_harmless_two_levels :
    (∃ d, parseWithin 2 twoLevels = .parsed d ∧ d.root.depth ≤ 2 ∧ parse twoLevels = .parsed d) ∧
      (∀ d, parseWithin 1 twoLevels ≠ .parsed d) ∧
      ∃ fault, parseWithin 1 bareName = .failed fault ∧ parse bareName = .failed fault := by
  obtain ⟨whole, deep, _, _, higher⟩ := nesting_limit_harmless twoLevels
  refine ⟨?_, ?_, ?_⟩
  · obtain ⟨d, parsed⟩ := Reading.exists_parsed (show (parseWithin 2 twoLevels).isParsed = true by decide +kernel)
    exact ⟨d, parsed, deep 2 d parsed, whole.trans ((higher 2 maxNesting (by decide)).1 d parsed)⟩
  · intro d parsed
    have refused : (parseWithin 1 twoLevels).isParsed = false := by decide +kernel
    rw [parsed] at refused
    cases refused
  · have refused : (match parseWithin 1 bareName with
        | .failed fault => !fault.isNesting
        | _ => false) = true := by decide +kernel
    split at refused
    · rename_i fault failed
      obtain ⟨whole, _, _, _, higher⟩ := nesting_limit_harmless bareName
      exact ⟨fault, failed, whole.trans ((higher 1 maxNesting (by decide)).2 fault failed (by simpa using refused))⟩
    · cases refused

end Document

end QmlIndex
