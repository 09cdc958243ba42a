import QmlIndex.Proofs.Document.Declarations

/-! # Calls

The routines of the descent, and which of them a routine enters: the ones it calls, once what stands before
the call has been read, and its own next turn where it is a loop. No loop is given up here, so a run that
never ends is an endless chain of calls, each entered by the one before.
-/

namespace QmlIndex.Document

open Reader

/-! ## Where a routine is stuck -/

namespace Reader

variable {body : BodyReader}

theorem document_eq_stuck {limit : Nat} {c : Cursor} :
    document limit c = .stuck ↔ header c = .stuck ∨ ∃ h rest, header c = .done h rest ∧
      rest.peek.isSome ∧ object (Reader.body limit limit) rest = .stuck := by
  rw [document, Reader.bind_eq_stuck]
  refine or_congr_right (exists_congr fun (pragmas, imports) => exists_congr fun rest => ?_)
  refine and_congr_right fun _ => ?_
  simp only [cursor_bind]
  cases rest.peek with
  | none => simp [fail]
  | some t =>
      have tail (root : ObjectNode) : Passes 0 do endOfDocument; return Document.mk pragmas imports root :=
        endOfDocument_passes.bind_left fun _ => pure_passes _
      simpa using Passes.bind_eq_stuck_of_passes tail

theorem object_eq_stuck {c : Cursor} :
    object body c = .stuck ↔ ∃ name start rest, objectHead c = .done (name, start) rest ∧
      body name start rest = .stuck := by
  rw [object, objectHead_passes.bind_eq_stuck]
  simp

theorem membersTurn_eq_stuck {name : String} {start : Position} {members : List Member} {c : Cursor} :
    membersTurn body name start members c = .stuck ↔ ∃ t, (c.past endsStatement).peek = some t ∧
      t.isPunct '\x7d' = false ∧ member body (c.past endsStatement) = .stuck := by
  rw [membersTurn_apply]
  split
  · simp_all
  · simp_all
    split <;> simp_all [next_passes.ends]

theorem member_eq_stuck {c : Cursor} :
    member body c = .stuck ↔ ∃ d start, declaration? c = some (d, start) ∧
      declared body d start c = .stuck := by
  rw [member, cursor_bind]
  cases declaration? c with
  | none => simp [(complain_passes _ (n := 0)).ends]
  | some read =>
      obtain ⟨d, start⟩ := read
      simp [and_assoc]

theorem value_eq_stuck {c : Cursor} :
    value body c = .stuck ↔ (c.past Token.isNewline).atPunct '\x7b' = false ∧
      ((c.past Token.isNewline).atPunct '[' ∧ list body (c.past Token.isNewline) = .stuck ∨
        (c.past Token.isNewline).atPunct '[' = false ∧ (c.past Token.isNewline).looksLikeObject ∧
          object body (c.past Token.isNewline) = .stuck) := by
  rw [value, skipNewlines_bind, cursor_bind]
  split
  · simp_all [skipBalanced_passes.ends]
  · split
    · simp_all
    · split <;> simp_all [(skipExpression_passes _).ends]

theorem listTurn_eq_stuck {objects : List ObjectNode} {c : Cursor} :
    listTurn body objects c = .stuck ↔ ∃ t, (c.past separatesElements).peek = some t ∧
      t.isPunct ']' = false ∧ (c.past separatesElements).looksLikeObject ∧
        object body (c.past separatesElements) = .stuck := by
  rw [listTurn_apply]
  split
  · simp_all
  · simp_all
    split
    · simp_all [next_passes.ends]
    · split <;> simp_all [(skipExpression_passes _).ends]

theorem list_eq_stuck {c : Cursor} :
    list body c = .stuck ↔ ∃ rest, punct '[' c = .done () rest ∧
      iterate (listTurn body) [] rest = .stuck := by
  rw [list, (punct_passes _).bind_unit_eq_stuck]

theorem property_eq_stuck {start : Position} {c : Cursor} :
    property body start c = .stuck ↔ ∃ head colon t rest, propertyHead c = .done head colon ∧
      colon.atPunct ':' ∧ next colon = .done t rest ∧ value body rest = .stuck := by
  rw [property, propertyHead_passes.bind_eq_stuck]
  refine exists_congr fun (name, type) => exists_congr fun colon => ?_
  simp only [cursor_bind]
  split
  · simp_all [next_passes.ends]
  · simp_all

theorem modified_eq_stuck {start : Position} {c : Cursor} :
    modified body start c = .stuck ↔ (c.past isModifier).atWord "property" ∧
      property body start (c.past isModifier) = .stuck := by
  rw [modified, skipWhile_bind, cursor_bind]
  split
  · simp_all
  · simp_all [ident_passes.ends]

theorem component_eq_stuck {start : Position} {c : Cursor} :
    component body start c = .stuck ↔ ∃ name rest, componentHead c = .done name rest ∧
      object body rest = .stuck := by
  rw [component, componentHead_passes.bind_eq_stuck]
  simp

theorem named_eq_stuck {start : Position} {c : Cursor} :
    named body start c = .stuck ↔ ∃ name range mid, qualifiedName c = .done (name, range) mid ∧
      ((opensObject name mid ∧ ∃ rest, beforeBody mid = .done () rest ∧
          body name range.start rest = .stuck) ∨
        (opensObject name mid = false ∧ mid.atPunct ':' ∧ ∃ t rest, next mid = .done t rest ∧
          value body rest = .stuck)) := by
  rw [named, qualifiedName_passes.bind_eq_stuck, Prod.exists]
  refine exists_congr fun name => exists_congr fun range => exists_congr fun mid => ?_
  refine and_congr_right fun _ => ?_
  simp only [cursor_bind]
  split
  · rw [beforeBody_passes.bind_unit_eq_stuck]
    simp_all
  · split
    · simp_all [next_passes.ends]
    · simp_all [(complain_passes _ (n := 0)).ends]

end Reader

/-! ## Routines -/

/-- The routines, without their arguments. -/
inductive Procedure where
  | document
  | header
  | object
  | body
  | members
  | member
  | declared (d : Declaration)
  | value
  | list
  | elements
  deriving DecidableEq, Repr

/-- A routine that enters another without taking a token stands above it. -/
def Procedure.rank : Procedure → Nat
  | .members => 3
  | .member => 2
  | .document | .value | .elements | .declared .modified => 1
  | .header | .object | .body | .list | .declared _ => 0

/-- The routines with their arguments; `levels` is how deep bodies may still nest, and the last argument of a
    loop is what it has read. -/
inductive Routine where
  | document
  | header (read : Header)
  | object (levels : Nat)
  | body (levels : Nat) (name : String) (start : Position)
  | members (levels : Nat) (name : String) (start : Position) (read : List Member)
  | member (levels : Nat)
  | declared (levels : Nat) (d : Declaration) (start : Position)
  | value (levels : Nat)
  | list (levels : Nat)
  | elements (levels : Nat) (read : List ObjectNode)

def Routine.procedure : Routine → Procedure
  | .document => .document
  | .header _ => .header
  | .object _ => .object
  | .body _ _ _ => .body
  | .members _ _ _ _ => .members
  | .member _ => .member
  | .declared _ d _ => .declared d
  | .value _ => .value
  | .list _ => .list
  | .elements _ _ => .elements

/-- A routine and the cursor that it is entered with. -/
structure Call where
  routine : Routine
  cursor : Cursor

/-- The call that reads a list of tokens as a document. -/
def Call.start (tokens : List Token) : Call := ⟨.document, ⟨tokens, .origin⟩⟩

/-- An element position on a token that ends every expression. -/
def Call.DeadEnd : Call → Prop
  | ⟨.elements _ _, c⟩ => c.DeadEnd
  | _ => False

/-- Whether a call, as the readers run it, is given up. -/
def Call.Stuck (limit : Nat) : Call → Prop
  | ⟨.document, c⟩ => document limit c = .stuck
  | ⟨.header read, c⟩ => iterate headerTurn read c = .stuck
  | ⟨.object levels, c⟩ => object (body limit levels) c = .stuck
  | ⟨.body levels name start, c⟩ => body limit levels name start c = .stuck
  | ⟨.members levels name start read, c⟩ =>
    iterate (membersTurn (body limit levels) name start) read c = .stuck
  | ⟨.member levels, c⟩ => member (body limit levels) c = .stuck
  | ⟨.declared levels d start, c⟩ => declared (body limit levels) d start c = .stuck
  | ⟨.value levels, c⟩ => value (body limit levels) c = .stuck
  | ⟨.list levels, c⟩ => list (body limit levels) c = .stuck
  | ⟨.elements levels read, c⟩ => iterate (listTurn (body limit levels)) read c = .stuck

/-- The calls that a call enters, and the next turn of a loop. -/
inductive Enters (limit : Nat) : Call → Call → Prop where
  | header {c} : Enters limit ⟨.document, c⟩ ⟨.header ([], []), c⟩
  | root {c h rest} (read : header c = .done h rest) (more : rest.peek.isSome) :
      Enters limit ⟨.document, c⟩ ⟨.object limit, rest⟩
  | headerTurn {c h next rest} (again : headerTurn h c = .done (.again next) rest) :
      Enters limit ⟨.header h, c⟩ ⟨.header next, rest⟩
  | body {c levels name start rest} (head : objectHead c = .done (name, start) rest) :
      Enters limit ⟨.object levels, c⟩ ⟨.body levels name start, rest⟩
  | members {c levels name start rest} (opened : punct '\x7b' c = .done () rest) :
      Enters limit ⟨.body (levels + 1) name start, c⟩ ⟨.members levels name start [], rest⟩
  | member {c levels name start read t} (front : (c.past endsStatement).peek = some t)
      (inside : t.isPunct '\x7d' = false) :
      Enters limit ⟨.members levels name start read, c⟩ ⟨.member levels, c.past endsStatement⟩
  | membersTurn {c levels name start read next rest}
      (again : membersTurn (body limit levels) name start read c = .done (.again next) rest) :
      Enters limit ⟨.members levels name start read, c⟩ ⟨.members levels name start next, rest⟩
  | declared {c levels d start} (kind : declaration? c = some (d, start)) :
      Enters limit ⟨.member levels, c⟩ ⟨.declared levels d start, c⟩
  | propertyValue {c levels start head colon t rest} (read : propertyHead c = .done head colon)
      (bound : colon.atPunct ':') (passed : next colon = .done t rest) :
      Enters limit ⟨.declared levels .property start, c⟩ ⟨.value levels, rest⟩
  | modifiedProperty {c levels start} (property : (c.past isModifier).atWord "property") :
      Enters limit ⟨.declared levels .modified start, c⟩
        ⟨.declared levels .property start, c.past isModifier⟩
  | componentObject {c levels start name rest} (head : componentHead c = .done name rest) :
      Enters limit ⟨.declared levels .component start, c⟩ ⟨.object levels, rest⟩
  | namedBody {c levels start name range mid rest} (read : qualifiedName c = .done (name, range) mid)
      (opens : opensObject name mid) (before : beforeBody mid = .done () rest) :
      Enters limit ⟨.declared levels .named start, c⟩ ⟨.body levels name range.start, rest⟩
  | namedValue {c levels start name range mid t rest} (read : qualifiedName c = .done (name, range) mid)
      (plain : opensObject name mid = false) (bound : mid.atPunct ':') (passed : next mid = .done t rest) :
      Enters limit ⟨.declared levels .named start, c⟩ ⟨.value levels, rest⟩
  | valueList {c levels} (noBlock : (c.past Token.isNewline).atPunct '\x7b' = false)
      (opens : (c.past Token.isNewline).atPunct '[') :
      Enters limit ⟨.value levels, c⟩ ⟨.list levels, c.past Token.isNewline⟩
  | valueObject {c levels} (noBlock : (c.past Token.isNewline).atPunct '\x7b' = false)
      (noList : (c.past Token.isNewline).atPunct '[' = false)
      (looks : (c.past Token.isNewline).looksLikeObject) :
      Enters limit ⟨.value levels, c⟩ ⟨.object levels, c.past Token.isNewline⟩
  | elements {c levels rest} (opened : punct '[' c = .done () rest) :
      Enters limit ⟨.list levels, c⟩ ⟨.elements levels [], rest⟩
  | element {c levels read t} (front : (c.past separatesElements).peek = some t)
      (inside : t.isPunct ']' = false) (looks : (c.past separatesElements).looksLikeObject) :
      Enters limit ⟨.elements levels read, c⟩ ⟨.object levels, c.past separatesElements⟩
  | elementsTurn {c levels read next rest}
      (again : listTurn (body limit levels) read c = .done (.again next) rest) :
      Enters limit ⟨.elements levels read, c⟩ ⟨.elements levels next, rest⟩

namespace Enters

variable {limit : Nat} {x y : Call}

/-- A call that is entered finds a suffix of the tokens. -/
theorem within (h : Enters limit x y) : y.cursor.tokens <:+ x.cursor.tokens := by
  cases h with
  | header | declared => exact List.suffix_refl _
  | root read _ => exact (header_passes.takes read).1
  | headerTurn again => exact (headerTurn_advances.takes _ again).1
  | body head => exact (objectHead_passes.takes head).1
  | members opened | elements opened => exact ((punct_passes _).takes opened).1
  | membersTurn again => exact (membersTurn_takes (body_keeps _ _) _ _ _ again).1
  | propertyValue read _ passed =>
      exact (next_passes.takes passed).1.trans (propertyHead_passes.takes read).1
  | componentObject head => exact (componentHead_passes.takes head).1
  | namedBody read _ before =>
      exact (beforeBody_passes.takes before).1.trans (qualifiedName_passes.takes read).1
  | namedValue read _ _ passed =>
      exact (next_passes.takes passed).1.trans (qualifiedName_passes.takes read).1
  | elementsTurn again => exact (listTurn_takes (body_keeps _ _) _ again).1
  | member | modifiedProperty | valueList | valueObject | element => exact past_suffix ..

/-- Away from dead ends, a call that is entered finds fewer tokens or stands lower. -/
theorem lower (h : Enters limit x y) (live : ¬x.DeadEnd) :
    y.cursor.tokens.length < x.cursor.tokens.length ∨
      y.routine.procedure.rank < x.routine.procedure.rank := by
  cases h with
  -- Calls of another routine at the same place.
  | header | root | member | modifiedProperty | valueList | valueObject | element =>
      right
      simp [Routine.procedure, Procedure.rank]
  | @declared _ _ d _ _ =>
      right
      cases d <;> simp [Routine.procedure, Procedure.rank]
  -- Calls after a part of a declaration.
  | body head => exact .inl (objectHead_passes.takes head).2
  | members opened | elements opened => exact .inl ((punct_passes _).takes opened).2
  | componentObject head => exact .inl (componentHead_passes.takes head).2
  | propertyValue read _ passed =>
      exact .inl (Nat.lt_of_le_of_lt (next_passes.takes passed).2 (propertyHead_passes.takes read).2)
  | namedBody read _ before =>
      exact .inl (Nat.lt_of_le_of_lt (beforeBody_passes.takes before).2 (qualifiedName_passes.takes read).2)
  | namedValue read _ _ passed =>
      exact .inl (Nat.lt_of_le_of_lt (next_passes.takes passed).2 (qualifiedName_passes.takes read).2)
  -- Turns of a loop.
  | headerTurn again => exact .inl (headerTurn_advances.again again)
  | membersTurn again => exact .inl ((membersTurn_advances (body_keeps _ _) _ _).again again)
  | elementsTurn again => exact .inl (listTurn_again (body_keeps _ _) live again)

/-- A call that enters a stuck call is stuck. -/
theorem stuck (h : Enters limit x y) (stuck : y.Stuck limit) : x.Stuck limit := by
  cases h with
  | header => exact document_eq_stuck.2 (.inl stuck)
  | root read more => exact document_eq_stuck.2 (.inr ⟨_, _, read, more, stuck⟩)
  | headerTurn again => exact iterate_eq_stuck.2 (.inr ⟨_, _, again, fun _ => stuck⟩)
  | body head => exact object_eq_stuck.2 ⟨_, _, _, head, stuck⟩
  | members opened => exact (punct_passes _).bind_unit_eq_stuck.2 ⟨_, opened, stuck⟩
  | member front inside =>
      exact iterate_eq_stuck.2 (.inl (membersTurn_eq_stuck.2 ⟨_, front, inside, stuck⟩))
  | membersTurn again => exact iterate_eq_stuck.2 (.inr ⟨_, _, again, fun _ => stuck⟩)
  | declared kind => exact member_eq_stuck.2 ⟨_, _, kind, stuck⟩
  | propertyValue read bound passed => exact property_eq_stuck.2 ⟨_, _, _, _, read, bound, passed, stuck⟩
  | modifiedProperty property => exact modified_eq_stuck.2 ⟨property, stuck⟩
  | componentObject head => exact component_eq_stuck.2 ⟨_, _, head, stuck⟩
  | namedBody read opens before =>
      exact named_eq_stuck.2 ⟨_, _, _, read, .inl ⟨opens, _, before, stuck⟩⟩
  | namedValue read plain bound passed =>
      exact named_eq_stuck.2 ⟨_, _, _, read, .inr ⟨plain, bound, _, _, passed, stuck⟩⟩
  | valueList noBlock opens => exact value_eq_stuck.2 ⟨noBlock, .inl ⟨opens, stuck⟩⟩
  | valueObject noBlock noList looks => exact value_eq_stuck.2 ⟨noBlock, .inr ⟨noList, looks, stuck⟩⟩
  | elements opened => exact list_eq_stuck.2 ⟨_, opened, stuck⟩
  | element front inside looks =>
      exact iterate_eq_stuck.2 (.inl (listTurn_eq_stuck.2 ⟨_, front, inside, looks, stuck⟩))
  | elementsTurn again => exact iterate_eq_stuck.2 (.inr ⟨_, _, again, fun _ => stuck⟩)

end Enters

theorem declared_enters {limit levels : Nat} {d : Declaration} {start : Position} {c : Cursor}
    (h : declared (body limit levels) d start c = .stuck) :
    ∃ y, Enters limit ⟨.declared levels d start, c⟩ y ∧ y.Stuck limit := by
  cases d with
  | property =>
      obtain ⟨_, _, _, _, read, bound, passed, stuck⟩ := property_eq_stuck.1 h
      exact ⟨_, .propertyValue read bound passed, stuck⟩
  | modified =>
      obtain ⟨property, stuck⟩ := modified_eq_stuck.1 h
      exact ⟨_, .modifiedProperty property, stuck⟩
  | component =>
      obtain ⟨_, _, head, stuck⟩ := component_eq_stuck.1 h
      exact ⟨_, .componentObject head, stuck⟩
  | named =>
      obtain ⟨_, _, _, read, ⟨opens, _, before, stuck⟩ | ⟨plain, bound, _, _, passed, stuck⟩⟩ :=
        named_eq_stuck.1 h
      · exact ⟨_, .namedBody read opens before, stuck⟩
      · exact ⟨_, .namedValue read plain bound passed, stuck⟩
  | id => exact absurd h ((idMember_passes start).ends c)
  | signal => exact absurd h ((signal_passes start).ends c)
  | function => exact absurd h ((function_passes start).ends c)
  | enumeration => exact absurd h ((enumeration_passes start).ends c)

/-- A stuck call stands at a dead end or enters a stuck call. -/
theorem Call.Stuck.enters {limit : Nat} {x : Call} (h : x.Stuck limit) :
    x.DeadEnd ∨ ∃ y, Enters limit x y ∧ y.Stuck limit := by
  obtain ⟨routine, c⟩ := x
  cases routine with
  | document =>
      rcases document_eq_stuck.1 h with stuck | ⟨_, _, read, more, stuck⟩
      · exact .inr ⟨_, .header, stuck⟩
      · exact .inr ⟨_, .root read more, stuck⟩
  | header read => exact absurd h ((headerTurn_advances.iterate_sweeps.passes
      (fun h => (headerTurn_passes h).ends) read).ends c)
  | object levels =>
      obtain ⟨_, _, _, head, stuck⟩ := object_eq_stuck.1 h
      exact .inr ⟨_, .body head, stuck⟩
  | body levels name start =>
      cases levels with
      | zero => exact absurd h ((complain_passes _ (n := 0)).ends c)
      | succ levels =>
          obtain ⟨_, opened, stuck⟩ := (punct_passes _).bind_unit_eq_stuck.1 h
          exact .inr ⟨_, .members opened, stuck⟩
  | members levels name start read =>
      have sweeps := (membersTurn_advances (body_keeps limit levels) name start).iterate_sweeps
      rcases resume_eq_stuck.1 ((sweeps.loop read c).symm.trans h) with stuck | ⟨_, _, again, stuck⟩
      · obtain ⟨_, front, inside, stuck⟩ := membersTurn_eq_stuck.1 stuck
        exact .inr ⟨_, .member front inside, stuck⟩
      · exact .inr ⟨_, .membersTurn again, stuck⟩
  | member levels =>
      obtain ⟨_, _, kind, stuck⟩ := member_eq_stuck.1 h
      exact .inr ⟨_, .declared kind, stuck⟩
  | declared levels d start => exact .inr (declared_enters h)
  | value levels =>
      obtain ⟨noBlock, ⟨opens, stuck⟩ | ⟨noList, looks, stuck⟩⟩ := value_eq_stuck.1 h
      · exact .inr ⟨_, .valueList noBlock opens, stuck⟩
      · exact .inr ⟨_, .valueObject noBlock noList looks, stuck⟩
  | list levels =>
      obtain ⟨_, opened, stuck⟩ := list_eq_stuck.1 h
      exact .inr ⟨_, .elements opened, stuck⟩
  | elements levels read =>
      by_cases dead : c.DeadEnd
      · exact .inl dead
      · rcases iterate_eq_stuck.1 h with stuck | ⟨_, _, again, stuck⟩
        · obtain ⟨_, front, inside, looks, stuck⟩ := listTurn_eq_stuck.1 stuck
          exact .inr ⟨_, .element front inside looks, stuck⟩
        · exact .inr ⟨_, .elementsTurn again, stuck (listTurn_again (body_keeps _ _) dead again)⟩

end QmlIndex.Document
