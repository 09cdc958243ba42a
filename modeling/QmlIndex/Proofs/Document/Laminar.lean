import QmlIndex.Proofs.Document.Bare
import QmlIndex.Proofs.Document.Marks
import QmlIndex.Proofs.Token.Lines

/-! # Ranges nest as the declarations do

Every range of a document that was read goes from the start of a token to the end of a later one. The statements of the
header follow one another before the root object, the members of an object follow one another between its braces, and
the objects in a member follow one another inside it.
-/

namespace QmlIndex

/-! ## What it is for ranges to nest -/

/-- A range that is not empty, from the start of a token to the end of a token. -/
structure TextRange.Faithful (tokens : List Token) (r : TextRange) : Prop where
  proper : r.start.lt r.stop = true
  starts : ∃ t ∈ tokens, t.range.start = r.start
  ends : ∃ t ∈ tokens, t.range.stop = r.stop

/-- One range ends before the other one starts; they may touch. -/
def TextRange.Before (a b : TextRange) : Prop := a.stop.le b.start = true

/-- One range ends before the other one starts, and does not touch it. -/
def TextRange.WellBefore (a b : TextRange) : Prop := a.stop.lt b.start = true

def TextRange.Within (a b : TextRange) : Prop := b.start.le a.start = true ∧ a.stop.le b.stop = true

/-- One range starts behind the start of the other one and ends before its end. -/
def TextRange.Inside (a b : TextRange) : Prop := b.start.lt a.start = true ∧ a.stop.lt b.stop = true

mutual

/-- The ranges in an object nest. -/
def ObjectNode.Laid (tokens : List Token) : ObjectNode → Prop
  | .mk _ range members =>
      range.Faithful tokens ∧ (∀ m ∈ members, m.range.Inside range) ∧
        (members.map Member.range).Pairwise TextRange.Before ∧ membersLaid tokens members

def membersLaid (tokens : List Token) : List Member → Prop
  | [] => True
  | m :: rest => m.Laid tokens ∧ membersLaid tokens rest

def Member.Laid (tokens : List Token) : Member → Prop
  | .id _ range | .signal _ range | .function _ range | .enum _ range => range.Faithful tokens
  | .property _ _ range objects | .binding _ range objects =>
      range.Faithful tokens ∧ (∀ o ∈ objects, o.range.Within range) ∧
        (objects.map ObjectNode.range).Pairwise TextRange.Before ∧ objectsLaid tokens objects
  | .component _ range object => range.Faithful tokens ∧ object.range.Within range ∧ object.Laid tokens
  | .object object => object.Laid tokens

def objectsLaid (tokens : List Token) : List ObjectNode → Prop
  | [] => True
  | o :: rest => o.Laid tokens ∧ objectsLaid tokens rest

end

/-- The ranges in a document nest. -/
structure Document.Laid (tokens : List Token) (d : Document) : Prop where
  pragmas : ∀ p ∈ d.pragmas, p.range.Faithful tokens ∧ p.range.WellBefore d.root.range
  pragmasInOrder : (d.pragmas.map Pragma.range).Pairwise TextRange.WellBefore
  imports : ∀ i ∈ d.imports, i.range.Faithful tokens ∧ i.range.WellBefore d.root.range
  importsInOrder : (d.imports.map ImportStatement.range).Pairwise TextRange.WellBefore
  root : d.root.Laid tokens

theorem ObjectNode.Laid.faithful {tokens : List Token} {o : ObjectNode} (laid : o.Laid tokens) :
    o.range.Faithful tokens := by
  cases o
  exact laid.1

theorem membersLaid_append {tokens : List Token} {a b : List Member} :
    membersLaid tokens (a ++ b) ↔ membersLaid tokens a ∧ membersLaid tokens b := by
  induction a with
  | nil => simp [membersLaid]
  | cons m a ih => simp only [List.cons_append, membersLaid, ih, and_assoc]

theorem objectsLaid_append {tokens : List Token} {a b : List ObjectNode} :
    objectsLaid tokens (a ++ b) ↔ objectsLaid tokens a ∧ objectsLaid tokens b := by
  induction a with
  | nil => simp [objectsLaid]
  | cons o a ih => simp only [List.cons_append, objectsLaid, ih, and_assoc]

namespace Document

/-! ## Cursors on tokens in order -/

/-- The tokens that are left follow one another behind the last one taken. -/
structure Cursor.Sound (tokens : List Token) (c : Cursor) : Prop where
  among : ∀ t ∈ c.tokens, t ∈ tokens ∧ t.range.start.rank < t.range.stop.rank
  chain : c.tokens.IsChain Token.Precedes
  front : ∀ t ∈ c.peek, c.lastEnd.rank ≤ t.range.start.rank
  ended : c.lastEnd.rank = 0 ∨ ∃ t ∈ tokens, t.range.stop = c.lastEnd

/-- A place where a token starts, no later than the next token. -/
structure Cursor.Begins (tokens : List Token) (start : Position) (c : Cursor) : Prop where
  token : ∃ t ∈ tokens, t.range.start = start
  before : ∀ t ∈ c.peek, start.rank ≤ t.range.start.rank

namespace Cursor

variable {tokens : List Token} {c d : Cursor} {start : Position}

theorem Sound.step {t : Token} {ts : List Token} {e : Position} (sound : Sound tokens ⟨t :: ts, e⟩) :
    Sound tokens ⟨ts, t.range.stop⟩ := by
  have here := sound.among t List.mem_cons_self
  obtain ⟨next, chain⟩ := List.isChain_cons.mp sound.chain
  refine ⟨fun u member => sound.among u (List.mem_cons_of_mem _ member), chain, fun u front => ?_, .inr ⟨t, here.1, rfl⟩⟩
  exact Position.le_iff_rank.mp (next u front).1

theorem Sound.walk (sound : c.Sound tokens) (walk : c.Walk d) : d.Sound tokens := by
  induction walk with
  | refl => exact sound
  | step _ ih => exact ih sound.step

theorem Sound.rank_le (sound : c.Sound tokens) (walk : c.Walk d) : c.lastEnd.rank ≤ d.lastEnd.rank := by
  induction walk with
  | refl => exact Nat.le_refl _
  | @step t ts e d _ ih =>
      have front : e.rank ≤ t.range.start.rank := sound.front t rfl
      have proper := (sound.among t List.mem_cons_self).2
      have later := ih sound.step
      simp only at later ⊢
      omega

/-- A walk that takes a token goes past the start of the first one. -/
theorem Sound.rank_lt {t : Token} (sound : c.Sound tokens) (front : c.peek = some t) (walk : c.Walk d)
    (shorter : d.tokens.length < c.tokens.length) : t.range.start.rank < d.lastEnd.rank := by
  cases walk with
  | refl => omega
  | step walk =>
      cases front
      have proper := (sound.among t List.mem_cons_self).2
      have later := sound.step.rank_le walk
      simp only at later
      omega

theorem Begins.walk (begins : c.Begins tokens start) (sound : c.Sound tokens) (walk : c.Walk d) :
    d.Begins tokens start := by
  induction walk with
  | refl => exact begins
  | @step t ts e d _ ih =>
      refine ih ⟨begins.token, fun u front => ?_⟩ sound.step
      have first : start.rank ≤ t.range.start.rank := begins.before t rfl
      have proper := (sound.among t List.mem_cons_self).2
      have next : t.range.stop.rank ≤ u.range.start.rank := sound.step.front u front
      omega

theorem Begins.rank_lt (begins : c.Begins tokens start) (sound : c.Sound tokens) (walk : c.Walk d)
    (shorter : d.tokens.length < c.tokens.length) : start.rank < d.lastEnd.rank := by
  cases front : c.peek with
  | none =>
      rw [peek, List.head?_eq_none_iff] at front
      rw [front] at shorter
      cases shorter
  | some t =>
      have first := begins.before t front
      have later := sound.rank_lt front walk shorter
      omega

theorem Sound.faithful (sound : d.Sound tokens) (token : ∃ t ∈ tokens, t.range.start = start)
    (later : start.rank < d.lastEnd.rank) : TextRange.Faithful tokens ⟨start, d.lastEnd⟩ := by
  refine ⟨Position.lt_iff_rank.mpr later, token, ?_⟩
  rcases sound.ended with zero | ended
  · omega
  · exact ended

theorem Sound.begins {t : Token} (sound : c.Sound tokens) (front : c.peek = some t) :
    c.Begins tokens t.range.start := by
  refine ⟨⟨t, (sound.among t (List.mem_of_mem_head? front)).1, rfl⟩, fun u other => ?_⟩
  rw [front] at other
  cases other
  exact Nat.le_refl _

end Cursor

/-! ## Rows of ranges -/

/-- Ranges that follow one another between two places. -/
structure Row (lo hi : Position) (l : List TextRange) : Prop where
  between : ∀ r ∈ l, lo.rank ≤ r.start.rank ∧ r.stop.rank ≤ hi.rank
  inOrder : l.Pairwise TextRange.Before

theorem Row.nil (lo hi : Position) : Row lo hi [] := ⟨nofun, .nil⟩

theorem Row.widen {lo hi hi' : Position} {l : List TextRange} (row : Row lo hi l) (le : hi.rank ≤ hi'.rank) :
    Row lo hi' l :=
  ⟨fun r member => ⟨(row.between r member).1, Nat.le_trans (row.between r member).2 le⟩, row.inOrder⟩

/-- One more range, behind the place where the others end. -/
theorem Row.snoc {lo mid hi : Position} {l : List TextRange} {r : TextRange} (row : Row lo mid l)
    (low : lo.rank ≤ mid.rank) (high : mid.rank ≤ hi.rank) (starts : mid.rank ≤ r.start.rank)
    (stops : r.stop.rank ≤ hi.rank) : Row lo hi (l ++ [r]) := by
  constructor
  · intro s member
    rcases List.mem_append.mp member with inside | last
    · exact (row.widen high).between s inside
    · cases List.mem_singleton.mp last
      exact ⟨Nat.le_trans low starts, stops⟩
  · rw [List.pairwise_append]
    refine ⟨row.inOrder, List.pairwise_singleton .., fun a member b last => ?_⟩
    cases List.mem_singleton.mp last
    exact Position.le_iff_rank.mpr (Nat.le_trans (row.between a member).2 starts)

namespace Reader

variable {tokens : List Token} {c rest : Cursor} {start : Position}

/-! ## Names and objects -/

/-- A dotted name starts where its first word does. -/
theorem qualifiedName_start (sound : c.Sound tokens) {name : String} {range : TextRange}
    (success : qualifiedName c = .done (name, range) rest) : ∃ t, c.peek = some t ∧ range.start = t.range.start := by
  obtain ⟨⟨first, whole⟩, mid, read, more⟩ := bind_eq_done.1 success
  obtain ⟨ts, e⟩ := c
  obtain ⟨t, ts, rfl, found, rfl⟩ := accept_eq_done read
  obtain ⟨_, _, same⟩ := Option.map_eq_some_iff.mp found
  cases same
  refine ⟨t, rfl, ?_⟩
  have proper := (sound.among t List.mem_cons_self).2
  have loop := (segments_sweeps.eq_iterate (first, t.range) ⟨ts, t.range.stop⟩).symm.trans more
  -- Every further segment stands behind the start.
  refine iterate_invariant (P := fun read c => c.Sound tokens ∧ read.2.start = t.range.start ∧
    t.range.start.rank ≤ c.lastEnd.rank) (Q := fun read _ => read.2.start = t.range.start) ?_ ?_
    ⟨sound.step, rfl, Nat.le_of_lt proper⟩ loop
  · rintro ⟨name, range⟩ c next rest ⟨sound, same, later⟩ turn
    have walk := segmentTurn_walks _ turn
    refine ⟨sound.walk walk, ?_, Nat.le_trans later (sound.rank_le walk)⟩
    obtain ⟨_ | ⟨dot, _ | ⟨u, us⟩⟩, e⟩ := c
    · cases turn
    · cases turn
    · simp only [segmentTurn] at turn
      split at turn <;> cases turn
      have first : e.rank ≤ dot.range.start.rank := sound.front dot rfl
      have through := (sound.among dot List.mem_cons_self).2
      have second : dot.range.stop.rank ≤ u.range.start.rank := sound.step.front u rfl
      have least : range.start.le u.range.start = true := by
        simp only at same later
        rw [Position.le_iff_rank, same]
        omega
      simp only [TextRange.cover, Position.min, least, if_true]
      exact same
  · rintro ⟨name, range⟩ c read rest ⟨_, same, _⟩ turn
    obtain ⟨_ | ⟨dot, _ | ⟨u, us⟩⟩, e⟩ := c
    · cases turn
      exact same
    · cases turn
      exact same
    · simp only [segmentTurn] at turn
      split at turn <;> cases turn
      exact same

/-- A reader of bodies that lays out what it reads, up to where it ends. -/
def BodyReader.Lays (tokens : List Token) (body : BodyReader) : Prop :=
  ∀ ⦃name start c o rest⦄, c.Sound tokens → (∃ t ∈ tokens, t.range.start = start) → start.rank < c.lastEnd.rank →
    body name start c = .done o rest → c.Walk rest ∧ o.range = ⟨start, rest.lastEnd⟩ ∧ o.Laid tokens

variable {body : BodyReader}

theorem object_lays (lays : body.Lays tokens) (sound : c.Sound tokens) {o : ObjectNode}
    (success : object body c = .done o rest) :
    c.Walk rest ∧ (∃ t, c.peek = some t ∧ o.range = ⟨t.range.start, rest.lastEnd⟩) ∧ o.Laid tokens := by
  obtain ⟨⟨name, start⟩, opened, head, read⟩ := bind_eq_done.1 success
  obtain ⟨⟨name, range⟩, mid, named, more⟩ := bind_eq_done.1 head
  obtain ⟨_, before, passed, same⟩ := bind_eq_done.1 more
  cases same
  obtain ⟨t, front, starts⟩ := qualifiedName_start sound named
  have walk := (qualifiedName_walks named).trans (beforeBody_walks passed)
  have shorter := (objectHead_passes.takes head).2
  obtain ⟨further, placed, laid⟩ := lays (sound.walk walk) (starts ▸ (sound.begins front).token)
    (starts ▸ sound.rank_lt front walk shorter) read
  exact ⟨walk.trans further, ⟨t, front, starts ▸ placed⟩, laid⟩

/-! ## Lists and values -/

/-- Objects that follow one another from where a reader starts to where it ends. -/
structure Lined (tokens : List Token) (c rest : Cursor) (objects : List ObjectNode) : Prop where
  walk : c.Walk rest
  row : Row c.lastEnd rest.lastEnd (objects.map ObjectNode.range)
  laid : objectsLaid tokens objects

theorem Lined.nil (walk : c.Walk rest) : Lined tokens c rest [] := ⟨walk, .nil _ _, trivial⟩

theorem Lined.object (lays : body.Lays tokens) (sound : c.Sound tokens) {mid : Cursor} {objects : List ObjectNode}
    {o : ObjectNode} (lined : Lined tokens c mid objects) (success : Reader.object body mid = .done o rest) :
    Lined tokens c rest (objects ++ [o]) := by
  have inner := sound.walk lined.walk
  obtain ⟨walk, ⟨t, front, range⟩, laid⟩ := object_lays lays inner success
  refine ⟨lined.walk.trans walk, ?_, objectsLaid_append.mpr ⟨lined.laid, laid, trivial⟩⟩
  rw [List.map_append, List.map_singleton, range]
  exact lined.row.snoc (sound.rank_le lined.walk) (inner.rank_le walk) (inner.front t front) (Nat.le_refl _)

theorem Lined.further {mid : Cursor} {objects : List ObjectNode} (lined : Lined tokens c mid objects)
    (sound : c.Sound tokens) (walk : mid.Walk rest) : Lined tokens c rest objects :=
  ⟨lined.walk.trans walk, lined.row.widen ((sound.walk lined.walk).rank_le walk), lined.laid⟩

theorem list_lays (lays : body.Lays tokens) (sound : c.Sound tokens) {objects : List ObjectNode}
    (success : list body c = .done objects rest) : Lined tokens c rest objects := by
  obtain ⟨_, mid, opened, elements⟩ := bind_eq_done.1 success
  refine iterate_invariant (P := fun read d => Lined tokens c d read) (Q := fun read d => Lined tokens c d read) ?_ ?_
    (Lined.nil (punct_walks _ opened)) elements
  · intro read d next last lined turn
    have settled := lined.further sound (past_walk separatesElements d)
    rw [listTurn_apply] at turn
    split at turn
    · cases turn
    · split at turn
      · obtain ⟨_, _, _, same⟩ := bind_eq_done.1 turn
        cases same
      · split at turn
        · obtain ⟨o, _, taken, same⟩ := bind_eq_done.1 turn
          cases same
          exact settled.object lays sound taken
        · obtain ⟨_, _, skipped, same⟩ := bind_eq_done.1 turn
          cases same
          exact settled.further sound (skipExpression_walks _ skipped)
  · intro read d found last lined turn
    have settled := lined.further sound (past_walk separatesElements d)
    rw [listTurn_apply] at turn
    split at turn
    · cases turn
    · split at turn
      · obtain ⟨_, _, taken, same⟩ := bind_eq_done.1 turn
        cases same
        exact settled.further sound (next_walks taken)
      · split at turn
        · obtain ⟨_, _, _, same⟩ := bind_eq_done.1 turn
          cases same
        · obtain ⟨_, _, _, same⟩ := bind_eq_done.1 turn
          cases same

theorem value_lays (lays : body.Lays tokens) (sound : c.Sound tokens) {objects : List ObjectNode}
    (success : value body c = .done objects rest) : Lined tokens c rest objects := by
  have settled : Lined tokens c (c.past Token.isNewline) [] := .nil (past_walk _ c)
  simp only [value, skipNewlines_bind, cursor_bind] at success
  split at success
  · obtain ⟨_, _, skipped, same⟩ := bind_eq_done.1 success
    cases same
    exact settled.further sound (skipBalanced_walks skipped)
  · split at success
    · have lined := list_lays lays (sound.walk settled.walk) success
      refine ⟨settled.walk.trans lined.walk, ⟨fun r member => ?_, lined.row.inOrder⟩, lined.laid⟩
      have low := sound.rank_le settled.walk
      have between := lined.row.between r member
      exact ⟨Nat.le_trans low between.1, between.2⟩
    · split at success
      · obtain ⟨o, _, taken, same⟩ := bind_eq_done.1 success
        cases same
        exact settled.object lays sound taken
      · obtain ⟨_, _, skipped, same⟩ := bind_eq_done.1 success
        cases same
        exact settled.further sound (skipExpression_walks _ skipped)

/-! ## Members -/

/-- A member from the given place to where its reader ends. -/
structure Placed (tokens : List Token) (start : Position) (c rest : Cursor) (m : Member) : Prop where
  walk : c.Walk rest
  range : m.range = ⟨start, rest.lastEnd⟩
  laid : m.Laid tokens

/-- The range of a declaration of which a token was read. -/
theorem faithful_of_takes (sound : c.Sound tokens) (begins : c.Begins tokens start) (walk : c.Walk rest)
    (shorter : rest.tokens.length < c.tokens.length) : TextRange.Faithful tokens ⟨start, rest.lastEnd⟩ :=
  (sound.walk walk).faithful begins.token (begins.rank_lt sound walk shorter)

variable {m : Member}

theorem idMember_lays (sound : c.Sound tokens) (begins : c.Begins tokens start)
    (success : idMember start c = .done m rest) : Placed tokens start c rest m := by
  have faithful := faithful_of_takes sound begins (idMember_walks start success) ((idMember_passes start).takes success).2
  have walk := idMember_walks start success
  obtain ⟨_, _, _, success⟩ := bind_eq_done.1 success
  obtain ⟨_, _, _, success⟩ := bind_eq_done.1 success
  obtain ⟨_, _, _, success⟩ := bind_eq_done.1 success
  obtain ⟨rfl, rfl⟩ := ended_eq_done.1 success
  exact ⟨walk, rfl, faithful⟩

theorem signal_lays (sound : c.Sound tokens) (begins : c.Begins tokens start)
    (success : signal start c = .done m rest) : Placed tokens start c rest m := by
  have faithful := faithful_of_takes sound begins (signal_walks start success) ((signal_passes start).takes success).2
  have walk := signal_walks start success
  obtain ⟨_, _, _, success⟩ := bind_eq_done.1 success
  obtain ⟨_, _, _, success⟩ := bind_eq_done.1 success
  simp only [cursor_bind] at success
  split at success
  · obtain ⟨_, _, _, success⟩ := bind_eq_done.1 success
    obtain ⟨rfl, rfl⟩ := ended_eq_done.1 success
    exact ⟨walk, rfl, faithful⟩
  · obtain ⟨rfl, rfl⟩ := ended_eq_done.1 success
    exact ⟨walk, rfl, faithful⟩

theorem function_lays (sound : c.Sound tokens) (begins : c.Begins tokens start)
    (success : function start c = .done m rest) : Placed tokens start c rest m := by
  have faithful := faithful_of_takes sound begins (function_walks start success) ((function_passes start).takes success).2
  have walk := function_walks start success
  obtain ⟨_, _, _, success⟩ := bind_eq_done.1 success
  obtain ⟨_, _, _, success⟩ := bind_eq_done.1 success
  obtain ⟨_, _, _, success⟩ := bind_eq_done.1 success
  obtain ⟨_, _, _, success⟩ := bind_eq_done.1 success
  obtain ⟨_, _, _, success⟩ := bind_eq_done.1 success
  obtain ⟨_, _, _, success⟩ := bind_eq_done.1 success
  obtain ⟨rfl, rfl⟩ := ended_eq_done.1 success
  exact ⟨walk, rfl, faithful⟩

theorem enumeration_lays (sound : c.Sound tokens) (begins : c.Begins tokens start)
    (success : enumeration start c = .done m rest) : Placed tokens start c rest m := by
  have faithful :=
    faithful_of_takes sound begins (enumeration_walks start success) ((enumeration_passes start).takes success).2
  have walk := enumeration_walks start success
  obtain ⟨_, _, _, success⟩ := bind_eq_done.1 success
  obtain ⟨_, _, _, success⟩ := bind_eq_done.1 success
  obtain ⟨_, _, _, success⟩ := bind_eq_done.1 success
  obtain ⟨_, _, _, success⟩ := bind_eq_done.1 success
  obtain ⟨rfl, rfl⟩ := ended_eq_done.1 success
  exact ⟨walk, rfl, faithful⟩

theorem component_lays (lays : body.Lays tokens) (sound : c.Sound tokens) (begins : c.Begins tokens start)
    (success : component body start c = .done m rest) : Placed tokens start c rest m := by
  obtain ⟨name, mid, head, success⟩ := bind_eq_done.1 success
  obtain ⟨o, last, read, success⟩ := bind_eq_done.1 success
  obtain ⟨rfl, rfl⟩ := ended_eq_done.1 success
  have inner := sound.walk (componentHead_walks head)
  have later := begins.rank_lt sound (componentHead_walks head) (componentHead_passes.takes head).2
  obtain ⟨walk, ⟨t, front, range⟩, laid⟩ := object_lays lays inner read
  have starts := inner.front t front
  have ends := inner.rank_le walk
  refine ⟨(componentHead_walks head).trans walk, rfl, ?_, ?_, laid⟩
  · exact (inner.walk walk).faithful begins.token (Nat.lt_of_lt_of_le later ends)
  · rw [range]
    exact ⟨Position.le_iff_rank.mpr (by simp only; omega), Position.le_iff_rank.mpr (Nat.le_refl _)⟩

/-- The objects in the value of a member that starts before the value. -/
theorem Lined.within {objects : List ObjectNode} (lined : Lined tokens c rest objects)
    (later : start.rank < c.lastEnd.rank) : ∀ o ∈ objects, o.range.Within ⟨start, rest.lastEnd⟩ := by
  intro o member
  obtain ⟨starts, stops⟩ := lined.row.between o.range (List.mem_map_of_mem member)
  exact ⟨Position.le_iff_rank.mpr (by simp only; omega), Position.le_iff_rank.mpr stops⟩

theorem property_lays (lays : body.Lays tokens) (sound : c.Sound tokens) (begins : c.Begins tokens start)
    (success : property body start c = .done m rest) : Placed tokens start c rest m := by
  obtain ⟨⟨name, type⟩, mid, head, success⟩ := bind_eq_done.1 success
  have walk := propertyHead_walks head
  have inner := sound.walk walk
  have later := begins.rank_lt sound walk (propertyHead_passes.takes head).2
  simp only [cursor_bind] at success
  split at success
  · obtain ⟨_, bound, passed, success⟩ := bind_eq_done.1 success
    obtain ⟨objects, last, read, success⟩ := bind_eq_done.1 success
    obtain ⟨rfl, rfl⟩ := ended_eq_done.1 success
    have behind := Nat.lt_of_lt_of_le later (inner.rank_le (next_walks passed))
    have deeper := inner.walk (next_walks passed)
    have lined := value_lays lays deeper read
    have whole := Nat.lt_of_lt_of_le behind (deeper.rank_le lined.walk)
    exact ⟨walk.trans ((next_walks passed).trans lined.walk), rfl,
      (deeper.walk lined.walk).faithful begins.token whole, lined.within behind, lined.row.inOrder, lined.laid⟩
  · obtain ⟨rfl, rfl⟩ := ended_eq_done.1 success
    exact ⟨walk, rfl, inner.faithful begins.token later, nofun, .nil, trivial⟩

theorem modified_lays (lays : body.Lays tokens) (sound : c.Sound tokens) (begins : c.Begins tokens start)
    (success : modified body start c = .done m rest) : Placed tokens start c rest m := by
  have walk := past_walk isModifier c
  have inner := sound.walk walk
  have later := begins.walk sound walk
  simp only [modified, skipWhile_bind, cursor_bind] at success
  split at success
  · obtain ⟨further, range, laid⟩ := property_lays lays inner later success
    exact ⟨walk.trans further, range, laid⟩
  · obtain ⟨⟨name, _⟩, mid, read, success⟩ := bind_eq_done.1 success
    obtain ⟨rfl, rfl⟩ := ended_eq_done.1 success
    have faithful := faithful_of_takes inner later (ident_walks read) (ident_passes.takes read).2
    exact ⟨walk.trans (ident_walks read), rfl, faithful, fun _ member => absurd member List.not_mem_nil, .nil, trivial⟩

theorem named_lays (lays : body.Lays tokens) (sound : c.Sound tokens) {t : Token} (front : c.peek = some t)
    (success : named body t.range.start c = .done m rest) : Placed tokens t.range.start c rest m := by
  obtain ⟨⟨name, range⟩, mid, read, success⟩ := bind_eq_done.1 success
  have walk := qualifiedName_walks read
  have inner := sound.walk walk
  have token := (sound.begins front).token
  have later := sound.rank_lt front walk (qualifiedName_passes.takes read).2
  simp only [cursor_bind] at success
  split at success
  · obtain ⟨other, same, starts⟩ := qualifiedName_start sound read
    rw [front] at same
    cases same
    obtain ⟨_, opened, passed, success⟩ := bind_eq_done.1 success
    obtain ⟨o, last, object, success⟩ := bind_eq_done.1 success
    cases success
    have behind := Nat.lt_of_lt_of_le later (inner.rank_le (beforeBody_walks passed))
    rw [starts] at object
    obtain ⟨further, range, laid⟩ := lays (inner.walk (beforeBody_walks passed)) token behind object
    exact ⟨walk.trans ((beforeBody_walks passed).trans further), range, laid⟩
  · split at success
    · obtain ⟨_, bound, passed, success⟩ := bind_eq_done.1 success
      obtain ⟨objects, last, value, success⟩ := bind_eq_done.1 success
      obtain ⟨rfl, rfl⟩ := ended_eq_done.1 success
      have behind := Nat.lt_of_lt_of_le later (inner.rank_le (next_walks passed))
      have deeper := inner.walk (next_walks passed)
      have lined := value_lays lays deeper value
      have whole := Nat.lt_of_lt_of_le behind (deeper.rank_le lined.walk)
      exact ⟨walk.trans ((next_walks passed).trans lined.walk), rfl, (deeper.walk lined.walk).faithful token whole,
        lined.within behind, lined.row.inOrder, lined.laid⟩
    · exact absurd success complain_ne_done

theorem member_lays (lays : body.Lays tokens) (sound : c.Sound tokens) (success : member body c = .done m rest) :
    ∃ t, c.peek = some t ∧ Placed tokens t.range.start c rest m := by
  simp only [member, cursor_bind] at success
  cases front : c.peek with
  | none =>
      rw [declaration?, front] at success
      exact absurd success complain_ne_done
  | some t =>
      have begins := sound.begins front
      refine ⟨t, rfl, ?_⟩
      cases named : c.word? with
      | none =>
          rw [declaration?, front, named] at success
          exact absurd success complain_ne_done
      | some w =>
          rw [declaration?, front, named] at success
          simp only at success
          cases kind : declarationOf c.isBindingName w with
          | id => exact idMember_lays sound begins (by rwa [kind] at success)
          | property => exact property_lays lays sound begins (by rwa [kind] at success)
          | modified => exact modified_lays lays sound begins (by rwa [kind] at success)
          | signal => exact signal_lays sound begins (by rwa [kind] at success)
          | function => exact function_lays sound begins (by rwa [kind] at success)
          | component => exact component_lays lays sound begins (by rwa [kind] at success)
          | enumeration => exact enumeration_lays sound begins (by rwa [kind] at success)
          | named => exact named_lays lays sound front (by rwa [kind] at success)

/-! ## Bodies -/

/-- Members that follow one another behind the opening brace. -/
structure Listed (tokens : List Token) (c d : Cursor) (read : List Member) : Prop where
  walk : c.Walk d
  row : Row c.lastEnd d.lastEnd (read.map Member.range)
  laid : membersLaid tokens read

theorem Listed.nil (walk : c.Walk rest) : Listed tokens c rest [] := ⟨walk, .nil _ _, trivial⟩

theorem Listed.further {d : Cursor} {read : List Member} (listed : Listed tokens c d read) (sound : c.Sound tokens)
    (walk : d.Walk rest) : Listed tokens c rest read :=
  ⟨listed.walk.trans walk, listed.row.widen ((sound.walk listed.walk).rank_le walk), listed.laid⟩

theorem Listed.member (lays : body.Lays tokens) (sound : c.Sound tokens) {d : Cursor} {read : List Member}
    (listed : Listed tokens c d read) (success : Reader.member body d = .done m rest) :
    Listed tokens c rest (read ++ [m]) := by
  have inner := sound.walk listed.walk
  obtain ⟨t, front, placed⟩ := member_lays lays inner success
  refine ⟨listed.walk.trans placed.walk, ?_, membersLaid_append.mpr ⟨listed.laid, placed.laid, trivial⟩⟩
  rw [List.map_append, List.map_singleton, placed.range]
  exact listed.row.snoc (sound.rank_le listed.walk) (inner.rank_le placed.walk) (inner.front t front) (Nat.le_refl _)

/-- The closing brace stands behind all members. -/
theorem Listed.close {d : Cursor} {read : List Member} (listed : Listed tokens c d read) (sound : c.Sound tokens)
    (token : ∃ t ∈ tokens, t.range.start = start) (later : start.rank < c.lastEnd.rank) {t : Token}
    (front : d.peek = some t) (walk : d.Walk rest) (shorter : rest.tokens.length < d.tokens.length) (name : String) :
    (ObjectNode.mk name ⟨start, rest.lastEnd⟩ read).Laid tokens := by
  have inner := sound.walk listed.walk
  have brace := inner.front t front
  have close := inner.rank_lt front walk shorter
  have low := sound.rank_le listed.walk
  refine ⟨(inner.walk walk).faithful token (by omega), fun m member => ?_, listed.row.inOrder, listed.laid⟩
  obtain ⟨starts, stops⟩ := listed.row.between m.range (List.mem_map_of_mem member)
  exact ⟨Position.lt_iff_rank.mpr (by simp only; omega), Position.lt_iff_rank.mpr (by simp only; omega)⟩

theorem members_lays (lays : body.Lays tokens) : (members body).Lays tokens := by
  intro name start c o rest sound token later success
  obtain ⟨_, opened, brace, loop⟩ := bind_eq_done.1 success
  refine iterate_invariant (P := fun read d => Listed tokens c d read)
    (Q := fun o d => c.Walk d ∧ o.range = ⟨start, d.lastEnd⟩ ∧ o.Laid tokens) ?_ ?_
    (Listed.nil (punct_walks _ brace)) loop
  · intro read d next last listed turn
    have settled := listed.further sound (past_walk endsStatement d)
    rw [membersTurn_apply] at turn
    split at turn
    · cases turn
    · split at turn
      · obtain ⟨_, _, _, same⟩ := bind_eq_done.1 turn
        cases same
      · obtain ⟨m, _, taken, same⟩ := bind_eq_done.1 turn
        cases same
        exact settled.member lays sound taken
  · intro read d found last listed turn
    have settled := listed.further sound (past_walk endsStatement d)
    rw [membersTurn_apply] at turn
    split at turn
    · cases turn
    · rename_i t front
      split at turn
      · obtain ⟨_, _, taken, ended⟩ := bind_eq_done.1 turn
        obtain ⟨same, rfl⟩ := ended_eq_done.1 ended
        cases same
        have walk := next_walks taken
        have shorter : last.tokens.length < (d.past endsStatement).tokens.length := by
          generalize d.past endsStatement = e at front taken
          obtain ⟨_ | ⟨u, us⟩, _⟩ := e
          · cases front
          · cases taken
            exact Nat.lt_succ_self _
        exact ⟨settled.walk.trans walk, rfl, settled.close sound token later front walk shorter name⟩
      · obtain ⟨_, _, _, same⟩ := bind_eq_done.1 turn
        cases same

theorem body_lays (tokens : List Token) (limit levels : Nat) : (Reader.body limit levels).Lays tokens := by
  induction levels with
  | zero =>
      intro name start c o rest _ _ _ success
      exact absurd success complain_ne_done
  | succ levels ih => exact members_lays ih

/-! ## Headers -/

/-- A word that comes after the separators does not touch the last token taken. -/
def Apart (c : Cursor) : Prop :=
  ∀ u, (c.past endsStatement).peek = some u → u.ident?.isSome = true → c.lastEnd.rank < u.range.start.rank

theorem apart_of_separated (sound : c.Sound tokens) (ends : ∀ u ∈ c.peek, endsStatement u = true) : Apart c := by
  intro u front _
  obtain ⟨_ | ⟨t, ts⟩, e⟩ := c
  · cases front
  · have here : e.rank ≤ t.range.start.rank := sound.front t rfl
    have proper := (sound.among t List.mem_cons_self).2
    have rest : (Cursor.mk (t :: ts) e).past endsStatement = (Cursor.mk ts t.range.stop).past endsStatement := by
      simp [Cursor.past, Cursor.skipWhile, ends t rfl]
    have walk := past_walk endsStatement ⟨ts, t.range.stop⟩
    have low := sound.step.rank_le walk
    rw [rest] at front
    have next := (sound.step.walk walk).front u front
    simp only at low ⊢
    omega

/-- Behind a word, a separator or another word follows. -/
theorem apart_of_word {t : Token} {ts : List Token} {e : Position} (sound : Cursor.Sound tokens ⟨t :: ts, e⟩)
    (word : t.ident?.isSome = true) : Apart ⟨ts, t.range.stop⟩ := by
  cases ts with
  | nil => nofun
  | cons u us =>
      by_cases ends : endsStatement u = true
      · apply apart_of_separated sound.step
        intro v front
        cases front
        exact ends
      · intro v front other
        have same : (Cursor.mk (u :: us) t.range.stop).past endsStatement = ⟨u :: us, t.range.stop⟩ := by
          simp [Cursor.past, Cursor.skipWhile, ends]
        rw [same] at front
        cases front
        exact Position.lt_iff_rank.mp (((List.isChain_cons_cons.mp sound.chain).1).2 word other)

/-- A statement of the header, from its first word to where its reader ends. -/
structure States (c rest : Cursor) (range : TextRange) : Prop where
  walk : c.Walk rest
  shorter : rest.tokens.length < c.tokens.length
  range : ∃ t, c.peek = some t ∧ t.ident?.isSome = true ∧ range = ⟨t.range.start, rest.lastEnd⟩
  apart : Apart rest

theorem word_start {w : String} {range : TextRange} (success : word w c = .done range rest) :
    ∃ t, c.peek = some t ∧ t.ident?.isSome = true ∧ range = t.range := by
  obtain ⟨t, ts, front, found, _⟩ := accept_eq_done success
  refine ⟨t, by rw [Cursor.peek, front]; rfl, ?_⟩
  split at found
  · rename_i same
    cases found
    rw [beq_iff_eq] at same
    exact ⟨by rw [same]; rfl, rfl⟩
  · cases found

theorem pragma_states (sound : c.Sound tokens) {p : Pragma} (success : pragma c = .done p rest) :
    States c rest p.range := by
  have walk := pragma_walks success
  have shorter := (pragma_passes.takes success).2
  obtain ⟨range, first, keyword, success⟩ := bind_eq_done.1 success
  obtain ⟨t, front, word, rfl⟩ := word_start keyword
  have inner := sound.walk (word_walks _ keyword)
  obtain ⟨⟨name, _⟩, mid, read, success⟩ := bind_eq_done.1 success
  have further := inner.walk (ident_walks read)
  simp only [cursor_bind] at success
  split at success
  · obtain ⟨_, bound, passed, success⟩ := bind_eq_done.1 success
    simp only [cursor_bind, skipWhile_bind] at success
    obtain ⟨rfl, rfl⟩ := ended_eq_done.1 success
    refine ⟨walk, shorter, ⟨t, front, word, rfl⟩, ?_⟩
    apply apart_of_separated ((further.walk (next_walks passed)).walk (past_walk _ bound))
    intro u stops
    simpa using not_of_past_peek stops
  · obtain ⟨rfl, rfl⟩ := ended_eq_done.1 success
    refine ⟨walk, shorter, ⟨t, front, word, rfl⟩, ?_⟩
    obtain ⟨ts, e⟩ := first
    obtain ⟨u, us, rfl, found, rfl⟩ := accept_eq_done read
    obtain ⟨_, named, _⟩ := Option.map_eq_some_iff.mp found
    exact apart_of_word inner (by rw [named]; rfl)

theorem importStatement_states (sound : c.Sound tokens) {i : ImportStatement}
    (success : importStatement c = .done i rest) : States c rest i.range := by
  have shorter := (importStatement_passes.takes success).2
  obtain ⟨range, first, keyword, success⟩ := bind_eq_done.1 success
  obtain ⟨t, front, word, rfl⟩ := word_start keyword
  obtain ⟨target, second, pointed, success⟩ := bind_eq_done.1 success
  obtain ⟨version, third, versioned, success⟩ := bind_eq_done.1 success
  obtain ⟨qualifier, last, qualified, success⟩ := bind_eq_done.1 success
  have walk := (word_walks _ keyword).trans ((importTarget_walks pointed).trans
    ((importVersion_walks versioned).trans (importQualifier_walks qualified)))
  rw [cursor_bind] at success
  cases next : last.peek with
  | none =>
      simp only [next] at success
      obtain ⟨rfl, rfl⟩ := ended_eq_done.1 success
      refine ⟨walk, shorter, ⟨t, front, word, rfl⟩, apart_of_separated (sound.walk walk) fun v other => ?_⟩
      rw [next] at other
      cases other
  | some u =>
      simp only [next] at success
      split at success
      · rename_i ends
        obtain ⟨rfl, rfl⟩ := ended_eq_done.1 success
        refine ⟨walk, shorter, ⟨t, front, word, rfl⟩, apart_of_separated (sound.walk walk) fun v other => ?_⟩
        rw [next] at other
        cases other
        exact ends
      · cases success

/-- Ranges of statements that follow one another, and that the next word does not touch. -/
structure Stated (tokens : List Token) (c : Cursor) (l : List TextRange) : Prop where
  faithful : ∀ r ∈ l, r.Faithful tokens
  before : ∀ r ∈ l, ∀ u, (c.past endsStatement).peek = some u → u.ident?.isSome = true →
    r.stop.rank < u.range.start.rank
  inOrder : l.Pairwise TextRange.WellBefore

theorem Stated.nil (tokens : List Token) (c : Cursor) : Stated tokens c [] := ⟨nofun, nofun, .nil⟩

/-- Another statement is read behind them. -/
theorem Stated.keep {l : List TextRange} {range : TextRange} (stated : Stated tokens c l) (sound : c.Sound tokens)
    (states : States (c.past endsStatement) rest range) : Stated tokens rest l := by
  refine ⟨stated.faithful, fun r member u front _ => ?_, stated.inOrder⟩
  obtain ⟨t, first, word, _⟩ := states.range
  have settled := sound.walk (past_walk endsStatement c)
  have behind := stated.before r member t first word
  have through := settled.rank_lt first states.walk states.shorter
  have inner := settled.walk states.walk
  have low := inner.rank_le (past_walk endsStatement rest)
  have next := (inner.walk (past_walk endsStatement rest)).front u front
  omega

/-- The statement is one of them. -/
theorem Stated.snoc {l : List TextRange} {range : TextRange} (stated : Stated tokens c l) (sound : c.Sound tokens)
    (states : States (c.past endsStatement) rest range) : Stated tokens rest (l ++ [range]) := by
  have kept := stated.keep sound states
  obtain ⟨t, first, word, rfl⟩ := states.range
  have settled := sound.walk (past_walk endsStatement c)
  have through := settled.rank_lt first states.walk states.shorter
  refine ⟨fun r member => ?_, fun r member u front other => ?_, ?_⟩
  · rcases List.mem_append.mp member with inside | last
    · exact stated.faithful r inside
    · cases List.mem_singleton.mp last
      exact (settled.walk states.walk).faithful (settled.begins first).token through
  · rcases List.mem_append.mp member with inside | last
    · exact kept.before r inside u front other
    · cases List.mem_singleton.mp last
      exact states.apart u front other
  · rw [List.pairwise_append]
    refine ⟨stated.inOrder, List.pairwise_singleton .., fun a member b last => ?_⟩
    cases List.mem_singleton.mp last
    exact Position.lt_iff_rank.mpr (stated.before a member t first word)

/-- The header, before its end and where it ends. -/
structure Headed (tokens : List Token) (h : Header) (c : Cursor) : Prop where
  sound : c.Sound tokens
  pragmas : Stated tokens c (h.1.map Pragma.range)
  imports : Stated tokens c (h.2.map ImportStatement.range)

theorem header_lays (sound : c.Sound tokens) {h : Header} (success : header c = .done h rest) :
    Headed tokens h rest := by
  refine iterate_invariant (P := fun h c => Headed tokens h c) (Q := fun h c => Headed tokens h c) ?_ ?_
    ⟨sound, .nil _ _, .nil _ _⟩ success
  · rintro ⟨pragmas, imports⟩ c next rest ⟨sound, earlier, others⟩ turn
    have settled := sound.walk (past_walk endsStatement c)
    simp only [headerTurn, skipSeparators_bind, cursor_bind] at turn
    split at turn
    · obtain ⟨p, _, read, same⟩ := bind_eq_done.1 turn
      cases same
      have states := pragma_states settled read
      refine ⟨settled.walk states.walk, ?_, others.keep sound states⟩
      rw [List.map_append, List.map_singleton]
      exact earlier.snoc sound states
    · split at turn
      · obtain ⟨i, _, read, same⟩ := bind_eq_done.1 turn
        cases same
        have states := importStatement_states settled read
        refine ⟨settled.walk states.walk, earlier.keep sound states, ?_⟩
        rw [List.map_append, List.map_singleton]
        exact others.snoc sound states
      · cases turn
  · rintro h c found rest ⟨sound, pragmas, imports⟩ turn
    simp only [headerTurn, skipSeparators_bind, cursor_bind] at turn
    split at turn
    · obtain ⟨_, _, _, same⟩ := bind_eq_done.1 turn
      cases same
    · split at turn
      · obtain ⟨_, _, _, same⟩ := bind_eq_done.1 turn
        cases same
      · cases turn
        refine ⟨sound.walk (past_walk _ c), ⟨pragmas.faithful, ?_, pragmas.inOrder⟩,
          ⟨imports.faithful, ?_, imports.inOrder⟩⟩
        · rw [past_past]
          exact pragmas.before
        · rw [past_past]
          exact imports.before

/-- An object starts with a word, before which no separator is passed. -/
theorem object_word {o : ObjectNode} (success : object body c = .done o rest) :
    ∃ t, c.peek = some t ∧ t.ident?.isSome = true ∧ c.past endsStatement = c := by
  obtain ⟨_, _, head, _⟩ := bind_eq_done.1 success
  obtain ⟨_, _, named, _⟩ := bind_eq_done.1 head
  obtain ⟨_, _, read, _⟩ := bind_eq_done.1 named
  obtain ⟨ts, e⟩ := c
  obtain ⟨t, ts, rfl, found, _⟩ := accept_eq_done read
  obtain ⟨w, word, _⟩ := Option.map_eq_some_iff.mp found
  have inside : endsStatement t = false := by
    rw [Token.ident?] at word
    cases kind : t.kind <;> simp_all [endsStatement, Token.isNewline, Token.isPunct]
  exact ⟨t, rfl, by rw [word]; rfl, by simp [Cursor.past, Cursor.skipWhile, inside]⟩

theorem document_lays (sound : c.Sound tokens) {limit : Nat} {d : Document}
    (success : document limit c = .done d rest) : d.Laid tokens := by
  obtain ⟨⟨pragmas, imports⟩, mid, header, success⟩ := bind_eq_done.1 success
  have headed := header_lays sound header
  simp only [cursor_bind] at success
  split at success
  · cases success
  · obtain ⟨root, last, read, success⟩ := bind_eq_done.1 success
    obtain ⟨_, _, _, same⟩ := bind_eq_done.1 success
    cases same
    obtain ⟨_, ⟨t, front, range⟩, laid⟩ := object_lays (body_lays tokens limit limit) headed.sound read
    obtain ⟨u, same, word, settled⟩ := object_word read
    rw [front] at same
    cases same
    have before {l : List TextRange} (stated : Stated tokens mid l) : ∀ r ∈ l, r.WellBefore root.range := by
      intro r member
      rw [TextRange.WellBefore, range, Position.lt_iff_rank]
      exact stated.before r member t (by rw [settled, front]) word
    exact ⟨fun p member => ⟨headed.pragmas.faithful _ (List.mem_map_of_mem member),
        before headed.pragmas _ (List.mem_map_of_mem member)⟩, headed.pragmas.inOrder,
      fun i member => ⟨headed.imports.faithful _ (List.mem_map_of_mem member),
        before headed.imports _ (List.mem_map_of_mem member)⟩, headed.imports.inOrder, laid⟩

end Reader

theorem sound_of_scan {text : List Char} {tokens : List Token} (counts : Position.origin.Counts text)
    (scanned : Token.scan text = .ok tokens) : Cursor.Sound tokens ⟨tokens, .origin⟩ := by
  obtain ⟨proper, chain⟩ := Token.scan_places counts scanned
  refine ⟨fun t member => ⟨member, Position.lt_iff_rank.mp (proper t member)⟩, chain, fun t _ => ?_,
    .inl Position.rank_origin⟩
  rw [Position.rank_origin]
  exact Nat.zero_le _

/-- The ranges of a document that is read from a text go from token to token. They also nest, unless the text is so long
    that the lines, or the characters of a line, cannot be counted. -/
theorem ranges_laminar {text : List Char} {d : Document} (parsed : parse text = .parsed d) :
    ∃ tokens, Token.scan text = .ok tokens ∧ d.Marked tokens ∧ (Position.origin.Counts text → d.Laid tokens) := by
  obtain ⟨tokens, rest, scanned, read⟩ := document_of_parse parsed
  exact ⟨tokens, scanned, Reader.document_marks tokens read, fun counts =>
    Reader.document_lays (sound_of_scan counts scanned) read⟩

/-- A text with a header, a value that ends with its line, objects in a list and an operator at the end of a line. -/
def nestedText : List Char :=
  ("pragma A\nimport B 1.0\n\nC \x7b\n id: d\n property list<E> f: [G \x7b\x7d, H \x7b i: 1 \x7d]\n" ++
    " j: 1 +\n  2\n component K: L.M \x7b n: \x7d\n\x7d\n").toList

set_option maxRecDepth 10000 in
theorem ranges_laminar_nested : ∃ d, parse nestedText = .parsed d ∧
    ∃ tokens, Token.scan nestedText = .ok tokens ∧ d.Marked tokens ∧ d.Laid tokens := by
  obtain ⟨d, parsed⟩ := Reading.exists_parsed (show (parse nestedText).isParsed = true by decide +kernel)
  have short : nestedText.length < 4294967296 := by decide
  obtain ⟨tokens, scanned, marked, laid⟩ := ranges_laminar parsed
  exact ⟨d, parsed, tokens, scanned, marked, laid (Position.counts_of_length short)⟩

/-! ## A line that is too long -/

/-- Behind so many blanks, a text is read as if it stood where the count of characters is after them. -/
theorem parse_blanks (n : Nat) {text : List Char} (whole : (Cut.ofText text).fault = none) :
    parse (List.replicate n ' ' ++ text) =
      ofTokens maxNesting (Token.place ⟨0, UInt32.ofNat n⟩ (Cut.ofText text).pieces) := by
  rw [parse, Token.scan_blanks n whole]

/-- An object that starts as far to the right as can be counted, so that it ends at the beginning of its line. -/
def farText : List Char := List.replicate 4294967294 ' ' ++ ['A', '\x7b', '\x7d']

def rootRange? : Reading → Option TextRange
  | .parsed d => some d.root.range
  | .failed _ | .stuck => none

/-- The ranges of a document do not nest, nor is the range of the root one, in a line with too many characters. -/
theorem ranges_run_over : ∃ d, parse farText = .parsed d ∧ d.root.range.start.lt d.root.range.stop = false ∧
    ¬ ∃ tokens, Token.scan farText = .ok tokens ∧ d.Laid tokens := by
  have found : rootRange? (parse farText) = some ⟨⟨0, 4294967294⟩, ⟨0, 1⟩⟩ := by
    rw [farText, parse_blanks _ (by decide +kernel)]
    decide +kernel
  cases read : parse farText with
  | parsed d =>
      rw [read] at found
      have range : d.root.range = ⟨⟨0, 4294967294⟩, ⟨0, 1⟩⟩ := Option.some.inj found
      have empty : d.root.range.start.lt d.root.range.stop = false := by rw [range]; decide
      refine ⟨d, rfl, empty, ?_⟩
      rintro ⟨tokens, _, laid⟩
      have proper := laid.root.faithful.proper
      rw [empty] at proper
      cases proper
  | failed | stuck =>
      rw [read] at found
      cases found

end Document

end QmlIndex
