import QmlIndex.Summary
import QmlIndex.Proofs.Document.Laminar
import QmlIndex.Proofs.Document.Nesting
import QmlIndex.Proofs.Document.Traversal

/-! # The symbols of a document

The symbols are what the objects of the tree and their members declare, in the order of the places of the declarations.
As the ranges of a document nest, its symbols start one after the other, and of two symbols one is inside the other or
they are apart. The one thing that nesting does not tell is that the objects in the value of a property start behind the
start of the property.
-/

namespace QmlIndex

/-- The symbol of an object. -/
def ObjectNode.symbol (o : ObjectNode) : Symbol := ⟨o.typeName, o.typeName, .object, o.range⟩

/-- The symbol that a member declares; an id is typed by the object it stands in. -/
def Member.symbol? (owner : ObjectNode) : Member → Option Symbol
  | .id name range => some ⟨name, owner.typeName, .id, range⟩
  | .property name typeName range _ => some ⟨name, typeName, .property, range⟩
  | .signal name range => some ⟨name, "signal", .signal, range⟩
  | .function name range => some ⟨name, "function", .function, range⟩
  | .component _ _ _ | .enum _ _ | .binding _ _ _ | .object _ => none

/-- The name of an inline component. -/
def Member.component? : Member → Option String
  | .component name _ _ => some name
  | _ => none

namespace ObjectNode

/-- A symbol is declared at a place in the tree. -/
def Declares (root : ObjectNode) : List Nat → Symbol → Prop :=
  Found (fun o => some o.symbol) (fun o m => m.symbol? o) root

/-- An inline component has this name at a place in the tree. -/
def NamesComponent (root : ObjectNode) : List Nat → String → Prop :=
  Found (fun _ => none) (fun _ m => m.component?) root

end ObjectNode

/-! ## What is listed -/

theorem objectSymbols_eq_flatMap (objects : List ObjectNode) :
    objectSymbols objects = objects.flatMap ObjectNode.symbols := by
  induction objects with
  | nil => rfl
  | cons o rest ih => rw [objectSymbols, ih, List.flatMap_cons]

theorem memberSymbols_eq_flatMap (owner : String) (members : List Member) :
    memberSymbols owner members = members.flatMap (Member.symbols owner) := by
  induction members with
  | nil => rfl
  | cons m rest ih => rw [memberSymbols, ih, List.flatMap_cons]

theorem objectComponents_eq_flatMap (objects : List ObjectNode) :
    objectComponents objects = objects.flatMap ObjectNode.inlineComponents := by
  induction objects with
  | nil => rfl
  | cons o rest ih => rw [objectComponents, ih, List.flatMap_cons]

theorem memberComponents_eq_flatMap (members : List Member) :
    memberComponents members = members.flatMap Member.inlineComponents := by
  induction members with
  | nil => rfl
  | cons m rest ih => rw [memberComponents, ih, List.flatMap_cons]

theorem Member.symbols_eq (owner : ObjectNode) (m : Member) :
    m.symbols owner.typeName = (m.symbol? owner).toList ++ m.objects.flatMap ObjectNode.symbols := by
  cases m <;> simp [Member.symbols, Member.symbol?, Member.objects, objectSymbols_eq_flatMap]

theorem Member.inlineComponents_eq (m : Member) :
    m.inlineComponents = m.component?.toList ++ m.objects.flatMap ObjectNode.inlineComponents := by
  cases m <;> simp [Member.inlineComponents, Member.component?, Member.objects, objectComponents_eq_flatMap]

namespace ObjectNode

theorem symbols_eq (o : ObjectNode) : o.symbols =
    [o.symbol] ++ o.members.flatMap fun m => (m.symbol? o).toList ++ m.objects.flatMap ObjectNode.symbols := by
  cases o with
  | mk typeName range members =>
      rw [ObjectNode.symbols, memberSymbols_eq_flatMap]
      refine congrArg (_ :: ·) (List.flatMap_congr fun m _ => ?_)
      exact m.symbols_eq (.mk typeName range members)

theorem inlineComponents_eq (o : ObjectNode) : o.inlineComponents =
    o.members.flatMap fun m => m.component?.toList ++ m.objects.flatMap ObjectNode.inlineComponents := by
  cases o
  rw [ObjectNode.inlineComponents, memberComponents_eq_flatMap]
  exact List.flatMap_congr fun m _ => m.inlineComponents_eq

theorem lists_symbols (root : ObjectNode) : Lists root.Declares root.symbols :=
  lists_of_traversal symbols_eq root

theorem lists_inlineComponents (root : ObjectNode) : Lists root.NamesComponent root.inlineComponents :=
  lists_of_traversal inlineComponents_eq root

end ObjectNode

/-! ## Ranges in order -/

/-- Ranges that start one after the other inside a range, of which any two nest or are apart. -/
structure Arranged (whole : TextRange) (l : List TextRange) : Prop where
  proper : ∀ r ∈ l, r.start.rank < r.stop.rank
  inside : ∀ r ∈ l, r.Within whole
  starts : l.Pairwise fun a b => a.start.lt b.start = true
  nested : l.Pairwise fun a b => b.Within a ∨ a.Before b

theorem TextRange.Within.trans {a b c : TextRange} (inner : a.Within b) (outer : b.Within c) : a.Within c := by
  simp only [Within, Position.le_iff_rank] at *
  omega

namespace Arranged

variable {whole outer : TextRange} {l : List TextRange}

theorem widen (arranged : Arranged whole l) (inside : whole.Within outer) : Arranged outer l where
  proper := arranged.proper
  inside := fun r member => (arranged.inside r member).trans inside
  starts := arranged.starts
  nested := arranged.nested

theorem nil (whole : TextRange) : Arranged whole [] := ⟨nofun, nofun, .nil, .nil⟩

/-- A range comes before those that start inside it. -/
theorem cons (arranged : Arranged whole l) (proper : whole.start.rank < whole.stop.rank)
    (behind : ∀ r ∈ l, whole.start.lt r.start = true) : Arranged whole (whole :: l) where
  proper := List.forall_mem_cons.mpr ⟨proper, arranged.proper⟩
  inside := List.forall_mem_cons.mpr ⟨by simp [TextRange.Within, Position.le_iff_rank], arranged.inside⟩
  starts := List.pairwise_cons.mpr ⟨behind, arranged.starts⟩
  nested := List.pairwise_cons.mpr ⟨fun r member => .inl (arranged.inside r member), arranged.nested⟩

theorem append {k : List TextRange} (first : Arranged whole l) (second : Arranged whole k)
    (apart : ∀ r ∈ l, ∀ s ∈ k, r.Before s) : Arranged whole (l ++ k) := by
  have later : ∀ r ∈ l, ∀ s ∈ k, r.start.lt s.start = true := by
    intro r here s there
    have proper := first.proper r here
    have before := Position.le_iff_rank.mp (apart r here s there)
    exact Position.lt_iff_rank.mpr (by omega)
  constructor
  · exact List.forall_mem_append.mpr ⟨first.proper, second.proper⟩
  · exact List.forall_mem_append.mpr ⟨first.inside, second.inside⟩
  · exact List.pairwise_append.mpr ⟨first.starts, second.starts, later⟩
  · exact List.pairwise_append.mpr ⟨first.nested, second.nested, fun r here s there => .inr (apart r here s there)⟩

/-- What is arranged inside ranges that follow one another. -/
theorem flatMap {β : Type} {range : β → TextRange} {f : β → List TextRange} {items : List β}
    (each : ∀ x ∈ items, Arranged (range x) (f x)) (inside : ∀ x ∈ items, (range x).Within whole)
    (inOrder : (items.map range).Pairwise TextRange.Before) : Arranged whole (items.flatMap f) := by
  induction items with
  | nil => exact nil whole
  | cons x rest ih =>
      rw [List.map_cons, List.pairwise_cons] at inOrder
      rw [List.flatMap_cons]
      have first := each x List.mem_cons_self
      refine (first.widen (inside x List.mem_cons_self)).append
        (ih (fun y member => each y (List.mem_cons_of_mem x member))
          (fun y member => inside y (List.mem_cons_of_mem x member)) inOrder.2) fun r here s there => ?_
      obtain ⟨y, member, there⟩ := List.mem_flatMap.mp there
      have low := first.inside r here
      have high := (each y (List.mem_cons_of_mem x member)).inside s there
      have before := inOrder.1 _ (List.mem_map_of_mem member)
      simp only [TextRange.Within, TextRange.Before, Position.le_iff_rank] at *
      omega

end Arranged

/-- The objects in the value of a property start behind the property. -/
def Member.Leads : Member → Prop
  | .property _ _ range objects => ∀ o ∈ objects, range.start.lt o.range.start = true
  | _ => True

/-- In the whole tree values start behind their properties. -/
inductive ObjectNode.Spaced : ObjectNode → Prop where
  | mk {o : ObjectNode} (members : ∀ m ∈ o.members, m.Leads) (inner : ∀ m ∈ o.members, ∀ i ∈ m.objects, i.Spaced) : o.Spaced

/-- A member starts before its value, and so it is in the objects in it. -/
def Member.Spaced (m : Member) : Prop := m.Leads ∧ ∀ o ∈ m.objects, o.Spaced

section

variable {tokens : List Token}

theorem objectsLaid_iff {objects : List ObjectNode} : objectsLaid tokens objects ↔ ∀ o ∈ objects, o.Laid tokens := by
  induction objects with
  | nil => simp [objectsLaid]
  | cons o rest ih => rw [objectsLaid, ih, List.forall_mem_cons]

theorem membersLaid_iff {members : List Member} : membersLaid tokens members ↔ ∀ m ∈ members, m.Laid tokens := by
  induction members with
  | nil => simp [membersLaid]
  | cons m rest ih => rw [membersLaid, ih, List.forall_mem_cons]

/-- What it is for a member to be laid out does not depend on its kind. -/
theorem Member.Laid.parts {m : Member} (laid : m.Laid tokens) : m.range.start.rank < m.range.stop.rank ∧
    (∀ o ∈ m.objects, o.range.Within m.range) ∧ (m.objects.map ObjectNode.range).Pairwise TextRange.Before ∧
      ∀ o ∈ m.objects, o.Laid tokens := by
  cases m with
  | id | signal | function | enum =>
      exact ⟨Position.lt_iff_rank.mp laid.proper, nofun, .nil, nofun⟩
  | property | binding =>
      obtain ⟨faithful, inside, inOrder, laid⟩ := laid
      exact ⟨Position.lt_iff_rank.mp faithful.proper, inside, inOrder, objectsLaid_iff.mp laid⟩
  | component name range o =>
      obtain ⟨faithful, inside, laid⟩ := laid
      refine ⟨Position.lt_iff_rank.mp faithful.proper, ?_, List.pairwise_singleton .., ?_⟩
      · simpa [objects, Member.range] using inside
      · simpa [objects] using laid
  | object o =>
      have laid : o.Laid tokens := laid
      refine ⟨Position.lt_iff_rank.mp laid.faithful.proper, ?_, List.pairwise_singleton .., ?_⟩
      · simp [objects, Member.range, TextRange.Within, Position.le_iff_rank]
      · simpa [objects] using laid

theorem Member.symbol?_range {owner : ObjectNode} {m : Member} {s : Symbol} (own : m.symbol? owner = some s) :
    s.range = m.range := by
  cases m <;> simp_all [symbol?, Member.range] <;> simp [← own]

/-- A member with a symbol starts before the objects in it. -/
theorem Member.Leads.before {owner : ObjectNode} {m : Member} {s : Symbol} (leads : m.Leads)
    (own : m.symbol? owner = some s) : ∀ o ∈ m.objects, m.range.start.lt o.range.start = true := by
  cases m with
  | property => exact leads
  | id | signal | function => nofun
  | component | enum | binding | object => cases own

/-- The symbols of a member are inside its range, with its own symbol in front. -/
theorem Member.Laid.symbols {m : Member} (laid : m.Laid tokens) (leads : m.Leads) (owner : ObjectNode)
    (deeper : ∀ o ∈ m.objects, Arranged o.range (o.symbols.map Symbol.range)) :
    Arranged m.range (((m.symbol? owner).toList ++ m.objects.flatMap ObjectNode.symbols).map Symbol.range) := by
  obtain ⟨proper, inside, inOrder, _⟩ := laid.parts
  have inner : Arranged m.range (m.objects.flatMap fun o => o.symbols.map Symbol.range) := .flatMap deeper inside inOrder
  rw [List.map_append, List.map_flatMap]
  cases own : m.symbol? owner with
  | none => exact inner
  | some s =>
      rw [Option.toList_some, List.map_singleton, Member.symbol?_range own]
      refine inner.cons proper fun r there => ?_
      obtain ⟨o, within, there⟩ := List.mem_flatMap.mp there
      have start := Position.lt_iff_rank.mp (leads.before own o within)
      have low := Position.le_iff_rank.mp ((deeper o within).inside r there).1
      exact Position.lt_iff_rank.mpr (Nat.lt_of_lt_of_le start low)

theorem TextRange.Inside.within {a b : TextRange} (inside : a.Inside b) : a.Within b :=
  ⟨Position.le_iff_rank.mpr (Nat.le_of_lt (Position.lt_iff_rank.mp inside.1)),
    Position.le_iff_rank.mpr (Nat.le_of_lt (Position.lt_iff_rank.mp inside.2))⟩

theorem ObjectNode.arranged {o : ObjectNode} (laid : o.Laid tokens) (spaced : o.Spaced) :
    Arranged o.range (o.symbols.map Symbol.range) := by
  induction o using inwards with
  | step o ih =>
      obtain ⟨leads, inner⟩ := spaced
      rw [symbols_eq, List.map_append, List.map_singleton, List.map_flatMap]
      obtain ⟨name, range, members⟩ := o
      obtain ⟨faithful, inside, inOrder, laid⟩ := laid
      have each : ∀ m ∈ members, Arranged m.range _ := fun m member =>
        have laid := membersLaid_iff.mp laid m member
        laid.symbols (leads m member) (.mk name range members) fun o within =>
          ih m member o within (laid.parts.2.2.2 o within) (inner m member o within)
      have whole := Arranged.flatMap each (fun m member => (inside m member).within) inOrder
      refine whole.cons (Position.lt_iff_rank.mp faithful.proper) fun r there => ?_
      obtain ⟨m, member, there⟩ := List.mem_flatMap.mp there
      have start := Position.lt_iff_rank.mp (inside m member).1
      have low := Position.le_iff_rank.mp ((each m member).inside r there).1
      exact Position.lt_iff_rank.mpr (Nat.lt_of_lt_of_le start low)

end

namespace Document

namespace Reader

variable {α β σ : Type} {tokens : List Token} {P : β → Prop} {Q : α → Prop}

/-! ## Readers that space what they read -/

instance : Cursor.Stable (Cursor.Sound tokens) where
  walk := Cursor.Sound.walk

def BodyReader.Spaces (tokens : List Token) (body : BodyReader) : Prop :=
  ∀ name start, Finds (Cursor.Sound tokens) ObjectNode.Spaced (body name start)

variable {body : BodyReader} {c rest : Cursor} {start : Position} {m : Member}

theorem object_finds (spaces : body.Spaces tokens) : Finds (Cursor.Sound tokens) ObjectNode.Spaced (object body) :=
  .after (qualifiedName_walks.bind fun _ => beforeBody_walks.bind fun _ => pure_walks _) fun head => spaces head.1 head.2

/-- The value of a property is read behind the place where the property starts. -/
theorem property_spaced (lays : body.Lays tokens) (spaces : body.Spaces tokens) (sound : c.Sound tokens)
    (begins : c.Begins tokens start) (success : property body start c = .done m rest) : m.Spaced := by
  obtain ⟨⟨name, type⟩, mid, head, success⟩ := bind_eq_done.1 success
  have inner := sound.walk (propertyHead_walks head)
  have later := begins.rank_lt sound (propertyHead_walks head) (propertyHead_passes.takes head).2
  simp only [cursor_bind] at success
  split at success
  · obtain ⟨_, bound, passed, success⟩ := bind_eq_done.1 success
    obtain ⟨objects, last, read, success⟩ := bind_eq_done.1 success
    obtain ⟨rfl, rfl⟩ := ended_eq_done.1 success
    have behind := Nat.lt_of_lt_of_le later (inner.rank_le (next_walks passed))
    have deeper := inner.walk (next_walks passed)
    refine ⟨fun o member => ?_, (value_finds (object_finds spaces) deeper read).2⟩
    have between := (value_lays lays deeper read).row.between _ (List.mem_map_of_mem member)
    exact Position.lt_iff_rank.mpr (Nat.lt_of_lt_of_le behind between.1)
  · obtain ⟨rfl, rfl⟩ := ended_eq_done.1 success
    exact ⟨nofun, nofun⟩

theorem modified_spaced (lays : body.Lays tokens) (spaces : body.Spaces tokens) (sound : c.Sound tokens)
    (begins : c.Begins tokens start) (success : modified body start c = .done m rest) : m.Spaced := by
  have walk := past_walk isModifier c
  simp only [modified, skipWhile_bind, cursor_bind] at success
  split at success
  · exact property_spaced lays spaces (sound.walk walk) (begins.walk sound walk) success
  · obtain ⟨_, _, _, success⟩ := bind_eq_done.1 success
    obtain ⟨rfl, rfl⟩ := ended_eq_done.1 success
    exact ⟨trivial, fun _ member => absurd member List.not_mem_nil⟩

theorem component_finds (spaces : body.Spaces tokens) (start : Position) :
    Finds (Cursor.Sound tokens) Member.Spaced (component body start) :=
  .after componentHead_walks fun _ => (object_finds spaces).bind fun _ one =>
    ended_finds fun _ => ⟨trivial, List.forall_mem_singleton.mpr one⟩

theorem named_finds (spaces : body.Spaces tokens) (start : Position) :
    Finds (Cursor.Sound tokens) Member.Spaced (named body start) := by
  refine .after qualifiedName_walks fun _ => .after cursor_walks fun c => ?_
  split
  · exact .after beforeBody_walks fun _ => (spaces _ _).bind fun _ one =>
      pure_finds ⟨trivial, List.forall_mem_singleton.mpr one⟩
  · split
    · exact .after next_walks fun _ => (value_finds (object_finds spaces)).bind fun _ all =>
        ended_finds fun _ => ⟨trivial, all⟩
    · exact complain_finds _

theorem declared_spaced (lays : body.Lays tokens) (spaces : body.Spaces tokens) (sound : c.Sound tokens)
    (begins : c.Begins tokens start) (d : Declaration) (success : declared body d start c = .done m rest) : m.Spaced := by
  have flat {f : Position → Member} (bare : ∀ e, (f e).Spaced) : Gives Member.Spaced (do return f (← lastEnd)) :=
    ended_gives bare
  cases d with
  | property => exact property_spaced lays spaces sound begins success
  | modified => exact modified_spaced lays spaces sound begins success
  | component => exact (component_finds spaces start sound success).2
  | named => exact (named_finds spaces start sound success).2
  | id =>
      refine Gives.after (fun _ => .after fun _ => .after fun _ => flat fun _ => ?_) success
      exact ⟨trivial, nofun⟩
  | signal =>
      refine Gives.after (fun _ => .after fun _ => .after fun c => ?_) success
      split
      · exact .after fun _ => flat fun _ => ⟨trivial, nofun⟩
      · exact flat fun _ => ⟨trivial, nofun⟩
  | function =>
      refine Gives.after (fun _ => .after fun _ => .after fun _ => .after fun _ => .after fun _ => .after fun _ => ?_) success
      exact flat fun _ => ⟨trivial, nofun⟩
  | enumeration =>
      refine Gives.after (fun _ => .after fun _ => .after fun _ => .after fun _ => flat fun _ => ?_) success
      exact ⟨trivial, nofun⟩

theorem member_finds (lays : body.Lays tokens) (spaces : body.Spaces tokens) :
    Finds (Cursor.Sound tokens) Member.Spaced (member body) := by
  intro c m rest sound success
  obtain ⟨t, front, placed⟩ := member_lays lays sound success
  refine ⟨placed.walk, ?_⟩
  simp only [member, cursor_bind] at success
  cases named : c.word? with
  | none =>
      rw [declaration?, front, named] at success
      exact absurd success complain_ne_done
  | some w =>
      rw [declaration?, front, named] at success
      exact declared_spaced lays spaces sound (sound.begins front) _ success

theorem members_spaces (lays : body.Lays tokens) (spaces : body.Spaces tokens) : (members body).Spaces tokens := by
  intro name start
  refine .after (punct_walks _) fun _ => iterate_finds (S := (∀ m ∈ ·, Member.Spaced m)) (fun read spaced => ?_) nofun
  refine .after (skipWhile_walks _) fun _ => .after cursor_walks fun c => ?_
  split
  · exact fail_finds _
  · split
    · refine .after next_walks fun _ => ended_finds fun _ => ?_
      exact .mk (fun m member => (spaced m member).1) fun m member => (spaced m member).2
    · refine (member_finds lays spaces).bind fun m one => pure_finds ?_
      exact List.forall_mem_append.mpr ⟨spaced, List.forall_mem_singleton.mpr one⟩

theorem body_spaces (tokens : List Token) (limit levels : Nat) : (Reader.body limit levels).Spaces tokens := by
  induction levels with
  | zero => exact fun _ _ => complain_finds _
  | succ levels ih => exact members_spaces (body_lays tokens limit levels) ih

theorem document_spaced (sound : c.Sound tokens) {limit : Nat} {d : Document}
    (success : document limit c = .done d rest) : d.root.Spaced := by
  obtain ⟨h, mid, header, success⟩ := bind_eq_done.1 success
  simp only [cursor_bind] at success
  split at success
  · cases success
  · obtain ⟨root, last, read, success⟩ := bind_eq_done.1 success
    obtain ⟨_, _, _, same⟩ := bind_eq_done.1 success
    cases same
    exact (object_finds (body_spaces tokens limit limit) (header_lays sound header).sound read).2

end Reader

/-- The symbols of a document that is read from a text are the declarations of its tree in the order of their places, with
    the root in front, and so are its inline components. The symbols start one after the other, all are in the range of
    the root, and of any two the ranges nest or are apart, unless the text is so long that the lines, or the characters of
    a line, cannot be counted. -/
theorem symbols_exact {text : List Char} {d : Document} (parsed : parse text = .parsed d) :
    Lists d.root.Declares d.summary.symbols ∧ Lists d.root.NamesComponent d.summary.exports.inlineComponents ∧
      d.summary.symbols.head? = some d.root.symbol ∧
      (Position.origin.Counts text →
        d.summary.symbols.Pairwise (fun a b => a.range.start.lt b.range.start = true) ∧
          (∀ s ∈ d.summary.symbols, s.range.Within d.root.range) ∧
          d.summary.symbols.Pairwise fun a b => b.range.Within a.range ∨ a.range.Before b.range) := by
  have first : d.summary.symbols.head? = some d.root.symbol := by
    rw [summary, d.root.symbols_eq]
    rfl
  refine ⟨d.root.lists_symbols, d.root.lists_inlineComponents, first, fun counts => ?_⟩
  obtain ⟨tokens, rest, scanned, read⟩ := document_of_parse parsed
  have sound := sound_of_scan counts scanned
  have arranged := ObjectNode.arranged (Reader.document_lays sound read).root (Reader.document_spaced sound read)
  refine ⟨List.pairwise_map.mp arranged.starts, ?_, List.pairwise_map.mp arranged.nested⟩
  exact fun s member => arranged.inside _ (List.mem_map_of_mem member)

/-! ## A text with objects in every place -/

namespace Mixed

def text : List Char :=
  "A\x7bid:a\nproperty B p:[C\x7bid:c\x7d,D\x7b\x7d]\nsignal s\n".toList ++
    "q:E\x7bcomponent K:F\x7bproperty int n;component L:G\x7b\x7d\x7d\x7d\n".toList ++
    "function f()\x7b\x7d\nenum X\x7bY\x7d\nH\x7b\x7d\x7d".toList

/-- The kinds and names of the symbols, and the inline components. -/
def listed : Reading → List (SymbolKind × String) × List String
  | .parsed d => (d.summary.symbols.map fun s => (s.kind, s.name), d.summary.exports.inlineComponents)
  | .failed _ | .stuck => ([], [])

def symbols : List (SymbolKind × String) := [(.object, "A"), (.id, "a"), (.property, "p"), (.object, "C"), (.id, "c"),
  (.object, "D"), (.signal, "s"), (.object, "E"), (.object, "F"), (.property, "n"), (.object, "G"), (.function, "f"),
  (.object, "H")]

end Mixed

open Mixed in
theorem symbols_exact_mixed : ∃ d, parse text = .parsed d ∧
    d.summary.symbols.map (fun s => (s.kind, s.name)) = symbols ∧ d.summary.exports.inlineComponents = ["K", "L"] ∧
    Lists d.root.Declares d.summary.symbols ∧
    d.summary.symbols.Pairwise (fun a b => a.range.start.lt b.range.start = true) := by
  have found : listed (parse text) = (symbols, ["K", "L"]) := by decide +kernel
  have short : text.length < 4294967296 := by decide +kernel
  cases read : parse text with
  | parsed d =>
      rw [read] at found
      obtain ⟨kinds, components⟩ := Prod.mk.inj found
      obtain ⟨lists, _, _, ranges⟩ := symbols_exact read
      exact ⟨d, rfl, kinds, components, lists, (ranges (Position.counts_of_length short)).1⟩
  | failed | stuck =>
      rw [read] at found
      cases found

/-! ## A line that is too long -/

/-- An object behind the last character of a line that can be counted, in one before it. -/
def overrunText : List Char :=
  List.replicate 4294967294 ' ' ++ ['A', '\x7b', 'B', '\x7b', '\x7d', '\x7d']

def symbolRanges : Reading → List TextRange
  | .parsed d => d.summary.symbols.map Symbol.range
  | .failed _ | .stuck => []

/-- In a line with too many characters an object can start before the one that it is in. -/
theorem symbols_out_of_order : ∃ d, parse overrunText = .parsed d ∧
    ¬ d.summary.symbols.Pairwise (fun a b => a.range.start.lt b.range.start = true) ∧
    ¬ ∀ s ∈ d.summary.symbols, s.range.Within d.root.range := by
  have found : symbolRanges (parse overrunText) = [⟨⟨0, 4294967294⟩, ⟨0, 4⟩⟩, ⟨⟨0, 0⟩, ⟨0, 3⟩⟩] := by
    rw [overrunText, parse_blanks _ (by decide +kernel)]
    decide +kernel
  cases read : parse overrunText with
  | parsed d =>
      rw [read] at found
      have ranges : d.summary.symbols.map Symbol.range = [⟨⟨0, 4294967294⟩, ⟨0, 4⟩⟩, ⟨⟨0, 0⟩, ⟨0, 3⟩⟩] := found
      have root : d.root.range = ⟨⟨0, 4294967294⟩, ⟨0, 4⟩⟩ := by
        rw [summary, d.root.symbols_eq] at ranges
        exact (List.cons.inj ranges).1
      refine ⟨d, rfl, fun ordered => ?_, fun inside => ?_⟩
      · have starts : (d.summary.symbols.map Symbol.range).Pairwise fun a b => a.start.lt b.start = true :=
          List.pairwise_map.mpr ordered
        rw [ranges] at starts
        revert starts
        decide
      · have last : (⟨⟨0, 0⟩, ⟨0, 3⟩⟩ : TextRange) ∈ d.summary.symbols.map Symbol.range := by simp [ranges]
        obtain ⟨s, member, range⟩ := List.mem_map.mp last
        have low := (inside s member).1
        rw [range, root] at low
        revert low
        decide
  | failed | stuck =>
      rw [read] at found
      cases found

end Document

end QmlIndex
