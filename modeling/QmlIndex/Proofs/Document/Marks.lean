import QmlIndex.Proofs.Document.Nesting
import QmlIndex.Proofs.Document.Traversal

/-! # Ranges go from token to token

Every range of a document that was read starts where a token starts and ends where a token ends. Readers copy the places
of tokens and count nothing, so this holds of all lists of tokens, also of one whose places are in no order.
-/

namespace QmlIndex

/-- A range from the start of a token to the end of a token. -/
structure TextRange.Marked (tokens : List Token) (r : TextRange) : Prop where
  starts : ∃ t ∈ tokens, t.range.start = r.start
  ends : ∃ t ∈ tokens, t.range.stop = r.stop

def Member.range : Member → TextRange
  | .id _ range | .property _ _ range _ | .signal _ range | .function _ range => range
  | .component _ range _ | .enum _ range | .binding _ range _ => range
  | .object o => o.range

/-- An object has its own range, those of its members, and all that the objects in these have. -/
inductive ObjectNode.HasRange : ObjectNode → TextRange → Prop where
  | own (o : ObjectNode) : HasRange o o.range
  | member {o : ObjectNode} {m : Member} (member : m ∈ o.members) : HasRange o m.range
  | inside {o inner : ObjectNode} {m : Member} {r : TextRange} (member : m ∈ o.members) (within : inner ∈ m.objects)
      (has : HasRange inner r) : HasRange o r

def ObjectNode.Marked (tokens : List Token) (o : ObjectNode) : Prop := ∀ r, o.HasRange r → r.Marked tokens

structure Member.Marked (tokens : List Token) (m : Member) : Prop where
  range : m.range.Marked tokens
  objects : ∀ o ∈ m.objects, o.Marked tokens

/-- All ranges in a document go from token to token. -/
structure Document.Marked (tokens : List Token) (d : Document) : Prop where
  pragmas : ∀ p ∈ d.pragmas, p.range.Marked tokens
  imports : ∀ i ∈ d.imports, i.range.Marked tokens
  root : d.root.Marked tokens

theorem ObjectNode.marked_iff {tokens : List Token} {o : ObjectNode} :
    o.Marked tokens ↔ o.range.Marked tokens ∧ ∀ m ∈ o.members, m.Marked tokens := by
  constructor
  · intro marked
    exact ⟨marked _ (.own o), fun m member => ⟨marked _ (.member member), fun inner within r has =>
      marked r (.inside member within has)⟩⟩
  · rintro ⟨own, members⟩ r has
    cases has with
    | own => exact own
    | member member => exact (members _ member).range
    | inside member within has => exact (members _ member).objects _ within r has

namespace Document

variable {tokens : List Token}

/-! ## Cursors -/

/-- Nothing but these tokens is left. -/
def Cursor.Among (tokens : List Token) (c : Cursor) : Prop := ∀ t ∈ c.tokens, t ∈ tokens

/-- Nothing but these tokens is left, and one of them was the last one taken. -/
structure Cursor.Behind (tokens : List Token) (c : Cursor) : Prop where
  among : c.Among tokens
  ended : ∃ t ∈ tokens, t.range.stop = c.lastEnd

/-- What holds of a cursor goes on to hold when tokens are taken. -/
class Cursor.Stable (I : Cursor → Prop) : Prop where
  walk {c d : Cursor} : I c → c.Walk d → I d

namespace Cursor

theorem Among.step {t : Token} {ts : List Token} {e : Position} (among : Among tokens ⟨t :: ts, e⟩) :
    Behind tokens ⟨ts, t.range.stop⟩ :=
  ⟨fun u member => among u (List.mem_cons_of_mem _ member), t, among t List.mem_cons_self, rfl⟩

instance : Stable (Among tokens) where
  walk among walk := by
    induction walk with
    | refl => exact among
    | step _ ih => exact ih among.step.among

instance : Stable (Behind tokens) where
  walk behind walk := by
    induction walk with
    | refl => exact behind
    | step _ ih => exact ih behind.among.step

end Cursor

namespace Reader

variable {α β σ : Type} {I J : Cursor → Prop} {P : β → Prop} {Q : α → Prop}

/-! ## Readers on such cursors -/

/-- Every success from such a cursor is a walk and gives such a value. -/
def Finds (I : Cursor → Prop) (Q : α → Prop) (r : Reader α) : Prop :=
  ∀ ⦃c a rest⦄, I c → r c = .done a rest → c.Walk rest ∧ Q a

theorem Finds.mono {r : Reader α} (finds : Finds J Q r) (weaker : ∀ c, I c → J c) : Finds I Q r :=
  fun c _ _ here success => finds (weaker c here) success

theorem pure_finds {a : α} (h : Q a) : Finds I Q (pure a) :=
  fun _ _ _ _ success => ⟨pure_walks a success, pure_gives h success⟩

theorem fail_finds (fault : Fault) : Finds I Q (fail fault) := nofun

theorem complain_finds (complaint : Complaint) : Finds I Q (complain complaint) :=
  fun _ _ _ _ success => absurd success complain_ne_done

variable [Cursor.Stable I]

theorem Finds.bind {r : Reader α} {f : α → Reader β} (first : Finds I Q r) (second : ∀ a, Q a → Finds I P (f a)) :
    Finds I P (r >>= f) := by
  intro c b rest here success
  obtain ⟨a, mid, left, right⟩ := bind_eq_done.1 success
  obtain ⟨walk, found⟩ := first here left
  obtain ⟨further, last⟩ := second a found (Cursor.Stable.walk here walk) right
  exact ⟨walk.trans further, last⟩

/-- What was read before does not matter. -/
theorem Finds.after {r : Reader α} {f : α → Reader β} (walks : Walks r) (second : ∀ a, Finds I P (f a)) :
    Finds I P (r >>= f) :=
  Finds.bind (Q := fun _ => True) (fun _ _ _ _ success => ⟨walks success, trivial⟩) fun a _ => second a

theorem ended_finds {f : Position → α} (h : ∀ e, Q (f e)) : Finds I Q (do return f (← lastEnd)) :=
  .after lastEnd_walks fun e => pure_finds (h e)

theorem iterate_finds {turn : σ → Reader (Turn σ α)} {S : σ → Prop}
    (turns : ∀ s, S s → Finds I (Turn.All S Q) (turn s)) {s : σ} (start : S s) : Finds I Q (iterate turn s) := by
  intro c a rest here success
  refine iterate_invariant (P := fun s d => c.Walk d ∧ S s) (Q := fun a d => c.Walk d ∧ Q a) ?_ ?_ ⟨.refl c, start⟩ success
  · rintro s d next rest ⟨walk, held⟩ turn
    obtain ⟨further, held⟩ := turns s held (Cursor.Stable.walk here walk) turn
    exact ⟨walk.trans further, held⟩
  · rintro s d a rest ⟨walk, held⟩ turn
    obtain ⟨further, held⟩ := turns s held (Cursor.Stable.walk here walk) turn
    exact ⟨walk.trans further, held⟩

section

variable {body : BodyReader} {R : ObjectNode → Prop} (objects : Finds I R (object body))

include objects

theorem list_finds : Finds I (∀ o ∈ ·, R o) (list body) := by
  refine .after (punct_walks _) fun _ => iterate_finds (S := (∀ o ∈ ·, R o)) (fun found all => ?_) nofun
  refine .after (skipWhile_walks _) fun _ => .after cursor_walks fun c => ?_
  split
  · exact fail_finds _
  · split
    · exact .after next_walks fun _ => pure_finds all
    · split
      · refine objects.bind fun o one => pure_finds ?_
        exact List.forall_mem_append.mpr ⟨all, List.forall_mem_singleton.mpr one⟩
      · exact .after (skipExpression_walks _) fun _ => pure_finds all

theorem value_finds : Finds I (∀ o ∈ ·, R o) (value body) := by
  refine .after (skipWhile_walks _) fun _ => .after cursor_walks fun c => ?_
  split
  · exact .after skipBalanced_walks fun _ => pure_finds nofun
  · split
    · exact list_finds objects
    · split
      · exact objects.bind fun o one => pure_finds (List.forall_mem_singleton.mpr one)
      · exact .after (skipExpression_walks _) fun _ => pure_finds nofun

end

/-! ## Readers of marked ranges -/

variable {body : BodyReader} {c rest : Cursor} {start : Position}

omit [Cursor.Stable I] in
/-- What ends behind a token ends at the end of one. -/
theorem ended_marks {f : Position → α} (h : ∀ e, (∃ t ∈ tokens, t.range.stop = e) → Q (f e)) :
    Finds (Cursor.Behind tokens) Q (do return f (← lastEnd)) := by
  intro c a rest behind success
  obtain ⟨rfl, rfl⟩ := ended_eq_done.1 success
  exact ⟨.refl _, h _ behind.ended⟩

/-- A dotted name starts where one of its words does. -/
theorem qualifiedName_marks (among : c.Among tokens) {name : String} {range : TextRange}
    (success : qualifiedName c = .done (name, range) rest) :
    rest.Behind tokens ∧ ∃ t ∈ tokens, t.range.start = range.start := by
  obtain ⟨⟨first, whole⟩, mid, read, more⟩ := bind_eq_done.1 success
  obtain ⟨ts, e⟩ := c
  obtain ⟨t, ts, rfl, found, rfl⟩ := accept_eq_done read
  obtain ⟨_, _, same⟩ := Option.map_eq_some_iff.mp found
  cases same
  have loop := (segments_sweeps.eq_iterate (first, t.range) ⟨ts, t.range.stop⟩).symm.trans more
  -- Of the start so far and the start of the next segment the smaller one is kept, and both are starts of tokens.
  have step {c : Cursor} {read : String × TextRange} {next : Turn (String × TextRange) (String × TextRange)}
      {rest : Cursor} (held : c.Behind tokens ∧ ∃ t ∈ tokens, t.range.start = read.2.start)
      (turn : segmentTurn read c = .done next rest) :
      Turn.All (fun read => rest.Behind tokens ∧ ∃ t ∈ tokens, t.range.start = read.2.start)
        (fun read => rest.Behind tokens ∧ ∃ t ∈ tokens, t.range.start = read.2.start) next := by
    have behind := Cursor.Stable.walk held.1 (segmentTurn_walks _ turn)
    obtain ⟨_ | ⟨dot, _ | ⟨u, us⟩⟩, e⟩ := c
    · cases turn
      exact ⟨behind, held.2⟩
    · cases turn
      exact ⟨behind, held.2⟩
    · have member : u ∈ tokens := held.1.among u (List.mem_cons_of_mem _ List.mem_cons_self)
      simp only [segmentTurn] at turn
      split at turn <;> cases turn
      · refine ⟨behind, ?_⟩
        simp only [TextRange.cover, Position.min]
        split
        · exact held.2
        · exact ⟨u, member, rfl⟩
      · exact ⟨behind, held.2⟩
  refine iterate_invariant (P := fun read c => c.Behind tokens ∧ ∃ t ∈ tokens, t.range.start = read.2.start)
    (Q := fun read c => c.Behind tokens ∧ ∃ t ∈ tokens, t.range.start = read.2.start) ?_ ?_
    ⟨among.step, t, among t List.mem_cons_self, rfl⟩ loop
  · exact fun _ _ _ _ held turn => step held turn
  · exact fun _ _ _ _ held turn => step held turn

/-- A reader of bodies that marks what it reads, if it is told a start of a token. -/
def BodyReader.Marks (tokens : List Token) (body : BodyReader) : Prop :=
  ∀ name ⦃start⦄, (∃ t ∈ tokens, t.range.start = start) →
    Finds (Cursor.Behind tokens) (ObjectNode.Marked tokens) (body name start)

theorem object_marks (marks : body.Marks tokens) : Finds (Cursor.Among tokens) (ObjectNode.Marked tokens) (object body) := by
  intro c o rest among success
  obtain ⟨⟨name, start⟩, opened, head, read⟩ := bind_eq_done.1 success
  obtain ⟨⟨name, range⟩, mid, named, more⟩ := bind_eq_done.1 head
  obtain ⟨_, before, passed, same⟩ := bind_eq_done.1 more
  cases same
  obtain ⟨behind, starts⟩ := qualifiedName_marks among named
  obtain ⟨walk, marked⟩ := marks name starts (Cursor.Stable.walk behind (beforeBody_walks passed)) read
  exact ⟨((qualifiedName_walks named).trans (beforeBody_walks passed)).trans walk, marked⟩

variable (marks : body.Marks tokens) (starts : ∃ t ∈ tokens, t.range.start = start)

include starts

/-- A member without objects ends where its last token does. -/
theorem flat_marks (f : TextRange → Member) (range : ∀ r, (f r).range = r) (bare : ∀ r, (f r).objects = []) :
    Finds (Cursor.Behind tokens) (Member.Marked tokens) (do return f ⟨start, ← lastEnd⟩) :=
  ended_marks fun e ends => ⟨by rw [range]; exact ⟨starts, ends⟩, by rw [bare]; nofun⟩

include marks

theorem value_marks {f : TextRange → List ObjectNode → Member} (range : ∀ r objects, (f r objects).range = r)
    (holds : ∀ r objects, (f r objects).objects = objects) : Finds (Cursor.Behind tokens) (Member.Marked tokens) (do
      let objects ← value body
      return f ⟨start, ← lastEnd⟩ objects) :=
  (value_finds ((object_marks marks).mono fun _ behind => behind.among)).bind fun objects all =>
    ended_marks fun e ends => ⟨by rw [range]; exact ⟨starts, ends⟩, by rw [holds]; exact all⟩

theorem property_marks : Finds (Cursor.Behind tokens) (Member.Marked tokens) (property body start) := by
  refine .after propertyHead_walks fun _ => .after cursor_walks fun c => ?_
  split
  · exact .after next_walks fun _ => value_marks marks starts (fun _ _ => rfl) fun _ _ => rfl
  · exact flat_marks starts (fun r => .property _ _ r []) (fun _ => rfl) fun _ => rfl

theorem named_marks : Finds (Cursor.Behind tokens) (Member.Marked tokens) (named body start) := by
  intro c m rest behind success
  obtain ⟨⟨name, range⟩, mid, read, success⟩ := bind_eq_done.1 success
  obtain ⟨inner, first⟩ := qualifiedName_marks behind.among read
  have walk := qualifiedName_walks read
  simp only [cursor_bind] at success
  split at success
  · obtain ⟨_, opened, passed, success⟩ := bind_eq_done.1 success
    obtain ⟨o, last, read, same⟩ := bind_eq_done.1 success
    cases same
    obtain ⟨further, marked⟩ := marks name first (Cursor.Stable.walk inner (beforeBody_walks passed)) read
    refine ⟨(walk.trans (beforeBody_walks passed)).trans further, marked _ (.own o), ?_⟩
    exact List.forall_mem_singleton.mpr marked
  · split at success
    · obtain ⟨_, bound, passed, success⟩ := bind_eq_done.1 success
      have further := next_walks passed
      obtain ⟨last, marked⟩ := value_marks marks starts (f := .binding name) (fun _ _ => rfl) (fun _ _ => rfl)
        (Cursor.Stable.walk inner further) success
      exact ⟨(walk.trans further).trans last, marked⟩
    · exact absurd success complain_ne_done

theorem declared_marks (d : Declaration) : Finds (Cursor.Behind tokens) (Member.Marked tokens) (declared body d start) := by
  cases d with
  | property => exact property_marks marks starts
  | named => exact named_marks marks starts
  | modified =>
      refine .after (skipWhile_walks _) fun _ => .after cursor_walks fun c => ?_
      split
      · exact property_marks marks starts
      · exact .after ident_walks fun _ => flat_marks starts (fun r => .binding _ r []) (fun _ => rfl) fun _ => rfl
  | component =>
      refine .after componentHead_walks fun name => ?_
      refine ((object_marks marks).mono fun _ behind => behind.among).bind fun o marked => ended_marks fun e ends => ?_
      exact ⟨⟨starts, ends⟩, List.forall_mem_singleton.mpr marked⟩
  | id =>
      exact .after next_walks fun _ => .after next_walks fun _ => .after ident_walks fun _ =>
        flat_marks starts _ (fun _ => rfl) fun _ => rfl
  | signal =>
      refine .after (word_walks _) fun _ => .after ident_walks fun _ => .after cursor_walks fun c => ?_
      split
      · exact .after skipBalanced_walks fun _ => flat_marks starts _ (fun _ => rfl) fun _ => rfl
      · exact flat_marks starts _ (fun _ => rfl) fun _ => rfl
  | function =>
      refine .after (word_walks _) fun _ => .after ident_walks fun _ => .after (region_walks _ _) fun _ => ?_
      refine .after resultType_walks fun _ => .after (skipWhile_walks _) fun _ => .after (region_walks _ _) fun _ => ?_
      exact flat_marks starts _ (fun _ => rfl) fun _ => rfl
  | enumeration =>
      refine .after (word_walks _) fun _ => .after ident_walks fun _ => .after (skipWhile_walks _) fun _ => ?_
      exact .after (region_walks _ _) fun _ => flat_marks starts _ (fun _ => rfl) fun _ => rfl

omit starts

theorem member_marks : Finds (Cursor.Behind tokens) (Member.Marked tokens) (member body) := by
  intro c m rest behind success
  simp only [member, cursor_bind] at success
  cases front : c.peek with
  | none =>
      rw [declaration?, front] at success
      exact absurd success complain_ne_done
  | some t =>
      have starts : ∃ u ∈ tokens, u.range.start = t.range.start :=
        ⟨t, behind.among t (List.mem_of_mem_head? front), rfl⟩
      cases named : c.word? with
      | none =>
          rw [declaration?, front, named] at success
          exact absurd success complain_ne_done
      | some w =>
          rw [declaration?, front, named] at success
          exact declared_marks marks starts _ behind success

theorem members_marks : (members body).Marks tokens := by
  intro name start starts
  refine .after (punct_walks _) fun _ => iterate_finds (S := (∀ m ∈ ·, Member.Marked tokens m)) (fun read marked => ?_) nofun
  refine .after (skipWhile_walks _) fun _ => .after cursor_walks fun c => ?_
  split
  · exact fail_finds _
  · split
    · refine .after next_walks fun _ => ended_marks fun e ends => ?_
      exact ObjectNode.marked_iff.mpr ⟨⟨starts, ends⟩, marked⟩
    · refine (member_marks marks).bind fun m one => pure_finds ?_
      exact List.forall_mem_append.mpr ⟨marked, List.forall_mem_singleton.mpr one⟩

omit marks

theorem body_marks (tokens : List Token) (limit levels : Nat) : (Reader.body limit levels).Marks tokens := by
  induction levels with
  | zero => exact fun _ _ _ => complain_finds _
  | succ levels ih => exact members_marks ih

/-! ## Documents -/

/-- A statement of the header starts with its first word. -/
theorem statement_marks {w : String} {f : TextRange → Reader α}
    (second : ∀ first : TextRange, (∃ t ∈ tokens, t.range.start = first.start) → Finds (Cursor.Behind tokens) Q (f first)) :
    Finds (Cursor.Among tokens) Q (word w >>= f) := by
  intro c a rest among success
  obtain ⟨first, mid, keyword, success⟩ := bind_eq_done.1 success
  obtain ⟨ts, e⟩ := c
  obtain ⟨t, ts, rfl, found, rfl⟩ := accept_eq_done keyword
  have range : first = t.range := by
    split at found <;> cases found
    rfl
  obtain ⟨walk, found⟩ := second first ⟨t, among t List.mem_cons_self, by rw [range]⟩ among.step success
  exact ⟨.step walk, found⟩

theorem pragma_marks : Finds (Cursor.Among tokens) (·.range.Marked tokens) pragma := by
  refine statement_marks fun first starts => .after ident_walks fun _ => .after cursor_walks fun c => ?_
  split
  · refine .after next_walks fun _ => .after cursor_walks fun _ => .after (skipWhile_walks _) fun _ => ?_
    exact ended_marks fun e ends => ⟨starts, ends⟩
  · exact ended_marks fun e ends => ⟨starts, ends⟩

theorem importStatement_marks : Finds (Cursor.Among tokens) (·.range.Marked tokens) importStatement := by
  refine statement_marks fun first starts => .after importTarget_walks fun _ => .after importVersion_walks fun _ => ?_
  refine .after importQualifier_walks fun _ => .after cursor_walks fun c => ?_
  split
  · split
    · exact ended_marks fun e ends => ⟨starts, ends⟩
    · exact fail_finds _
  · exact ended_marks fun e ends => ⟨starts, ends⟩

/-- The statements of a header that was read so far. -/
def Header.Marked (tokens : List Token) (h : Header) : Prop :=
  (∀ p ∈ h.1, p.range.Marked tokens) ∧ ∀ i ∈ h.2, i.range.Marked tokens

theorem header_marks : Finds (Cursor.Among tokens) (Header.Marked tokens) header := by
  refine iterate_finds (S := Header.Marked tokens) (fun h marked => ?_) ⟨nofun, nofun⟩
  refine .after (skipWhile_walks _) fun _ => .after cursor_walks fun c => ?_
  split
  · refine pragma_marks.bind fun p one => pure_finds ⟨?_, marked.2⟩
    exact List.forall_mem_append.mpr ⟨marked.1, List.forall_mem_singleton.mpr one⟩
  · split
    · refine importStatement_marks.bind fun i one => pure_finds ⟨marked.1, ?_⟩
      exact List.forall_mem_append.mpr ⟨marked.2, List.forall_mem_singleton.mpr one⟩
    · exact pure_finds marked

theorem document_marks (tokens : List Token) {limit : Nat} {d : Document} {rest : Cursor}
    (success : document limit ⟨tokens, .origin⟩ = .done d rest) : d.Marked tokens := by
  have among : Cursor.Among tokens ⟨tokens, .origin⟩ := fun _ member => member
  obtain ⟨⟨pragmas, imports⟩, mid, read, success⟩ := bind_eq_done.1 success
  obtain ⟨walk, header⟩ := header_marks among read
  simp only [cursor_bind] at success
  split at success
  · cases success
  · obtain ⟨root, last, read, success⟩ := bind_eq_done.1 success
    obtain ⟨_, _, _, same⟩ := bind_eq_done.1 success
    cases same
    exact ⟨header.1, header.2, (object_marks (body_marks tokens limit limit) (Cursor.Stable.walk among walk) read).2⟩

end Reader

end Document

end QmlIndex
