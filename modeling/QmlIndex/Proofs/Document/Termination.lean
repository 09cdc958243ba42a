import Mathlib.Logic.Relation
import Mathlib.Order.WellFounded
import QmlIndex.Proofs.Document.Calls

/-! # When reading ends

The tokens that are left and the rank of the routine decrease together along every call that is not at a
dead end. So reading ends unless it comes to a dead end; there one turn leads to the next without end, and
the readers, which give up a turn that takes nothing, are stuck at no other place.
-/

namespace QmlIndex.Document

open Reader Relation

variable {limit : Nat} {x y : Call}

/-! ## Dead ends -/

/-- Where the next turn of a dead end starts. -/
def Call.settled (x : Call) : Call := ⟨x.routine, x.cursor.past separatesElements⟩

namespace Call.DeadEnd

theorem settled (h : x.DeadEnd) : x.settled.DeadEnd := by
  obtain ⟨routine, c⟩ := x
  cases routine with
  | elements levels read =>
      change (c.past separatesElements).DeadEnd
      rw [Cursor.DeadEnd, past_past]
      exact h
  | _ => cases h

/-- A dead end enters nothing but its next turn. -/
theorem enters_iff (h : x.DeadEnd) : Enters limit x y ↔ y = x.settled := by
  obtain ⟨routine, c⟩ := x
  cases routine with
  | elements levels read =>
      constructor
      · intro entered
        cases entered with
        | element front inside looks =>
            have noObject := h.elim looksLikeObject_of_punct looksLikeObject_of_punct
            rw [noObject] at looks
            cases looks
        | elementsTurn again =>
            rw [listTurn_of_deadEnd h] at again
            cases again
            rfl
      · rintro rfl
        exact .elementsTurn (listTurn_of_deadEnd h read)
  | _ => cases h

theorem stuck (h : x.DeadEnd) : x.Stuck limit := by
  -- The next turn takes nothing, for all the separators have been passed.
  have given : x.settled.Stuck limit := by
    obtain ⟨routine, c⟩ := x
    cases routine with
    | elements levels read =>
        have turn : listTurn (body limit levels) read (c.past separatesElements) =
            .done (.again read) (c.past separatesElements) := by
          rw [listTurn_of_deadEnd h.settled, past_past]
        exact iterate_eq_stuck.2 (.inr ⟨_, _, turn, fun shorter => absurd shorter (Nat.lt_irrefl _)⟩)
    | _ => cases h
  exact (h.enters_iff.2 rfl).stuck given

end Call.DeadEnd

/-! ## Progress -/

/-- A call that is entered from elsewhere than a dead end. -/
def Moves (limit : Nat) (x y : Call) : Prop := Enters limit x y ∧ ¬x.DeadEnd

/-- The tokens that are left count first, and the rank of the routine second. -/
def Call.measure (x : Call) : Nat × Nat := (x.cursor.tokens.length, x.routine.procedure.rank)

theorem Moves.wellFounded (limit : Nat) : WellFounded (flip (Moves limit)) := by
  refine Subrelation.wf ?_ (InvImage.wf Call.measure (Prod.lex Nat.lt_wfRel Nat.lt_wfRel).wf)
  rintro y x ⟨entered, live⟩
  have le := entered.within.length_le
  rcases entered.lower live with shorter | lower
  · exact .left _ _ shorter
  · rcases Nat.lt_or_eq_of_le le with shorter | same
    · exact .left _ _ shorter
    · rw [InvImage, Call.measure, Call.measure, same]
      exact .right _ lower

/-- A chain of calls that comes back to a procedure has taken a token. -/
theorem Moves.chain (h : TransGen (Moves limit) x y) :
    y.cursor.tokens <:+ x.cursor.tokens ∧ (y.cursor.tokens.length < x.cursor.tokens.length ∨
      y.routine.procedure.rank < x.routine.procedure.rank) := by
  induction h with
  | single moved => exact ⟨moved.1.within, moved.1.lower moved.2⟩
  | tail _ moved ih =>
      have before := ih.1.length_le
      have after := moved.1.within.length_le
      have step := moved.1.lower moved.2
      exact ⟨moved.1.within.trans ih.1, by omega⟩

/-! ## Runs that never end -/

theorem stuck_iff_deadEnd : x.Stuck limit ↔ ∃ y, ReflTransGen (Enters limit) x y ∧ y.DeadEnd := by
  constructor
  · induction x using (Moves.wellFounded limit).induction with
    | _ x ih =>
        intro stuck
        by_cases dead : x.DeadEnd
        · exact ⟨x, .refl, dead⟩
        · obtain ⟨y, entered, further⟩ := stuck.enters.resolve_left dead
          obtain ⟨z, reached, found⟩ := ih y ⟨entered, dead⟩ further
          exact ⟨z, .head entered reached, found⟩
  · rintro ⟨y, reached, dead⟩
    induction reached using ReflTransGen.head_induction_on with
    | refl => exact dead.stuck
    | head entered _ ih => exact entered.stuck ih

/-- A stuck call always enters a stuck call, at a dead end too. -/
theorem Call.Stuck.goes_on (h : x.Stuck limit) : ∃ y, Enters limit x y ∧ y.Stuck limit := by
  rcases h.enters with dead | found
  · exact ⟨_, dead.enters_iff.2 rfl, dead.settled.stuck⟩
  · exact found

theorem acc_of_not_stuck (ends : ¬x.Stuck limit) : Acc (flip (Enters limit)) x := by
  induction x using (Moves.wellFounded limit).induction with
  | _ x ih =>
      have live : ¬x.DeadEnd := fun dead => ends dead.stuck
      exact ⟨x, fun y entered => ih y ⟨entered, live⟩ fun stuck => ends (entered.stuck stuck)⟩

theorem stuck_iff_not_acc : x.Stuck limit ↔ ¬Acc (flip (Enters limit)) x := by
  constructor
  · intro stuck acc
    induction acc with
    | intro x _ ih =>
        obtain ⟨y, entered, further⟩ := stuck.goes_on
        exact ih y entered further
  · intro endless
    by_contra ends
    exact endless (acc_of_not_stuck ends)

theorem ofTokens_eq_stuck {tokens : List Token} :
    ofTokens limit tokens = .stuck ↔ (Call.start tokens).Stuck limit := by
  rw [ofTokens]
  change _ ↔ document limit ⟨tokens, .origin⟩ = .stuck
  split <;> simp_all

/-- The loops other than the one over the elements of a list: each is one turn and the same again, and no
    turn asks for another one at the same place. -/
structure LoopsAdvance (limit : Nat) : Prop where
  header : Sweeps (iterate headerTurn) headerTurn
  members : ∀ levels name start, Sweeps (iterate (membersTurn (body limit levels) name start))
    (membersTurn (body limit levels) name start)
  runs : ∀ p, Sweeps (fun _ => skipWhile p) (runTurn p)
  segments : Sweeps (fun read c => segments c.tokens read.1 read.2 c.lastEnd) segmentTurn
  expressions : ∀ inList, Sweeps (fun s c => skipExpressionFrom inList c.tokens s.1 s.2 c.lastEnd)
    (expressionTurn inList)
  regions : ∀ opening, Sweeps (fun owed c => skipBalancedFrom opening c.tokens owed) (balancedTurn opening)
  breaksAhead : Glances (List.dropWhile Token.isNewline) breakTurn
  lineAhead : ∀ inList, Glances (nextLineContinues inList) (lineTurn inList)
  nameAhead : Glances Cursor.afterDotted dottedTurn

theorem loopsAdvance (limit : Nat) : LoopsAdvance limit where
  header := headerTurn_advances.iterate_sweeps
  members levels name start := (membersTurn_advances (body_keeps limit levels) name start).iterate_sweeps
  runs := skipWhile_sweeps
  segments := segments_sweeps
  expressions := skipExpression_sweeps
  regions := skipBalanced_sweeps
  breaksAhead := dropBreaks_glances
  lineAhead := nextLineContinues_glances
  nameAhead := afterDotted_glances

/-- Reading a list of tokens gives a document or a fault unless it comes to a dead end, and goes on for ever
    if it does: a dead end is followed by its own next turn and nothing else, and that turn by itself. Every
    other call, turn and look ahead goes forward. -/
theorem reading_ends_unless_dead_end (limit : Nat) (tokens : List Token) :
    (((∃ document, ofTokens limit tokens = .parsed document) ∨
        ∃ fault, ofTokens limit tokens = .failed fault) ↔
        ¬∃ x, ReflTransGen (Enters limit) (.start tokens) x ∧ x.DeadEnd) ∧
      (ofTokens limit tokens = .stuck ↔
        ∃ run : Nat → Call, run 0 = .start tokens ∧ ∀ i, Enters limit (run i) (run (i + 1))) ∧
      (∀ x, x.DeadEnd → x.settled.DeadEnd ∧ (∀ y, Enters limit x y ↔ y = x.settled) ∧
        ∀ y, Enters limit x.settled y ↔ y = x.settled) ∧
      (∀ x y, TransGen (Moves limit) x y → y.cursor.tokens <:+ x.cursor.tokens ∧
        (x.routine.procedure = y.routine.procedure →
          y.cursor.tokens.length < x.cursor.tokens.length)) ∧
      LoopsAdvance limit := by
  refine ⟨?_, ?_, fun x dead => ⟨dead.settled, fun y => dead.enters_iff, fun y => ?_⟩, fun x y chain => ?_,
    loopsAdvance limit⟩
  · rw [← stuck_iff_deadEnd, ← ofTokens_eq_stuck]
    cases ofTokens limit tokens <;> simp
  · rw [ofTokens_eq_stuck, stuck_iff_not_acc, not_acc_iff_exists_descending_chain]
    rfl
  · rw [dead.settled.enters_iff, Call.settled, Call.settled, past_past]
  · obtain ⟨within, shorter | lower⟩ := Moves.chain chain
    · exact ⟨within, fun _ => shorter⟩
    · refine ⟨within, fun same => ?_⟩
      rw [same] at lower
      exact absurd lower (Nat.lt_irrefl _)

-- A list that is still being typed: its only element starts with a semicolon.
example : (match parse "A\x7bb:[;]\x7d".toList with | .stuck => true | _ => false) = true := by
  decide +kernel

end QmlIndex.Document
