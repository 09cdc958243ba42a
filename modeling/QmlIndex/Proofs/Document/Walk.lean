import QmlIndex.Proofs.Document.Declarations

/-! # Readers take tokens one by one

Whatever a reader does with the tokens, it takes them from the front, one after the other, and remembers where the
last of them ends. So the end of a declaration is always the end of the last token that was read for it.
-/

namespace QmlIndex.Document

/-- From one cursor to another by taking tokens. -/
inductive Cursor.Walk : Cursor → Cursor → Prop where
  | refl (c : Cursor) : Walk c c
  | step {t : Token} {ts : List Token} {e : Position} {d : Cursor} :
      Walk ⟨ts, t.range.stop⟩ d → Walk ⟨t :: ts, e⟩ d

theorem Cursor.Walk.trans {c d e : Cursor} (first : c.Walk d) (second : d.Walk e) : c.Walk e := by
  induction first with
  | refl => exact second
  | step _ ih => exact .step (ih second)

namespace Reader

variable {α β σ : Type}

/-- Every success is a walk. -/
def Walks (r : Reader α) : Prop := ∀ ⦃c a rest⦄, r c = .done a rest → c.Walk rest

theorem Walks.bind {r : Reader α} {f : α → Reader β} (first : Walks r) (rest : ∀ a, Walks (f a)) : Walks (r >>= f) := by
  intro c b last success
  obtain ⟨a, mid, left, right⟩ := bind_eq_done.1 success
  exact (first left).trans (rest a right)

theorem pure_walks (a : α) : Walks (pure a : Reader α) := by
  intro c b rest success
  cases success
  exact .refl c

theorem cursor_walks : Walks cursor := by
  intro c b rest success
  cases success
  exact .refl c

theorem lastEnd_walks : Walks lastEnd := by
  intro c b rest success
  cases success
  exact .refl c

theorem complain_ne_done {complaint : Complaint} {c rest : Cursor} {a : α} : complain complaint c ≠ .done a rest := by
  obtain ⟨fault, failed⟩ := complain_eq_failed (α := α) complaint c
  rw [failed]
  nofun

theorem complain_walks (complaint : Complaint) : Walks (complain complaint : Reader α) :=
  fun _ _ _ success => absurd success complain_ne_done

theorem next_walks : Walks next := by
  rintro ⟨_ | ⟨t, ts⟩, e⟩ a rest success
  · cases success
    exact .refl _
  · cases success
    exact .step (.refl _)

theorem accept_eq_done {f : Token → Option α} {complaint : Complaint} {c rest : Cursor} {a : α}
    (success : accept f complaint c = .done a rest) :
    ∃ t ts, c.tokens = t :: ts ∧ f t = some a ∧ rest = ⟨ts, t.range.stop⟩ := by
  rw [accept] at success
  split at success
  · split at success
    · cases success
      exact ⟨_, _, ‹_›, ‹_›, rfl⟩
    · exact absurd success complain_ne_done
  · exact absurd success complain_ne_done

theorem accept_walks (f : Token → Option α) (complaint : Complaint) : Walks (accept f complaint) := by
  rintro ⟨tokens, e⟩ a rest success
  obtain ⟨t, ts, rfl, _, rfl⟩ := accept_eq_done success
  exact .step (.refl _)

theorem word_walks (w : String) : Walks (word w) := accept_walks _ _

theorem ident_walks : Walks ident := accept_walks _ _

theorem punct_walks (p : Char) : Walks (punct p) := accept_walks _ _

/-- What every turn keeps holds where a repetition ends. -/
theorem iterate_invariant {turn : σ → Reader (Turn σ α)} {P : σ → Cursor → Prop} {Q : α → Cursor → Prop}
    (again : ∀ s c next rest, P s c → turn s c = .done (.again next) rest → P next rest)
    (stop : ∀ s c a rest, P s c → turn s c = .done (.stop a) rest → Q a rest)
    {s : σ} {c last : Cursor} {a : α} (start : P s c) (success : iterate turn s c = .done a last) : Q a last := by
  fun_induction iterate turn s c with
  | case1 s c b rest stopped =>
      cases success
      exact stop s c _ _ start stopped
  | case2 s c next rest more shorter ih => exact ih (again s c next rest start more) success
  | case3 | case4 | case5 => cases success

theorem iterate_walks {turn : σ → Reader (Turn σ α)} (turns : ∀ s, Walks (turn s)) (s : σ) : Walks (iterate turn s) := by
  intro c a last success
  exact iterate_invariant (P := fun _ d => c.Walk d) (Q := fun _ d => c.Walk d)
    (fun s _ _ _ walk turn => walk.trans (turns s turn)) (fun s _ _ _ walk turn => walk.trans (turns s turn))
    (.refl c) success

theorem Sweeps.walks {f : σ → Reader α} {turn : σ → Reader (Turn σ α)} (sweeps : Sweeps f turn)
    (turns : ∀ s, Walks (turn s)) (s : σ) : Walks (f s) := by
  intro c a rest success
  rw [sweeps.eq_iterate] at success
  exact iterate_walks turns s success

theorem skipWhile_walks (p : Token → Bool) : Walks (skipWhile p) := by
  refine (skipWhile_sweeps p).walks (fun _ => ?_) ()
  rintro ⟨_ | ⟨t, ts⟩, e⟩ a rest success
  · cases success
    exact .refl _
  · simp only [runTurn] at success
    split at success <;> cases success
    · exact .step (.refl _)
    · exact .refl _

theorem past_walk (p : Token → Bool) (c : Cursor) : c.Walk (c.past p) := skipWhile_walks p rfl

theorem segmentTurn_walks (read : String × TextRange) : Walks (segmentTurn read) := by
  rintro ⟨_ | ⟨dot, _ | ⟨t, ts⟩⟩, e⟩ a rest success
  · cases success
    exact .refl _
  · cases success
    exact .refl _
  · simp only [segmentTurn] at success
    split at success <;> cases success
    · exact .step (.step (.refl _))
    · exact .refl _

theorem qualifiedName_walks : Walks qualifiedName :=
  ident_walks.bind fun _ => segments_sweeps.walks segmentTurn_walks _

theorem skipExpression_walks (inList : Bool) : Walks (skipExpression inList) := by
  refine (skipExpression_sweeps inList).walks (fun s => ?_) ([], none)
  rintro ⟨_ | ⟨t, ts⟩, e⟩ a rest success
  · simp only [expressionTurn] at success
    split at success <;> cases success
    exact .refl _
  · simp only [expressionTurn] at success
    split at success
    · cases success
      exact .refl _
    · split at success <;> cases success
      exact .step (.refl _)

theorem skipBalanced_walks : Walks skipBalanced := by
  have inside (opening : Position) (owed : List Char) : Walks fun c => skipBalancedFrom opening c.tokens owed := by
    refine (skipBalanced_sweeps opening).walks (fun owed => ?_) owed
    rintro ⟨_ | ⟨t, ts⟩, e⟩ a rest success
    · cases success
    · simp only [balancedTurn] at success
      split at success <;> cases success <;> exact .step (.refl _)
  rintro ⟨_ | ⟨t, ts⟩, e⟩ a rest success
  · exact complain_walks _ success
  · simp only [skipBalanced] at success
    split at success
    · exact .step (inside _ _ (c := ⟨ts, t.range.stop⟩) success)
    · cases success

/-! ## Declarations without bodies -/

/-- The end of every declaration is where its last token ends. -/
theorem ended_eq_done {f : Position → α} {c rest : Cursor} {a : α} :
    (do return f (← lastEnd) : Reader α) c = .done a rest ↔ a = f rest.lastEnd ∧ rest = c := by
  constructor
  · intro success
    cases success
    exact ⟨rfl, rfl⟩
  · rintro ⟨rfl, rfl⟩
    rfl

theorem ended_walks (f : Position → α) : Walks (do return f (← lastEnd)) := lastEnd_walks.bind fun _ => pure_walks _

theorem pragma_walks : Walks pragma := by
  refine (word_walks _).bind fun _ => ident_walks.bind fun _ => cursor_walks.bind fun c => ?_
  split
  · refine next_walks.bind fun _ => cursor_walks.bind fun _ => ?_
    exact (skipWhile_walks _).bind fun _ => ended_walks _
  · exact ended_walks _

theorem importTarget_walks : Walks importTarget := by
  refine cursor_walks.bind fun c => ?_
  split
  · exact next_walks.bind fun _ => pure_walks _
  · exact qualifiedName_walks.bind fun _ => pure_walks _
  · exact complain_walks _

theorem importVersion_walks : Walks importVersion := by
  refine cursor_walks.bind fun c => ?_
  split
  · exact next_walks.bind fun _ => pure_walks _
  · exact pure_walks _

theorem importQualifier_walks : Walks importQualifier := by
  refine cursor_walks.bind fun c => ?_
  split
  · exact next_walks.bind fun _ => ident_walks.bind fun _ => pure_walks _
  · exact pure_walks _

theorem typeName_walks : Walks typeName := by
  refine qualifiedName_walks.bind fun _ => cursor_walks.bind fun c => ?_
  split
  · refine next_walks.bind fun _ => qualifiedName_walks.bind fun _ => ?_
    exact (punct_walks _).bind fun _ => pure_walks _
  · exact pure_walks _

theorem region_walks (opening : Char) (complaint : Complaint) : Walks (region opening complaint) := by
  refine cursor_walks.bind fun c => ?_
  split
  · exact skipBalanced_walks
  · exact complain_walks _

theorem resultType_walks : Walks resultType := by
  refine cursor_walks.bind fun c => ?_
  split
  · exact next_walks.bind fun _ => typeName_walks.bind fun _ => pure_walks _
  · exact pure_walks _

theorem signal_walks (start : Position) : Walks (signal start) := by
  refine (word_walks _).bind fun _ => ident_walks.bind fun _ => cursor_walks.bind fun c => ?_
  split
  · exact skipBalanced_walks.bind fun _ => ended_walks _
  · exact ended_walks _

theorem function_walks (start : Position) : Walks (function start) := by
  refine (word_walks _).bind fun _ => ident_walks.bind fun _ => (region_walks _ _).bind fun _ => ?_
  refine resultType_walks.bind fun _ => (skipWhile_walks _).bind fun _ => (region_walks _ _).bind fun _ => ?_
  exact ended_walks _

theorem enumeration_walks (start : Position) : Walks (enumeration start) := by
  refine (word_walks _).bind fun _ => ident_walks.bind fun _ => (skipWhile_walks _).bind fun _ => ?_
  exact (region_walks _ _).bind fun _ => ended_walks _

theorem idMember_walks (start : Position) : Walks (idMember start) :=
  next_walks.bind fun _ => next_walks.bind fun _ => ident_walks.bind fun _ => ended_walks _

theorem beforeBody_walks : Walks beforeBody := by
  refine Walks.bind ?_ fun _ => skipWhile_walks _
  refine cursor_walks.bind fun c => ?_
  split
  · exact next_walks.bind fun _ => qualifiedName_walks.bind fun _ => pure_walks _
  · exact pure_walks _

theorem componentHead_walks : Walks componentHead :=
  (word_walks _).bind fun _ => ident_walks.bind fun _ => (punct_walks _).bind fun _ =>
    (skipWhile_walks _).bind fun _ => pure_walks _

theorem propertyHead_walks : Walks propertyHead :=
  (word_walks _).bind fun _ => typeName_walks.bind fun _ => ident_walks.bind fun _ => pure_walks _

end Reader

/-! ## Documents -/

theorem document_of_ofTokens {limit : Nat} {tokens : List Token} {d : Document}
    (parsed : ofTokens limit tokens = .parsed d) :
    ∃ rest, Reader.document limit ⟨tokens, .origin⟩ = .done d rest := by
  rw [ofTokens] at parsed
  cases read : Reader.document limit ⟨tokens, .origin⟩ with
  | done document rest =>
      rw [read] at parsed
      cases parsed
      exact ⟨rest, rfl⟩
  | failed | stuck => simp [read] at parsed

theorem document_of_parse {text : List Char} {d : Document} (parsed : parse text = .parsed d) :
    ∃ tokens rest, Token.scan text = .ok tokens ∧ Reader.document maxNesting ⟨tokens, .origin⟩ = .done d rest := by
  rw [parse] at parsed
  cases scanned : Token.scan text with
  | error fault => simp [scanned] at parsed
  | ok tokens =>
      simp only [scanned] at parsed
      obtain ⟨rest, read⟩ := document_of_ofTokens parsed
      exact ⟨tokens, rest, rfl, read⟩

end QmlIndex.Document
