import QmlIndex.Document.Expression
import QmlIndex.Proofs.Lists

/-! # Words whose brackets nest

Brackets nest in a word if they can be taken away in pairs. To keep the closing brackets that are owed, innermost first,
comes to the same: they nest if nothing is owed at the end and nothing is closed before that is not owed.
-/

namespace QmlIndex

namespace Document

def isBracket (c : Char) : Bool := (closerOf c).isSome || isCloser c

end Document

open Document

/-- Whether a token opens or closes something. -/
def Token.isBracket (t : Token) : Bool :=
  match t.kind with
  | .punct c => Document.isBracket c
  | _ => false

namespace Document

/-! ## Nested words -/

/-- A word without brackets. -/
def Plain (ts : List Token) : Prop := ∀ t ∈ ts, t.isBracket = false

/-- A word whose brackets nest. -/
inductive Nested : List Token → Prop where
  | nil : Nested []
  | plain {t : Token} {rest : List Token} : t.isBracket = false → Nested rest → Nested (t :: rest)
  | pair {opening closing : Token} {c d : Char} {inner rest : List Token} :
      opening.kind = .punct c → closerOf c = some d → closing.kind = .punct d → Nested inner → Nested rest →
        Nested (opening :: (inner ++ closing :: rest))

/-- The closing brackets owed after a word, unless a bracket is closed that is not owed. -/
def settle (owed : List Char) : List Token → Option (List Char)
  | [] => some owed
  | t :: rest =>
    match owe owed t.kind with
    | .ok owed => settle owed rest
    | .error _ => none

variable {t : Token} {ts us : List Token} {owed : List Char} {c d : Char}

theorem Plain.nested (plain : Plain ts) : Nested ts := by
  induction ts with
  | nil => exact .nil
  | cons t ts ih =>
      exact .plain (plain t List.mem_cons_self) (ih fun u member => plain u (List.mem_cons_of_mem t member))

theorem Nested.append (first : Nested ts) (second : Nested us) : Nested (ts ++ us) := by
  induction first with
  | nil => exact second
  | plain plain _ ih => exact .plain plain ih
  | pair opens closer closes inner _ _ ih =>
      rw [List.cons_append, List.append_assoc, List.cons_append]
      exact .pair opens closer closes inner ih

theorem owe_of_plain (plain : t.isBracket = false) (owed : List Char) : owe owed t.kind = .ok owed := by
  rw [Token.isBracket] at plain
  cases kind : t.kind with
  | punct c =>
      simp only [kind, isBracket, Bool.or_eq_false_iff, Option.isSome_eq_false_iff, Option.isNone_iff_eq_none] at plain
      simp only [owe, plain.1, plain.2, Bool.false_eq_true, if_false]
  | _ => rfl

theorem owe_opening (opens : t.kind = .punct c) (closer : closerOf c = some d) (owed : List Char) :
    owe owed t.kind = .ok (d :: owed) := by
  simp only [opens, owe, closer]

theorem owe_closing (closes : t.kind = .punct d) (closer : closerOf c = some d) (owed : List Char) :
    owe (d :: owed) t.kind = .ok owed := by
  have noOpening : closerOf d = none ∧ isCloser d = true := by
    unfold closerOf at closer
    split at closer <;> cases closer <;> decide
  simp only [closes, owe, noOpening.1, noOpening.2, if_true]

/-- What one token does: a bracket is opened, the bracket that is owed next is closed, or neither. -/
theorem owe_eq_ok {owed' : List Char} (h : owe owed t.kind = .ok owed') :
    (∃ c d, t.kind = .punct c ∧ closerOf c = some d ∧ owed' = d :: owed) ∨
      (∃ c, t.kind = .punct c ∧ owed = c :: owed') ∨ t.isBracket = false ∧ owed' = owed := by
  rw [Token.isBracket]
  cases kind : t.kind with
  | punct c =>
      simp only [kind, owe] at h
      cases closer : closerOf c with
      | some d =>
          simp only [closer] at h
          exact .inl ⟨c, d, rfl, closer, (Except.ok.inj h).symm⟩
      | none =>
          simp only [closer] at h
          split at h
          · cases owed with
            | nil => cases h
            | cons d owed =>
                simp only at h
                split at h
                · rename_i same
                  exact .inr (.inl ⟨c, rfl, by rw [same, Except.ok.inj h]⟩)
                · cases h
          · rename_i noCloser
            exact .inr (.inr ⟨by simpa [isBracket, closer] using noCloser, (Except.ok.inj h).symm⟩)
  | _ =>
      rw [kind] at h
      exact .inr (.inr ⟨rfl, (Except.ok.inj h).symm⟩)

theorem settle_append : settle owed (ts ++ us) = (settle owed ts).bind fun owed => settle owed us := by
  induction ts generalizing owed with
  | nil => rfl
  | cons t ts ih =>
      rw [List.cons_append, settle, settle]
      cases owe owed t.kind with
      | error c => rfl
      | ok owed => exact ih

/-- A word whose brackets nest changes nothing about what is owed. -/
theorem Nested.settle (nested : Nested ts) (owed : List Char) : settle owed ts = some owed := by
  induction nested generalizing owed with
  | nil => rfl
  | plain plain _ ih =>
      rw [Document.settle, owe_of_plain plain]
      exact ih owed
  | pair opens closer closes _ _ inner rest =>
      rw [Document.settle, owe_opening opens closer]
      simp only
      rw [settle_append, inner, Option.bind_some, Document.settle, owe_closing closes closer]
      exact rest owed

/-- A word that closes the owed brackets one after the other, and whose other brackets nest. -/
inductive Settles : List Char → List Token → Prop where
  | nil {ts : List Token} : Nested ts → Settles [] ts
  | cons {closing : Token} {d : Char} {owed : List Char} {ts rest : List Token} :
      Nested ts → closing.kind = .punct d → Settles owed rest → Settles (d :: owed) (ts ++ closing :: rest)

theorem Settles.prepend (first : Nested ts) (h : Settles owed us) : Settles owed (ts ++ us) := by
  cases h with
  | nil rest => exact .nil (first.append rest)
  | cons inner closes rest =>
      rw [← List.append_assoc]
      exact .cons (first.append inner) closes rest

theorem settles_of_settle (h : settle owed ts = some []) : Settles owed ts := by
  induction ts generalizing owed with
  | nil =>
      obtain rfl := Option.some.inj h
      exact .nil .nil
  | cons t ts ih =>
      rw [settle] at h
      split at h
      · rename_i owed' ok
        have rest := ih h
        rcases owe_eq_ok ok with ⟨c, d, opens, closer, rfl⟩ | ⟨c, closes, rfl⟩ | ⟨plain, rfl⟩
        · cases rest with
          | cons inner closes after =>
              have pair := Nested.pair opens closer closes inner .nil
              simpa using after.prepend pair
        · exact .cons .nil closes rest
        · exact rest.prepend (.plain plain .nil)
      · cases h

theorem nested_iff_settle : Nested ts ↔ settle [] ts = some [] := by
  constructor
  · exact fun nested => nested.settle []
  · intro h
    cases settles_of_settle h with
    | nil nested => exact nested

instance (ts : List Token) : Decidable (Nested ts) := decidable_of_iff _ nested_iff_settle.symm

/-! ## Words in brackets -/

/-- A word that ends with a bracket, before which the brackets nest. -/
def Shut (q : Char) (closing : Token) (ts : List Token) : Prop :=
  ∃ inner, ts = inner ++ [closing] ∧ Nested inner ∧ closing.kind = .punct q

/-- A word between two brackets. -/
def Enclosed (p q : Char) (closing : Token) (ts : List Token) : Prop :=
  ∃ opening inner, ts = opening :: (inner ++ [closing]) ∧ opening.kind = .punct p ∧ Nested inner ∧
    closing.kind = .punct q

/-- An object up to its closing brace, and what follows it. -/
def Framed (whole : List Token) (closing : Token) (tail : List Token) : Prop :=
  ∃ head object, whole = head ++ (object ++ tail) ∧ Plain head ∧ Enclosed '\x7b' '\x7d' closing object

section

variable {p q : Char} {closing other : Token} {tail behind whole : List Token}

theorem Enclosed.nested (h : Enclosed p q closing ts) (closer : closerOf p = some q) : Nested ts := by
  obtain ⟨opening, inner, rfl, opens, nested, closes⟩ := h
  exact .pair opens closer closes nested .nil

theorem not_nested_of_closing (nested : Nested ts) (closes : t.kind = .punct q) (closer : closerOf p = some q)
    (us : List Token) : ¬Nested (ts ++ t :: us) := by
  have surplus : owe [] t.kind = .error q := by
    unfold closerOf at closer
    split at closer <;> cases closer <;> rw [closes] <;> rfl
  intro whole
  have settles := nested_iff_settle.mp whole
  rw [settle_append, nested.settle, Option.bind_some, settle, surplus] at settles
  cases settles

/-- There is one brace only that closes an object, and one rest behind it. -/
theorem Framed.unique (h : Framed whole closing tail) (h' : Framed whole other behind) :
    closing = other ∧ tail = behind := by
  obtain ⟨head, _, rfl, plain, opening, inner, rfl, opens, nested, closes⟩ := h
  obtain ⟨head', _, same, plain', opening', inner', rfl, opens', nested', closes'⟩ := h'
  have brace {t : Token} (kind : t.kind = .punct '\x7b') : t.isBracket = true := by
    rw [Token.isBracket, kind]
    decide
  simp only [List.cons_append, List.append_assoc] at same
  -- The heads have no bracket, and what is inside has no closing bracket left over.
  obtain ⟨_, _, inside⟩ := split_unique same
    (fun between further => absurd (plain' opening (by simp [further])) (by simp [brace opens]))
    fun between further => absurd (plain opening' (by simp [further])) (by simp [brace opens'])
  refine (split_unique inside (fun between further => ?_) fun between further => ?_).2
  · exact not_nested_of_closing nested closes (p := '\x7b') rfl between (further ▸ nested')
  · exact not_nested_of_closing nested' closes' (p := '\x7b') rfl between (further ▸ nested)

end

end Document

end QmlIndex
