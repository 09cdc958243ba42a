import QmlIndex.Proofs.Resolution

/-! # Bytes and characters of names

Of modules that a request may mean, and that have as many segments, none with more bytes than another is found. This is
not the same as characters: a name may have more characters than another one and still be found, but only if it makes up
for them in bytes. Then the other name has characters of several bytes.
-/

namespace QmlIndex

namespace Registry

/-- The bytes of a text beyond one for each of its characters. -/
def surplus (s : String) : Nat := s.utf8ByteSize - s.length

theorem length_le_utf8ByteSize (cs : List Char) : cs.length ≤ (String.ofList cs).utf8ByteSize := by
  induction cs with
  | nil => exact Nat.le_refl 0
  | cons c cs ih =>
      have filled := c.utf8Size_pos
      rw [String.ofList_cons, String.utf8ByteSize_append, String.utf8ByteSize_singleton, List.length_cons]
      omega

theorem utf8ByteSize_eq (s : String) : s.utf8ByteSize = s.length + surplus s := by
  have size := length_le_utf8ByteSize s.toList
  rw [String.ofList_toList, String.length_toList] at size
  rw [surplus]
  omega

theorem utf8ByteSize_ofList {cs : List Char} (plain : ∀ c ∈ cs, c.utf8Size = 1) :
    (String.ofList cs).utf8ByteSize = cs.length := by
  induction cs with
  | nil => rfl
  | cons c cs ih =>
      rw [String.ofList_cons, String.utf8ByteSize_append, String.utf8ByteSize_singleton, List.length_cons,
        plain c List.mem_cons_self, ih fun d member => plain d (List.mem_cons_of_mem c member)]
      omega

/-- A text of single bytes has nothing beyond them. -/
theorem surplus_eq_zero {s : String} (plain : ∀ c ∈ s.toList, c.utf8Size = 1) : surplus s = 0 := by
  have size := utf8ByteSize_ofList plain
  rw [String.ofList_toList, String.length_toList] at size
  rw [surplus, size, Nat.sub_self]

/-- With as many segments, a name of fewer characters comes first unless it has more bytes beyond them. -/
theorem Shorter.surplus_lt {a b : String} (before : Shorter a b) (level : (segments a).length = (segments b).length)
    (longer : b.length < a.length) : surplus a < surplus b := by
  have first := utf8ByteSize_eq a
  have second := utf8ByteSize_eq b
  rcases before with fewer | ⟨_, smaller | ⟨even, _⟩⟩ <;> omega

/-- Two modules that the same request may mean, whose names have as many segments. -/
structure Rivals (r : Registry) (name : String) (m n : ModuleEntry) : Prop where
  absent : r.get? name = none
  left : m ∈ r.toList ∧ EndsIn m.name name
  right : n ∈ r.toList ∧ EndsIn n.name name
  level : (segments m.name).length = (segments n.name).length

variable {r : Registry} {name : String} {m n : ModuleEntry}

/-- The one of two rivals that is found has the shorter name. -/
theorem Rivals.shorter (rivals : r.Rivals name m n) (own : r.modules.KeyedBy ModuleEntry.name)
    (found : r.resolve? name = some m) (other : n ≠ m) : Shorter m.name n.name := by
  have named : name ≠ "" := by
    rintro rfl
    cases found
  have meant := (resolve?_eq_some own named rivals.absent).mp found
  exact meant.least n rivals.right.1 rivals.right.2 other

/-- Of two modules that a request may mean and whose names have as many segments, the one with more bytes is not found.
    One with more characters is not found either if the other one has no more bytes beyond one for each character, as a
    name of single bytes has none. If it is found, it has fewer bytes, or as many and comes first in order. -/
theorem resolution_by_bytes (operations : List Operation) (name : String) (m n : ModuleEntry)
    (rivals : (run operations).Rivals name m n) :
    (n.name.utf8ByteSize < m.name.utf8ByteSize → (run operations).resolve? name ≠ some m) ∧
      (n.name.length < m.name.length → surplus n.name ≤ surplus m.name → (run operations).resolve? name ≠ some m) ∧
      (n.name.length < m.name.length → (∀ c ∈ n.name.toList, c.utf8Size = 1) →
        (run operations).resolve? name ≠ some m) ∧
      (n.name.length < m.name.length → (run operations).resolve? name = some m →
        m.name.utf8ByteSize < n.name.utf8ByteSize ∨ m.name.utf8ByteSize = n.name.utf8ByteSize ∧ m.name < n.name) := by
  have shorter : ∀ {size : String → Nat}, size n.name < size m.name → (run operations).resolve? name = some m →
      Shorter m.name n.name := by
    intro size less found
    refine rivals.shorter (run_keyed operations) found ?_
    rintro rfl
    exact lt_irrefl _ less
  refine ⟨fun less found => ?_, fun less even found => ?_, fun less plain found => ?_, fun less found => ?_⟩
  · rcases shorter less found with fewer | ⟨_, smaller | ⟨even, _⟩⟩
    · exact absurd rivals.level fewer.ne
    · omega
    · omega
  · exact absurd even ((shorter less found).surplus_lt rivals.level less).not_ge
  · have more := (shorter less found).surplus_lt rivals.level less
    rw [surplus_eq_zero plain] at more
    cases more
  · exact (shorter less found).elim (fun fewer => absurd rivals.level fewer.ne) And.right

/-- Two names of one last segment; the one with fewer characters has more bytes. -/
def accented : List Operation := ["éé.W", "aaa.W"].map fun name => .insert (gauges name)

theorem rivals_accented : (run accented).Rivals "W" (gauges "aaa.W") (gauges "éé.W") where
  absent := by decide
  left := ⟨by decide, "aaa".toList, by decide⟩
  right := ⟨by decide, "éé".toList, by decide⟩
  level := by decide

theorem resolution_by_bytes_accented :
    (run accented).Rivals "W" (gauges "éé.W") (gauges "aaa.W") ∧ (run accented).resolve? "W" ≠ some (gauges "éé.W") := by
  have rivals : (run accented).Rivals "W" (gauges "éé.W") (gauges "aaa.W") :=
    ⟨rivals_accented.absent, rivals_accented.right, rivals_accented.left, rivals_accented.level.symm⟩
  exact ⟨rivals, (resolution_by_bytes accented "W" _ _ rivals).1 (by decide)⟩

/-- A name of five characters is found in place of one of four. -/
theorem longer_name_found :
    ¬∀ (operations : List Operation) (name : String) (m n : ModuleEntry), (run operations).Rivals name m n →
      n.name.length < m.name.length → (run operations).resolve? name ≠ some m := by
  intro claimed
  have found : (run accented).resolve? "W" = some (gauges "aaa.W") := by decide
  exact claimed accented "W" (gauges "aaa.W") (gauges "éé.W") rivals_accented (by decide) found

end Registry

end QmlIndex
