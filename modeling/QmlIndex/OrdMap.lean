/-! # Ordered maps

A map is the list of its entries in strictly increasing order of keys. The order is part of the type, so
two maps with the same look-ups are equal, and listing a map needs no sorting.
-/

namespace QmlIndex

/-- A finite map whose entries are listed by increasing key. -/
structure OrdMap (κ ν : Type) [Ord κ] where
  entries : List (κ × ν)
  sorted : entries.Pairwise fun a b => compare a.1 b.1 = .lt

namespace OrdMap

variable {κ ν μ : Type} [Ord κ]

instance [DecidableEq κ] [DecidableEq ν] : DecidableEq (OrdMap κ ν) := fun a b =>
  if h : a.entries = b.entries then isTrue (by cases a; cases b; simp_all)
  else isFalse fun same => h (congrArg entries same)

instance [Repr κ] [Repr ν] : Repr (OrdMap κ ν) := ⟨fun m => reprPrec m.entries⟩

def empty : OrdMap κ ν := ⟨[], .nil⟩

instance : Inhabited (OrdMap κ ν) := ⟨empty⟩

def isEmpty (m : OrdMap κ ν) : Bool := m.entries.isEmpty

def size (m : OrdMap κ ν) : Nat := m.entries.length

def keys (m : OrdMap κ ν) : List κ := m.entries.map Prod.fst

def values (m : OrdMap κ ν) : List ν := m.entries.map Prod.snd

/-- Look a key up in a list of entries. -/
def find (k : κ) : List (κ × ν) → Option ν
  | [] => none
  | (a, v) :: rest => if compare k a = .eq then some v else find k rest

/-- The value of a key. -/
def get? (m : OrdMap κ ν) (k : κ) : Option ν := find k m.entries

def contains (m : OrdMap κ ν) (k : κ) : Bool := (m.get? k).isSome

/-- Put an entry where its key belongs, in place of an entry with that key. -/
def put (k : κ) (v : ν) : List (κ × ν) → List (κ × ν)
  | [] => [(k, v)]
  | (a, w) :: rest =>
    match compare k a with
    | .lt => (k, v) :: (a, w) :: rest
    | .eq => (k, v) :: rest
    | .gt => (a, w) :: put k v rest

theorem mem_put {k : κ} {v : ν} {e : κ × ν} {l : List (κ × ν)} (h : e ∈ put k v l) :
    e = (k, v) ∨ e ∈ l := by
  induction l with
  | nil => simpa [put] using h
  | cons head rest ih =>
    obtain ⟨a, w⟩ := head
    simp only [put] at h
    split at h <;> grind

theorem sorted_put [Std.TransOrd κ] [Std.LawfulEqOrd κ] (k : κ) (v : ν) {l : List (κ × ν)}
    (h : l.Pairwise fun a b => compare a.1 b.1 = .lt) :
    (put k v l).Pairwise fun a b => compare a.1 b.1 = .lt := by
  induction l with
  | nil => simp [put]
  | cons head rest ih =>
    obtain ⟨a, w⟩ := head
    obtain ⟨first, more⟩ := List.pairwise_cons.mp h
    simp only [put]
    split
    · rename_i less
      refine List.pairwise_cons.mpr ⟨fun e he => ?_, h⟩
      rcases List.mem_cons.mp he with rfl | he
      · exact less
      · exact Std.TransCmp.lt_trans less (first e he)
    · rename_i same
      have : k = a := Std.LawfulEqCmp.eq_of_compare same
      subst this
      exact List.pairwise_cons.mpr ⟨first, more⟩
    · rename_i greater
      refine List.pairwise_cons.mpr ⟨fun e he => ?_, ih more⟩
      rcases mem_put he with rfl | he
      · exact Std.OrientedCmp.lt_of_gt greater
      · exact first e he

def insert [Std.TransOrd κ] [Std.LawfulEqOrd κ] (m : OrdMap κ ν) (k : κ) (v : ν) : OrdMap κ ν :=
  ⟨put k v m.entries, sorted_put k v m.sorted⟩

/-- Keep the entries that satisfy a test. -/
def filter (m : OrdMap κ ν) (p : κ → ν → Bool) : OrdMap κ ν :=
  ⟨m.entries.filter fun e => p e.1 e.2, m.sorted.filter _⟩

def erase (m : OrdMap κ ν) (k : κ) : OrdMap κ ν := m.filter fun a _ => compare k a != .eq

theorem size_erase_lt {m : OrdMap κ ν} {k : κ} (h : m.contains k) : (m.erase k).size < m.size := by
  have found : ∀ l : List (κ × ν), (find k l).isSome → ∃ e ∈ l, compare k e.1 = .eq := by
    intro l
    induction l with
    | nil => simp [find]
    | cons e rest ih =>
      obtain ⟨a, v⟩ := e
      simp only [find]
      split
      · rename_i same
        exact fun _ => ⟨(a, v), by simp, same⟩
      · intro more
        obtain ⟨e, member, same⟩ := ih more
        exact ⟨e, by simp [member], same⟩
  obtain ⟨e, member, same⟩ := found m.entries h
  exact List.length_filter_lt_length_iff_exists.mpr ⟨e, member, by simp [same]⟩

/-- Change every value, in the knowledge of its key. -/
def map (m : OrdMap κ ν) (f : κ → ν → μ) : OrdMap κ μ :=
  ⟨m.entries.map fun e => (e.1, f e.1 e.2), by
    rw [List.pairwise_map]
    exact m.sorted⟩

/-- Insert a list of entries from left to right; the last entry of a key wins. -/
def insertAll [Std.TransOrd κ] [Std.LawfulEqOrd κ] (m : OrdMap κ ν) (l : List (κ × ν)) : OrdMap κ ν :=
  l.foldl (fun m e => m.insert e.1 e.2) m

def ofList [Std.TransOrd κ] [Std.LawfulEqOrd κ] (l : List (κ × ν)) : OrdMap κ ν := empty.insertAll l

end OrdMap

end QmlIndex
