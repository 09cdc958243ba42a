import Mathlib.Data.List.Induction
import QmlIndex.Document

/-! # Places in a tree of objects

An object is found from the root by numbers: which member, and which of the objects in that member, and so on inwards.
A member that declares something has the place of its object with its own number behind it. Places in the order of lists
are places in the order in which the document is read, so that a traversal lists what it finds if it goes through a tree
from the front: each object before its members, and each member before the objects in it.
-/

namespace QmlIndex

/-- The objects that stand directly in a member. -/
def Member.objects : Member → List ObjectNode
  | .property _ _ _ objects | .binding _ _ objects => objects
  | .component _ _ o | .object o => [o]
  | .id _ _ | .signal _ _ | .function _ _ | .enum _ _ => []

namespace ObjectNode

theorem sizeOf_lt {o inner : ObjectNode} {m : Member} (member : m ∈ o.members) (within : inner ∈ m.objects) :
    sizeOf inner < sizeOf o := by
  have outer := List.sizeOf_lt_of_mem member
  have deeper := List.sizeOf_lt_of_mem within
  cases o
  cases m <;> simp_all [members, Member.objects] <;> omega

/-- Every object of the tree has a property that it inherits from the objects directly inside it. -/
theorem inwards {P : ObjectNode → Prop} (step : ∀ o : ObjectNode, (∀ m ∈ o.members, ∀ inner ∈ m.objects, P inner) → P o)
    (o : ObjectNode) : P o :=
  step o fun _ _member inner _within => inwards step inner
termination_by sizeOf o
decreasing_by exact sizeOf_lt _member _within

/-- An object of the tree, and its place. -/
inductive At : ObjectNode → List Nat → ObjectNode → Prop where
  | here (o : ObjectNode) : At o [] o
  | inside {root inner o : ObjectNode} {m : Member} {i j : Nat} {place : List Nat} (member : root.members[i]? = some m)
      (object : m.objects[j]? = some inner) (below : At inner place o) : At root (i :: j :: place) o

section

variable {α : Type} (ofObject : ObjectNode → Option α) (ofMember : ObjectNode → Member → Option α)

/-- What a tree has to give at a place, if objects give something and so do members, which know the object they are in. -/
inductive Found (root : ObjectNode) : List Nat → α → Prop where
  | object {place : List Nat} {o : ObjectNode} {a : α} (located : root.At place o) (gives : ofObject o = some a) :
      Found root place a
  | member {place : List Nat} {o : ObjectNode} {i : Nat} {m : Member} {a : α} (located : root.At place o)
      (member : o.members[i]? = some m) (gives : ofMember o m = some a) : Found root (place ++ [i]) a

variable {ofObject ofMember} {root : ObjectNode} {place : List Nat} {a : α}

/-- What is found is at the root, at a member of the root, or inside one. -/
theorem found_iff : Found ofObject ofMember root place a ↔
    (place = [] ∧ ofObject root = some a) ∨ ∃ i m rest, root.members[i]? = some m ∧ place = i :: rest ∧
      ((rest = [] ∧ ofMember root m = some a) ∨ ∃ j inner below, m.objects[j]? = some inner ∧ rest = j :: below ∧
        Found ofObject ofMember inner below a) := by
  constructor
  · rintro (⟨located, gives⟩ | ⟨located, member, gives⟩)
    · cases located with
      | here => exact .inl ⟨rfl, gives⟩
      | inside outer object below =>
          exact .inr ⟨_, _, _, outer, rfl, .inr ⟨_, _, _, object, rfl, .object below gives⟩⟩
    · cases located with
      | here => exact .inr ⟨_, _, _, member, rfl, .inl ⟨rfl, gives⟩⟩
      | inside outer object below =>
          exact .inr ⟨_, _, _, outer, rfl, .inr ⟨_, _, _, object, rfl, .member below member gives⟩⟩
  · rintro (⟨rfl, gives⟩ | ⟨i, m, rest, outer, rfl, ⟨rfl, gives⟩ | ⟨j, inner, below, object, rfl, found⟩⟩)
    · exact .object (.here root) gives
    · exact .member (.here root) outer gives
    · cases found with
      | object located gives => exact .object (.inside outer object located) gives
      | member located member gives => exact .member (.inside outer object located) member gives

end

end ObjectNode

/-! ## Lists by places -/

/-- The list has all that there is, in the order of the places, and each of it once. -/
def Lists {α : Type} (found : List Nat → α → Prop) (l : List α) : Prop :=
  ∃ placed : List (List Nat × α), placed.map Prod.snd = l ∧ placed.Pairwise (fun a b => a.1 < b.1) ∧
    ∀ place a, found place a ↔ (place, a) ∈ placed

namespace Lists

variable {α β : Type} {found other : List Nat → α → Prop} {l k : List α}

theorem congr (lists : Lists found l) (same : ∀ place a, other place a ↔ found place a) : Lists other l := by
  obtain ⟨placed, values, ordered, exact⟩ := lists
  exact ⟨placed, values, ordered, fun place a => (same place a).trans (exact place a)⟩

theorem option (x : Option α) : Lists (fun place a => place = [] ∧ x = some a) x.toList := by
  cases x with
  | none => exact ⟨[], rfl, .nil, by simp⟩
  | some b => exact ⟨[([], b)], rfl, List.pairwise_singleton .., by simp [eq_comm]⟩

theorem append (first : Lists found l) (second : Lists other k)
    (apart : ∀ p a q b, found p a → other q b → p < q) :
    Lists (fun place a => found place a ∨ other place a) (l ++ k) := by
  obtain ⟨placed, rfl, ordered, exact⟩ := first
  obtain ⟨more, rfl, behind, further⟩ := second
  refine ⟨placed ++ more, List.map_append, List.pairwise_append.mpr ⟨ordered, behind, ?_⟩, fun place a => ?_⟩
  · rintro ⟨p, a⟩ left ⟨q, b⟩ right
    exact apart p a q b ((exact p a).mpr left) ((further q b).mpr right)
  · rw [List.mem_append, ← exact, ← further]

/-- What is listed, inside the member or object with a number. -/
theorem below (lists : Lists found l) (i : Nat) :
    Lists (fun place a => ∃ rest, place = i :: rest ∧ found rest a) l := by
  obtain ⟨placed, rfl, ordered, exact⟩ := lists
  refine ⟨placed.map fun (place, a) => (i :: place, a), by simp, ?_, fun place a => ?_⟩
  · rw [List.pairwise_map]
    exact ordered.imp fun less => List.cons_lt_cons_self.mpr less
  · simp only [exact, List.mem_map, Prod.mk.injEq, Prod.exists]
    constructor
    · rintro ⟨rest, rfl, listed⟩
      exact ⟨rest, a, listed, rfl, rfl⟩
    · rintro ⟨rest, _, listed, rfl, rfl⟩
      exact ⟨rest, rfl, listed⟩

theorem getElem?_concat_iff {l : List β} {b c : β} {i : Nat} :
    (l ++ [b])[i]? = some c ↔ l[i]? = some c ∨ (i = l.length ∧ b = c) := by
  rcases Nat.lt_trichotomy i l.length with inside | rfl | outside
  · simp [List.getElem?_append_left inside, Nat.ne_of_lt inside]
  · simp
  · rw [List.getElem?_eq_none (by simp; omega), List.getElem?_eq_none (by omega)]
    simp [Nat.ne_of_gt outside]

/-- The lists of several things, one behind the other, at the number of each thing. -/
theorem flatMap {found : β → List Nat → α → Prop} {f : β → List α} {l : List β} (each : ∀ b ∈ l, Lists (found b) (f b)) :
    Lists (fun place a => ∃ i b rest, l[i]? = some b ∧ place = i :: rest ∧ found b rest a) (l.flatMap f) := by
  induction l using List.reverseRecOn with
  | nil => exact ⟨[], rfl, .nil, by simp⟩
  | append_singleton l b ih =>
      have front := ih fun c member => each c (List.mem_append_left _ member)
      have last := (each b (by simp)).below l.length
      rw [List.flatMap_append, List.flatMap_singleton]
      refine (front.append last ?_).congr fun place a => ?_
      · rintro _ _ _ _ ⟨i, _, rest, member, rfl, _⟩ ⟨more, rfl, _⟩
        have low : i < l.length := (List.getElem?_eq_some_iff.mp member).1
        exact List.cons_lt_cons_iff.mpr (.inl low)
      · constructor
        · rintro ⟨i, c, rest, member, rfl, here⟩
          rcases getElem?_concat_iff.mp member with inside | ⟨rfl, rfl⟩
          · exact .inl ⟨i, c, rest, inside, rfl, here⟩
          · exact .inr ⟨rest, rfl, here⟩
        · rintro (⟨i, c, rest, inside, rfl, here⟩ | ⟨rest, rfl, here⟩)
          · exact ⟨i, c, rest, getElem?_concat_iff.mpr (.inl inside), rfl, here⟩
          · exact ⟨l.length, b, rest, getElem?_concat_iff.mpr (.inr ⟨rfl, rfl⟩), rfl, here⟩

end Lists

namespace ObjectNode

variable {α : Type} {ofObject : ObjectNode → Option α} {ofMember : ObjectNode → Member → Option α}

/-- A traversal that goes through each object from the front lists all that the tree has to give. -/
theorem lists_of_traversal {f : ObjectNode → List α}
    (traverses : ∀ o, f o = (ofObject o).toList ++
      o.members.flatMap fun m => (ofMember o m).toList ++ m.objects.flatMap f)
    (root : ObjectNode) : Lists (Found ofObject ofMember root) (f root) := by
  induction root using inwards with
  | step o ih =>
      rw [traverses]
      have members : ∀ m ∈ o.members, Lists (fun place a => (place = [] ∧ ofMember o m = some a) ∨
          ∃ j inner below, m.objects[j]? = some inner ∧ place = j :: below ∧ Found ofObject ofMember inner below a)
          ((ofMember o m).toList ++ m.objects.flatMap f) := by
        intro m member
        refine (Lists.option (ofMember o m)).append (Lists.flatMap fun inner within => ih m member inner within) ?_
        rintro _ _ _ _ ⟨rfl, _⟩ ⟨j, _, below, _, rfl, _⟩
        exact List.nil_lt_cons j below
      refine ((Lists.option (ofObject o)).append (Lists.flatMap members) ?_).congr fun place a => found_iff
      rintro _ _ _ _ ⟨rfl, _⟩ ⟨i, _, rest, _, rfl, _⟩
      exact List.nil_lt_cons i rest

end ObjectNode

end QmlIndex
