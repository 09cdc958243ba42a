import Mathlib.Data.List.Dedup
import Mathlib.Data.List.Find
import QmlIndex.Locks
import QmlIndex.Proofs.Keyed

/-! # One user at a time for each path

Whoever asks for a path joins the queue of the lock that the table of slots has for it. The table may hold dead
slots, gives a path a new lock once nobody uses the old one, and drops dead slots when it has grown large. All
this keeps the locks in use in step with the paths in use: users of one path share the lock that the table has for
the path, and users of different paths have different locks. The queues of the locks are therefore the queues of
the paths, and the holder of a path is the first of those who asked for it and have not left.
-/

namespace QmlIndex.Locks

/-! ## Runs -/

/-- What users do. A name stands for one request, and for the guard that comes of it. -/
inductive Operation where
  | request (path : Path) (name : String)
  | release (name : String)
  deriving DecidableEq, Repr

/-- The name of a request. -/
def Operation.requested? : Operation → Option String
  | .request _ name => some name
  | .release _ => none

def apply (l : Locks) : Operation → Locks
  | .request path name => l.request path name
  | .release name => l.release name

def run (operations : List Operation) : Locks := operations.foldl apply empty

/-! ## The table and the users -/

/-- The locks in use are in step with the paths in use. -/
structure Coherent (l : Locks) : Prop where
  named : (l.users.map LockUser.name).Nodup
  /-- The table has for the path of a user the lock of the user. -/
  slot : ∀ {u}, u ∈ l.users → l.slots.get? u.path = some u.lock
  /-- No two paths have one lock. -/
  apart : ∀ {p q lock}, l.slots.get? p = some lock → l.slots.get? q = some lock → p = q
  /-- The next lock is new. -/
  old : ∀ {p lock}, l.slots.get? p = some lock → lock < l.fresh

variable {l : Locks} {path : Path} {name : String} {lock : Nat}

theorem isUsed_iff : l.isUsed lock = true ↔ ∃ u ∈ l.users, u.lock = lock := by
  simp [isUsed]

theorem find?_eq_some : l.find? path = some lock ↔ l.slots.get? path = some lock ∧ l.isUsed lock = true := by
  rw [find?, Option.filter_eq_some_iff]

/-- The lock that a request is given. -/
def lockFor (l : Locks) (path : Path) : Nat := (l.find? path).getD l.fresh

@[simp]
theorem users_request : (l.request path name).users = l.users ++ [⟨name, path, l.lockFor path⟩] := by
  rw [request, lockFor]
  split
  · rename_i lock found
    rw [found, Option.getD_some]
  · rename_i absent
    rw [absent, Option.getD_none]
    dsimp only
    split <;> rfl

@[simp]
theorem users_release : (l.release name).users = l.users.filter (·.name != name) := rfl

/-- A new lock is entered in the table, perhaps after dead slots were dropped. -/
theorem slots_request (l : Locks) (path : Path) (name : String) (unused : l.find? path = none) :
    ∃ slots, (slots = l.slots ∨ slots = l.sweep.slots) ∧ (l.request path name).slots = slots.insert path l.fresh ∧
      (l.request path name).fresh = l.fresh + 1 := by
  rw [request, unused]
  dsimp only
  split
  · exact ⟨_, .inr rfl, rfl, rfl⟩
  · exact ⟨_, .inl rfl, rfl, rfl⟩

namespace Coherent

theorem empty : empty.Coherent where
  named := List.nodup_nil
  slot := by simp [Locks.empty]
  apart := by simp [Locks.empty]
  old := by simp [Locks.empty]

/-- Users share a lock if and only if they share a path. -/
theorem lock_eq_iff (c : l.Coherent) {u v : LockUser} (hu : u ∈ l.users) (hv : v ∈ l.users) :
    u.lock = v.lock ↔ u.path = v.path := by
  constructor
  · intro same
    have slot_u := c.slot hu
    rw [same] at slot_u
    exact c.apart slot_u (c.slot hv)
  · intro same
    have slot_u := c.slot hu
    rw [same, c.slot hv] at slot_u
    exact (Option.some.inj slot_u).symm

/-- A name leads to one user. -/
theorem eq_of_name (c : l.Coherent) {u v : LockUser} (hu : u ∈ l.users) (hv : v ∈ l.users)
    (same : u.name = v.name) : u = v :=
  eq_of_nodup_map c.named hu hv same

/-! ## Steps -/

/-- The table without its dead slots, if they were dropped, has the slots of the paths in use as before. -/
theorem swept (c : l.Coherent) {slots : OrdMap Path Nat}
    (table : slots = l.slots ∨ slots = l.sweep.slots) :
    (∀ {u}, u ∈ l.users → slots.get? u.path = some u.lock) ∧
      ∀ {p lock}, slots.get? p = some lock → l.slots.get? p = some lock := by
  rcases table with rfl | rfl
  · exact ⟨c.slot, id⟩
  · simp only [sweep, OrdMap.get?_filter, Option.filter_eq_some_iff]
    refine ⟨fun member => ⟨c.slot member, isUsed_iff.mpr ⟨_, member, rfl⟩⟩, fun found => found.1⟩

/-- A new user of a path is given the lock of the others, or one that nobody has had. -/
theorem request (c : l.Coherent) (path : Path) (new : ∀ u ∈ l.users, u.name ≠ name) :
    (l.request path name).Coherent := by
  have named : ((l.request path name).users.map LockUser.name).Nodup := by
    rw [users_request, List.map_append, List.nodup_append]
    refine ⟨c.named, by simp, ?_⟩
    simp only [List.mem_map, List.map_cons, List.map_nil, List.mem_singleton, forall_exists_index, and_imp]
    rintro _ u member rfl _ rfl
    exact new u member
  cases found : l.find? path with
  | some lock =>
      obtain ⟨held, used⟩ := find?_eq_some.mp found
      have same : (l.request path name).slots = l.slots ∧ (l.request path name).fresh = l.fresh := by
        simp [Locks.request, found]
      refine ⟨named, ?_, ?_, ?_⟩
      · intro u member
        rw [same.1]
        rcases List.mem_append.mp (users_request ▸ member) with before | last
        · exact c.slot before
        · obtain rfl := List.mem_singleton.mp last
          simpa [lockFor, found] using held
      · rw [same.1]
        exact c.apart
      · rw [same.1, same.2]
        exact c.old
  | none =>
      obtain ⟨slots, table, inserted, next⟩ := slots_request l path name found
      obtain ⟨kept, earlier⟩ := c.swept table
      -- Nobody uses the slot that is overwritten.
      have elsewhere : ∀ u ∈ l.users, u.path ≠ path := by
        rintro u member rfl
        have used := find?_eq_some.mpr ⟨c.slot member, isUsed_iff.mpr ⟨u, member, rfl⟩⟩
        simp [found] at used
      refine ⟨named, ?_, ?_, ?_⟩
      · intro u member
        rw [inserted, OrdMap.get?_insert]
        rcases List.mem_append.mp (users_request ▸ member) with before | last
        · rw [if_neg (elsewhere u before)]
          exact kept before
        · obtain rfl := List.mem_singleton.mp last
          simp [lockFor, found]
      · intro p q lock
        rw [inserted, OrdMap.get?_insert, OrdMap.get?_insert]
        split <;> split
        · simp [*]
        · intro first second
          have := c.old (earlier second)
          simp only [Option.some.injEq] at first
          omega
        · intro first second
          have := c.old (earlier first)
          simp only [Option.some.injEq] at second
          omega
        · exact fun first second => c.apart (earlier first) (earlier second)
      · intro p lock
        rw [inserted, next, OrdMap.get?_insert]
        split
        · simp only [Option.some.injEq]
          omega
        · exact fun held => Nat.lt_succ_of_lt (c.old (earlier held))

theorem release (c : l.Coherent) (name : String) : (l.release name).Coherent where
  named := c.named.sublist (List.filter_sublist.map _)
  slot member := c.slot (List.mem_filter.mp member).1
  apart := c.apart
  old := c.old

end Coherent

theorem Coherent.foldl (c : l.Coherent) {operations : List Operation}
    (named : (operations.filterMap Operation.requested?).Nodup)
    (new : ∀ u ∈ l.users, u.name ∉ operations.filterMap Operation.requested?) :
    (operations.foldl Locks.apply l).Coherent := by
  induction operations generalizing l with
  | nil => exact c
  | cons operation rest ih =>
      cases operation with
      | request path name =>
          have split : (Operation.request path name :: rest).filterMap Operation.requested? =
              name :: rest.filterMap Operation.requested? := rfl
          rw [split] at named new
          obtain ⟨once, more⟩ := List.nodup_cons.mp named
          have first : (l.apply (.request path name)).Coherent :=
            c.request path fun u member same => new u member (same ▸ List.mem_cons_self)
          refine ih first more fun u member => ?_
          rcases List.mem_append.mp (users_request (l := l) ▸ member) with before | last
          · exact fun later => new u before (List.mem_cons_of_mem name later)
          · obtain rfl := List.mem_singleton.mp last
            exact once
      | release name =>
          exact ih (c.release name) named fun u member => new u (List.mem_filter.mp member).1

theorem run_coherent {operations : List Operation} (named : (operations.filterMap Operation.requested?).Nodup) :
    (run operations).Coherent :=
  Coherent.empty.foldl named (by simp [Locks.empty])

/-! ## Queues of paths -/

namespace Coherent

/-- The holder of a path is the first of its users. -/
theorem holds_iff (c : l.Coherent) {u : LockUser} (member : u ∈ l.users) :
    l.holds u = true ↔ l.users.find? (·.path = u.path) = some u := by
  have queue : l.users.find? (·.lock == u.lock) = l.users.find? (·.path = u.path) := by
    apply List.find?_congr
    intro v listed
    rw [Bool.eq_iff_iff, beq_iff_eq, decide_eq_true_iff]
    exact c.lock_eq_iff listed member
  rw [holds, queue]
  constructor
  · intro first
    cases found : l.users.find? (·.path = u.path) with
    | none => simp [found] at first
    | some v =>
        have same : v.name = u.name := by simpa [found] using first
        rw [c.eq_of_name (List.mem_of_find?_eq_some found) member same]
  · intro found
    simp [found]

theorem mem_holding (c : l.Coherent) {u : LockUser} :
    u ∈ l.holding ↔ l.users.find? (·.path = u.path) = some u := by
  rw [holding, List.mem_filter]
  constructor
  · rintro ⟨member, first⟩
    exact (c.holds_iff member).mp first
  · intro found
    have member := List.mem_of_find?_eq_some found
    exact ⟨member, (c.holds_iff member).mpr found⟩

/-- Among those who hold a path, as among those who use it, its first user comes first. -/
theorem find?_holding (c : l.Coherent) (path : Path) :
    l.holding.find? (·.path = path) = l.users.find? (·.path = path) := by
  cases found : l.users.find? (·.path = path) with
  | none =>
      rw [List.find?_eq_none] at found ⊢
      exact fun u member => found u (List.mem_filter.mp member).1
  | some u =>
      obtain rfl : u.path = path := by simpa using List.find?_some found
      cases first : l.holding.find? (·.path = u.path) with
      | none =>
          have nobody := List.find?_eq_none.mp first u (c.mem_holding.mpr found)
          simp at nobody
      | some v =>
          have same : v.path = u.path := by simpa using List.find?_some first
          have held := c.mem_holding.mp (List.mem_of_find?_eq_some first)
          rw [← held, same, found]

/-- Those who wait for a path are its users but the holder. -/
theorem find?_waiting (c : l.Coherent) {u : LockUser} (held : u ∈ l.holding) :
    l.waiting.find? (·.path = u.path) = (l.release u.name).users.find? (·.path = u.path) := by
  rw [waiting, users_release, List.find?_filter, List.find?_filter]
  apply List.find?_congr
  intro v member
  by_cases here : v.path = u.path
  · have same : l.holds v = true ↔ v.name = u.name := by
      rw [c.holds_iff member, here, c.mem_holding.mp held]
      constructor
      · intro same
        rw [Option.some.inj same]
      · intro same
        rw [c.eq_of_name member (List.mem_filter.mp held).1 same]
    cases holds : l.holds v <;> simp_all
  · simp [here]

/-- A holder stays first when others ask. -/
theorem mem_holding_request (c : l.Coherent) {u : LockUser} (held : u ∈ l.holding) (path : Path)
    (new : ∀ v ∈ l.users, v.name ≠ name) : u ∈ (l.request path name).holding := by
  rw [(c.request path new).mem_holding, users_request, List.find?_append, c.mem_holding.mp held, Option.some_or]

/-- A holder stays first when others leave. -/
theorem mem_holding_release (c : l.Coherent) {u : LockUser} (held : u ∈ l.holding) (other : name ≠ u.name) :
    u ∈ (l.release name).holding := by
  rw [(c.release name).mem_holding, users_release]
  obtain ⟨here, before, after, shape, earlier⟩ := List.find?_eq_some_iff_append.mp (c.mem_holding.mp held)
  rw [shape, List.filter_append, List.filter_cons_of_pos (by simpa using Ne.symm other)]
  refine List.find?_eq_some_iff_append.mpr ⟨here, _, _, rfl, ?_⟩
  exact fun v member => earlier v (List.mem_filter.mp member).1

/-- The paths whose slots are alive are the paths of the users. -/
theorem active_eq (c : l.Coherent) : l.active = (l.users.map LockUser.path).dedup.length := by
  have alive : ∀ path, path ∈ (l.slots.filter fun _ lock => l.isUsed lock).keys ↔
      path ∈ (l.users.map LockUser.path).dedup := by
    intro path
    simp only [OrdMap.mem_keys, OrdMap.get?_filter, Option.filter_eq_some_iff, List.mem_dedup, List.mem_map]
    constructor
    · rintro ⟨lock, slot, used⟩
      obtain ⟨u, member, rfl⟩ := isUsed_iff.mp used
      exact ⟨u, member, c.apart (c.slot member) slot⟩
    · rintro ⟨u, member, rfl⟩
      exact ⟨u.lock, c.slot member, isUsed_iff.mpr ⟨u, member, rfl⟩⟩
  have perm := (List.perm_ext_iff_of_nodup (OrdMap.nodup_keys _) (List.nodup_dedup _)).mpr alive
  rw [← perm.length_eq, OrdMap.keys, List.length_map]
  rfl

end Coherent

/-- After every run of requests, each under a name of its own, and of departures: a path has one holder at most;
    users share a lock exactly if they share a path; whoever asks for a path that nobody uses holds it at once; a
    holder holds on until it leaves, and then whoever has waited longest for the path holds it; and the count of
    locks in use is the number of paths in use. -/
theorem paths_exclusive (operations : List Operation) (named : (operations.filterMap Operation.requested?).Nodup) :
    (∀ u ∈ (run operations).holding, ∀ v ∈ (run operations).holding, u.path = v.path → u = v) ∧
    (∀ u ∈ (run operations).users, ∀ v ∈ (run operations).users, u.lock = v.lock ↔ u.path = v.path) ∧
    (∀ path name, (∀ u ∈ (run operations).users, u.name ≠ name ∧ u.path ≠ path) →
      ∃ u ∈ ((run operations).request path name).holding, u.name = name ∧ u.path = path) ∧
    (∀ u ∈ (run operations).holding,
      (∀ path name, (∀ v ∈ (run operations).users, v.name ≠ name) → u ∈ ((run operations).request path name).holding) ∧
      (∀ name, name ≠ u.name → u ∈ ((run operations).release name).holding) ∧
      ((run operations).release u.name).holding.find? (·.path = u.path) =
        (run operations).waiting.find? (·.path = u.path)) ∧
    (run operations).active = ((run operations).users.map LockUser.path).dedup.length := by
  have c := run_coherent named
  generalize run operations = l at c
  refine ⟨?_, fun u hu v hv => c.lock_eq_iff hu hv, ?_, ?_, c.active_eq⟩
  · intro u hu v hv same
    rw [c.mem_holding, same, c.mem_holding.mp hv] at hu
    exact (Option.some.inj hu).symm
  · intro path name free
    have after := c.request path fun u member => (free u member).1
    have nobody : l.users.find? (·.path = path) = none :=
      List.find?_eq_none.mpr fun u member => by simpa using (free u member).2
    refine ⟨⟨name, path, l.lockFor path⟩, after.mem_holding.mpr ?_, rfl, rfl⟩
    rw [users_request, List.find?_append, nobody]
    simp
  · intro u held
    refine ⟨fun path name new => c.mem_holding_request held path new,
      fun name other => c.mem_holding_release held other, ?_⟩
    rw [(c.release u.name).find?_holding, c.find?_waiting held]

/-! ## A path that stays in use while many others come and go

One user holds a path, more other paths than the table may have slots are locked and given up, and then a second
user asks for the first path. -/

namespace Churn

def label (i : Nat) : String := String.ofList (List.replicate i '-')

def busy : Path := Path.rootDir.child "A.qml"

/-- The first request, and as many other paths as said that are locked and given up at once. -/
def visits : Nat → List Operation
  | 0 => [.request busy (label 0)]
  | n + 1 => visits n ++ [.request (Path.rootDir.child (label (n + 1))) (label (n + 1)), .release (label (n + 1))]

def operations (n : Nat) : List Operation := visits n ++ [.request busy (label (n + 1))]

theorem label_inj : Function.Injective label := by
  intro i j same
  simpa [label] using congrArg (fun s => s.toList.length) same

theorem requested_visits (n : Nat) :
    (visits n).filterMap Operation.requested? = (List.range (n + 1)).map label := by
  induction n with
  | zero => rfl
  | succ n ih =>
      rw [visits, List.filterMap_append, ih, List.range_succ (n := n + 1), List.map_append]
      rfl

theorem named (n : Nat) : ((operations n).filterMap Operation.requested?).Nodup := by
  have names : (operations n).filterMap Operation.requested? = (List.range (n + 2)).map label := by
    rw [operations, List.filterMap_append, requested_visits, List.range_succ (n := n + 1), List.map_append]
    rfl
  rw [names]
  exact List.nodup_range.map label_inj

theorem users_visits (n : Nat) : ∃ lock, (run (visits n)).users = [⟨label 0, busy, lock⟩] := by
  induction n with
  | zero => exact ⟨0, rfl⟩
  | succ n ih =>
      obtain ⟨lock, users⟩ := ih
      refine ⟨lock, ?_⟩
      have other : label 0 ≠ label (n + 1) := fun same => by simpa using label_inj same
      rw [visits, run, List.foldl_append]
      change ((run (visits n)).request _ _ |>.release _).users = _
      rw [users_release, users_request, users]
      simp [other]

theorem users_operations (n : Nat) :
    ∃ lock other, (run (operations n)).users = [⟨label 0, busy, lock⟩, ⟨label (n + 1), busy, other⟩] := by
  obtain ⟨lock, users⟩ := users_visits n
  refine ⟨lock, (run (visits n)).lockFor busy, ?_⟩
  rw [operations, run, List.foldl_append]
  change ((run (visits n)).request _ _).users = _
  rw [users_request, users]
  rfl

end Churn

open Churn in
theorem paths_exclusive_churn :
    ∃ u v, (run (operations 1100)).users = [u, v] ∧ u.path = busy ∧ v.path = busy ∧ u.lock = v.lock ∧
      (run (operations 1100)).active = 1 := by
  obtain ⟨lock, other, users⟩ := users_operations 1100
  obtain ⟨_, shared, _, _, active⟩ := paths_exclusive (operations 1100) (named 1100)
  rw [users] at shared active
  refine ⟨_, _, users, rfl, rfl, ?_, ?_⟩
  · exact (shared _ List.mem_cons_self _ (List.mem_cons_of_mem _ List.mem_cons_self)).mpr rfl
  · rw [active, List.map_cons, List.map_cons, List.map_nil]
    simp

end QmlIndex.Locks
