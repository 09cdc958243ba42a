import QmlIndex.OrdMap
import QmlIndex.Path

/-! # Path locks

Work on a path is done by one user at a time. A lock is a queue: who asks first holds it, the others wait
in order. Locks are made when they are asked for and found again through a table of slots; a slot whose
lock nobody uses any more is dead, and dead slots are swept when the table has grown large.
-/

namespace QmlIndex

/-- Someone who holds or waits for a lock. -/
structure LockUser where
  name : String
  path : Path
  /-- Which lock it is. -/
  lock : Nat
  deriving DecidableEq, Repr, Inhabited

/-- The locks in use. -/
structure Locks where
  /-- The lock that a path was last given. -/
  slots : OrdMap Path Nat := .empty
  /-- Holders and waiters, in the order in which they asked. -/
  users : List LockUser := []
  /-- The next lock that was never used. -/
  fresh : Nat := 0
  deriving DecidableEq, Repr, Inhabited

namespace Locks

/-- The size of the table at which dead slots are swept. -/
def pruneThreshold : Nat := 1024

def empty : Locks := {}

/-- Whether somebody holds or waits for a lock. -/
def isUsed (l : Locks) (lock : Nat) : Bool := l.users.any (·.lock == lock)

/-- Drop the dead slots. -/
def sweep (l : Locks) : Locks := { l with slots := l.slots.filter fun _ lock => l.isUsed lock }

/-- The lock of a path that is in use. -/
def find? (l : Locks) (path : Path) : Option Nat := (l.slots.get? path).filter l.isUsed

/-- Ask for the lock of a path. -/
def request (l : Locks) (path : Path) (name : String) : Locks :=
  match l.find? path with
  | some lock => { l with users := l.users ++ [⟨name, path, lock⟩] }
  | none =>
    let l := if l.slots.size ≥ pruneThreshold then l.sweep else l
    { slots := l.slots.insert path l.fresh
      users := l.users ++ [⟨name, path, l.fresh⟩]
      fresh := l.fresh + 1 }

/-- Give up a lock, or the wait for it. -/
def release (l : Locks) (name : String) : Locks :=
  { l with users := l.users.filter (·.name != name) }

/-- Whether a user is the first in the queue of its lock. -/
def holds (l : Locks) (u : LockUser) : Bool :=
  (l.users.find? (·.lock == u.lock)).any (·.name == u.name)

def holding (l : Locks) : List LockUser := l.users.filter l.holds

def waiting (l : Locks) : List LockUser := l.users.filter fun u => !l.holds u

/-- How many paths have a lock in use. -/
def active (l : Locks) : Nat := (l.slots.filter fun _ lock => l.isUsed lock).size

end Locks

end QmlIndex
