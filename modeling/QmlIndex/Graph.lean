import QmlIndex.OrdMap
import QmlIndex.SourceEntry

/-! # The dependency graph

The live entries with their edges. `dependents` keeps, for every path that some live entry depends on,
who does, whether or not the path itself is live; the `dependedBy` list of a live entry is what
`dependents` says of it. Every operation keeps the two in step, and `rebuild` computes both afresh.
-/

namespace QmlIndex

/-- Live entries by path, and who depends on what. -/
structure Graph where
  entries : OrdMap FileUri SourceEntry
  dependents : OrdMap FileUri (List FileUri)
  deriving DecidableEq, Repr, Inhabited

namespace Graph

def empty : Graph := ⟨.empty, .empty⟩

def get? (g : Graph) (u : FileUri) : Option SourceEntry := g.entries.get? u

def contains (g : Graph) (u : FileUri) : Bool := g.entries.contains u

def size (g : Graph) : Nat := g.entries.size

def isEmpty (g : Graph) : Bool := g.entries.isEmpty

/-- The live entries in path order. -/
def toList (g : Graph) : List SourceEntry := g.entries.values

/-- Who depends on a path. -/
def dependentsOf (g : Graph) (u : FileUri) : List FileUri := (g.dependents.get? u).getD []

/-- Change the live entry of a path, if there is one. -/
def modify (m : OrdMap FileUri SourceEntry) (u : FileUri) (f : SourceEntry → SourceEntry) :
    OrdMap FileUri SourceEntry :=
  m.map fun v e => if v = u then f e else e

/-- Note that `source` depends on `target`. -/
def linkOne (source : FileUri) (g : Graph) (target : FileUri) : Graph where
  dependents := g.dependents.insert target (insertPath source (g.dependentsOf target))
  entries := modify g.entries target fun e => { e with dependedBy := insertPath source e.dependedBy }

def link (g : Graph) (source : FileUri) (targets : List FileUri) : Graph :=
  targets.foldl (linkOne source) g

/-- Forget that `source` depends on `target`. -/
def unlinkOne (source : FileUri) (g : Graph) (target : FileUri) : Graph where
  dependents :=
    match (g.dependentsOf target).filter (· != source) with
    | [] => g.dependents.erase target
    | rest => g.dependents.insert target rest
  entries := modify g.entries target fun e => { e with dependedBy := e.dependedBy.filter (· != source) }

def unlink (g : Graph) (source : FileUri) (targets : List FileUri) : Graph :=
  targets.foldl (unlinkOne source) g

/-- Remove one entry and the edges it contributed. -/
def remove (g : Graph) (u : FileUri) : Graph :=
  match g.get? u with
  | some e => unlink { g with entries := g.entries.erase u } u e.dependsOn
  | none => g

/-- Insert an entry, in place of one of its path. What it says of its dependents is ignored. -/
def insert (g : Graph) (e : SourceEntry) : Graph :=
  let g := (g.remove e.uri).link e.uri e.dependsOn
  { g with entries := g.entries.insert e.uri { e with dependedBy := g.dependentsOf e.uri } }

/-- Who depends on what, computed from a list of entries. -/
def transpose (entries : List SourceEntry) : OrdMap FileUri (List FileUri) :=
  entries.foldl (fun m e =>
    e.dependsOn.foldl (fun m target =>
      m.insert target (insertPath e.uri ((m.get? target).getD []))) m) .empty

/-- Compute all edges against the direction of dependence afresh. -/
def rebuild (g : Graph) : Graph :=
  let dependents := transpose g.toList
  { dependents
    entries := g.entries.map fun u e => { e with dependedBy := (dependents.get? u).getD [] } }

/-- A graph of a list of entries; the last entry of a path counts. -/
def load (entries : List SourceEntry) : Graph :=
  rebuild ⟨OrdMap.ofList (entries.map fun e => (e.uri, e)), .empty⟩

/-- Count `source` once more among those that depend on a target, if that is live. -/
def tally (g : Graph) (source : FileUri) (m : OrdMap FileUri (List FileUri)) (target : FileUri) :
    OrdMap FileUri (List FileUri) :=
  if g.contains target then m.insert target ((m.get? target).getD [] ++ [source]) else m

/-- Go through entries and count each under its live targets, as often as it names them. -/
def collect (g : Graph) (entries : List SourceEntry) : OrdMap FileUri (List FileUri) :=
  entries.foldl (fun m e => e.dependsOn.foldl (g.tally e.uri) m) .empty

/-- Go through entries and compare what each says of its dependents with what was collected under its path,
which is used up. -/
def agrees (m : OrdMap FileUri (List FileUri)) : List SourceEntry → Bool
  | [] => true
  | e :: rest => e.dependedBy == sortPaths ((m.get? e.uri).getD []) && agrees (m.erase e.uri) rest

/-- The check of all edges against the direction of dependence, on the entries as they are listed when edges
are collected and when they are compared. -/
def isConsistentIn (g : Graph) (collected compared : List SourceEntry) : Bool :=
  agrees (g.collect collected) compared

/-- Whether every live entry lists exactly the live entries that depend on it, in order. -/
def isConsistent (g : Graph) : Bool := g.isConsistentIn g.toList g.toList

theorem size_unlink_entries (source : FileUri) (targets : List FileUri) (g : Graph) :
    (g.unlink source targets).entries.size = g.entries.size := by
  induction targets generalizing g with
  | nil => rfl
  | cons target rest ih =>
    rw [unlink, List.foldl_cons]
    exact (ih _).trans (by simp [unlinkOne, modify, OrdMap.map, OrdMap.size])

theorem size_remove_lt {g : Graph} {u : FileUri} (h : (g.get? u).isSome) :
    (g.remove u).size < g.size := by
  obtain ⟨e, he⟩ := Option.isSome_iff_exists.mp h
  simp only [remove, he, size, size_unlink_entries]
  exact OrdMap.size_erase_lt (by simpa [OrdMap.contains, get?] using h)

/-- Remove the paths of a stack from the top, and on top of the stack whoever depended on a path that was
removed. The answer lists what was removed, in order. -/
def invalidateFrom (g : Graph) (visited : List FileUri) : List FileUri → Graph × List FileUri
  | [] => (g, [])
  | u :: stack =>
    if u ∈ visited then invalidateFrom g visited stack
    else
      match _h : g.get? u with
      | none => invalidateFrom g (u :: visited) stack
      | some e =>
        let next := (e.dependedBy.filter (· ∉ u :: visited)).reverse
        let (g', removed) := invalidateFrom (g.remove u) (u :: visited) (next ++ stack)
        (g', u :: removed)
termination_by stack => (g.size, stack.length)
decreasing_by
  · exact Prod.Lex.right _ (by simp)
  · exact Prod.Lex.right _ (by simp)
  · exact Prod.Lex.left _ _ (size_remove_lt (by simp [_h]))

/-- Remove an entry and everything that depends on it, directly or not. -/
def invalidate (g : Graph) (u : FileUri) : Graph × List FileUri := invalidateFrom g [] [u]

end Graph

end QmlIndex
