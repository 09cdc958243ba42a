import QmlIndex.FileTree
import QmlIndex.Store.Row

/-! # The store

Three tables that outlive the index: source files, modules, and the components of modules. Every operation
is one transaction: it answers with the store after it, which on failure is the store before it. A row may be
refused, the first one of a transaction or one in the middle of it, and then the transaction fails. When the
tables are read back at the start, what is no longer true of the files is removed from them.
-/

namespace QmlIndex

namespace Store

inductive Table where
  | sources
  | modules
  | components
  deriving DecidableEq, Repr, Inhabited

/-- What is done to a row. -/
inductive Event where
  | insert
  | delete
  deriving DecidableEq, Repr, Inhabited

/-- Of the rows that one transaction inserts into a table, or deletes from it, the first few pass and all later ones are
refused. -/
structure Refusal where
  table : Table
  event : Event
  /-- How many rows pass. -/
  passes : Nat
  deriving DecidableEq, Repr, Inhabited

/-- How many rows are inserted into each table and deleted from it. -/
abbrev Writes := Table → Event → Nat

/-- Rows of one table. -/
def Writes.of (table : Table) (event : Event) (rows : Nat) : Writes :=
  fun t e => if t = table ∧ e = event then rows else 0

end Store

/-- The tables, with their rows in the order in which they were written. -/
structure Store where
  sources : List SourceRow := []
  modules : List ModuleRow := []
  components : List ComponentRow := []
  /-- What is refused. -/
  refusals : List Store.Refusal := []
  deriving DecidableEq, Repr, Inhabited

namespace Store

def empty : Store := {}

/-- How many rows the tables have. -/
structure Stats where
  sources : Nat
  modules : Nat
  components : Nat
  deriving DecidableEq, Repr, Inhabited

def stats (s : Store) : Stats := ⟨s.sources.length, s.modules.length, s.components.length⟩

def Stats.text (s : Stats) : String :=
  s!"Database Statistics:\n  Source files: {s.sources}\n  Modules: {s.modules}\n  Components: {s.components}"

/-! ## Statements -/

def withRefusals (s : Store) (refusals : List Refusal) : Store := { s with refusals }

/-- Rows have passed, so that fewer pass from now on. -/
def spend (s : Store) (w : Writes) : Store :=
  s.withRefusals (s.refusals.map fun r => { r with passes := r.passes - w r.table r.event })

/-- Let rows pass, or fail if one of them is refused. -/
def permit (s : Store) (w : Writes) : Result Store :=
  if s.refusals.any fun r => r.passes < w r.table r.event then .error (.storage .refused) else .ok (s.spend w)

def refuse (s : Store) (r : Refusal) : Store := s.withRefusals (r :: s.refusals)

def accept (s : Store) (table : Table) (event : Event) : Store :=
  s.withRefusals (s.refusals.filter fun r => r.table != table || r.event != event)

def deleteSources (s : Store) (p : SourceRow → Bool) : Result Store := do
  let s ← s.permit (.of .sources .delete (s.sources.countP p))
  return { s with sources := s.sources.filter (!p ·) }

def deleteModules (s : Store) (p : ModuleRow → Bool) : Result Store := do
  let s ← s.permit (.of .modules .delete (s.modules.countP p))
  return { s with modules := s.modules.filter (!p ·) }

def deleteComponents (s : Store) (p : ComponentRow → Bool) : Result Store := do
  let s ← s.permit (.of .components .delete (s.components.countP p))
  return { s with components := s.components.filter (!p ·) }

/-- Put a row into the table of source files, in place of one with its path. -/
def putSource (s : Store) (row : Result SourceRow) : Result Store := do
  let s ← s.permit (.of .sources .insert 1)
  let row ← row
  row.check
  return { s with sources := s.sources.filter (fun r => r.path.isNone || r.path != row.path) ++ [row] }

/-- Put a row into the table of modules, in place of one with its name. -/
def putModule (s : Store) (row : Result ModuleRow) : Result Store := do
  let s ← s.permit (.of .modules .insert 1)
  let row ← row
  row.check
  return { s with modules := s.modules.filter (fun r => r.name.isNone || r.name != row.name) ++ [row] }

/-- Whether two rows are of one component. -/
def sameComponent (a b : ComponentRow) : Bool := a.moduleName == b.moduleName && a.name == b.name

/-- Put a row into the table of components, in place of one of the same component. -/
def putComponent (s : Store) (row : Result ComponentRow) : Result Store := do
  let s ← s.permit (.of .components .insert 1)
  let row ← row
  row.check
  return { s with components := s.components.filter (fun r => !sameComponent r row) ++ [row] }

/-- Add a row to the table of components. -/
def addComponent (s : Store) (row : ComponentRow) : Result Store := do
  let s ← s.permit (.of .components .insert 1)
  row.check
  if s.components.any (sameComponent · row) then
    .error (.storage (.duplicate "components.module_name, components.name"))
  else return { s with components := s.components ++ [row] }

/-! ## Transactions -/

/-- Run statements; if one fails, nothing has happened. What is refused of the next transaction does not depend on how
many rows have passed in this one. -/
def transact {α : Type} (s : Store) (body : Result (α × Store)) : Result α × Store :=
  match body with
  | .ok (a, after) => (.ok a, after.withRefusals s.refusals)
  | .error e => (.error e, s)

/-- Run statements that have no answer. -/
def run (s : Store) (body : Result Store) : Result Unit × Store :=
  s.transact (body.map fun after => ((), after))

/-! ## Source files -/

/-- Write entries, each in place of the row with its path. -/
def saveSources (s : Store) (entries : List SourceEntry) : Result Nat × Store :=
  s.transact do
    let after ← entries.foldlM (fun s e => s.putSource (.ok (SourceRow.ofEntry e))) s
    return (entries.length, after)

def saveSource (s : Store) (e : SourceEntry) : Result Unit × Store :=
  s.run (s.putSource (.ok (SourceRow.ofEntry e)))

/-- The row of a path. -/
def sourceRow? (s : Store) (u : FileUri) : Option SourceRow :=
  s.sources.find? fun r => r.path == some u.toString

def undecodable {α : Type} (column : Nat) : Result α := .error (.storage (.undecodable column))

/-- What a decoded value is worth, or which column failed. -/
def decoded {α : Type} : Except Nat α → Result α
  | .ok a => .ok a
  | .error column => undecodable column

/-- The rows of a table beside their keys, each of which must be a text. -/
def withKeys {ρ : Type} (key : ρ → Option String) (rows : List ρ) : Result (List (String × ρ)) :=
  rows.mapM fun r =>
    match key r with
    | some k => .ok (k, r)
    | none => undecodable 0

/-- The keys of the rows that nothing was read from. -/
def stale {α : Type} (found : List (String × Option α)) : List String :=
  found.filterMap fun (k, a) => if a.isNone then some k else none

/-- The entry of a path. -/
def getSource (s : Store) (u : FileUri) : Result (Option SourceEntry) :=
  match s.sourceRow? u with
  | some r => decoded (r.decode.map some)
  | none => .ok none

/-- Delete the row of a path and count it. -/
def deleteSource (counted : Nat × Store) (u : FileUri) : Result (Nat × Store) := do
  let p (r : SourceRow) : Bool := r.path == some u.toString
  let (n, s) := counted
  return (n + s.sources.countP p, ← s.deleteSources p)

/-- Delete the rows of paths and say how many there were. -/
def removeSources (s : Store) (uris : List FileUri) : Result Nat × Store :=
  s.transact (uris.foldlM deleteSource (0, s))

/-- The entry of a row, if the row can be read and the file is as it says. -/
def currentSource? (t : FileTree) (r : SourceRow) : Option SourceEntry :=
  match r.decode with
  | .ok e => if t.hasTime e.uri (some e.lastModified) then some e else none
  | .error _ => none

/-- Delete the row of a path, as it is written. -/
def dropSource (s : Store) (path : String) : Result Store := s.deleteSources (·.path == some path)

/-- The entries that are still true of the files. All other rows are deleted. -/
def loadSources (s : Store) (t : FileTree) : Result (List SourceEntry) × Store :=
  s.transact do
    let rows ← withKeys SourceRow.path s.sources
    let found := rows.map fun (path, r) => (path, currentSource? t r)
    let after ← (stale found).foldlM dropSource s
    return (found.filterMap Prod.snd, after)

/-! ## Modules -/

/-- The rows of a module's components. -/
def componentRows (s : Store) (name : String) : List ComponentRow :=
  s.components.filter (·.moduleName == name)

/-- The components of a module. -/
def getComponents (s : Store) (name : String) : Result (OrdMap String Component) := do
  let components ← (s.componentRows name).mapM fun r => decoded r.decode
  return OrdMap.ofList (components.map fun c => (c.name, c))

/-- Write a module and its components, in place of all that is stored of it. -/
def saveModule (s : Store) (m : ModuleEntry) : Result Unit × Store :=
  s.run do
    let after ← s.putModule (.ok (ModuleRow.ofModule m))
    let after ← after.deleteComponents (·.moduleName == m.name)
    m.components.values.foldlM (fun s c => s.addComponent (ComponentRow.ofComponent m.name c)) after

/-- Delete a module and its components. -/
def dropModule (s : Store) (name : String) : Result Store := do
  let s ← s.deleteComponents (·.moduleName == name)
  s.deleteModules (·.name == some name)

/-- Delete a module and say whether it was there. -/
def removeModule (s : Store) (name : String) : Result Bool × Store :=
  s.transact do return (s.modules.any (·.name == some name), ← s.dropModule name)

def moduleRow? (s : Store) (name : String) : Option ModuleRow := s.modules.find? (·.name == some name)

/-- The module that a row begins. -/
def getModuleOfRow (s : Store) (m : ModuleEntry) : Result ModuleEntry := do
  return { m with components := ← s.getComponents m.name }

/-- The module of a name. -/
def getModule (s : Store) (name : String) : Result (Option ModuleEntry) := do
  match s.moduleRow? name with
  | some r => return some (← s.getModuleOfRow (← decoded r.decode))
  | none => return none

/-- Whether the manifest of a module is as the module says. -/
def isCurrentModule (t : FileTree) (m : ModuleEntry) : Bool :=
  m.manifest.all fun manifest => t.hasTime manifest m.lastModified

/-- The module of a row, if the row can be read, the manifest is as it says, and it has components. -/
def currentModule? (s : Store) (t : FileTree) (r : ModuleRow) : Result (Option ModuleEntry) :=
  match r.decode with
  | .ok m =>
    if isCurrentModule t m then do
      let m ← s.getModuleOfRow m
      return if m.components.isEmpty then none else some m
    else .ok none
  | .error _ => .ok none

/-- The modules that are still true of the files. All others are deleted. -/
def loadModules (s : Store) (t : FileTree) : Result (List ModuleEntry) × Store :=
  s.transact do
    let rows ← withKeys ModuleRow.name s.modules
    let found ← rows.mapM fun (name, r) => do return (name, ← s.currentModule? t r)
    let after ← (stale found).foldlM dropModule s
    return (found.filterMap Prod.snd, after)

/-! ## Clearing -/

def clear (s : Store) : Result Unit × Store :=
  s.run do
    let s ← s.deleteComponents fun _ => true
    let s ← s.deleteModules fun _ => true
    s.deleteSources fun _ => true

def clearSources (s : Store) : Result Unit × Store := s.run (s.deleteSources fun _ => true)

def clearModules (s : Store) : Result Unit × Store :=
  s.run do
    let s ← s.deleteComponents fun _ => true
    s.deleteModules fun _ => true

end Store

end QmlIndex
