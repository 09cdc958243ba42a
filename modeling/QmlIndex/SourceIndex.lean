import QmlIndex.Digest
import QmlIndex.Document.Parser
import QmlIndex.Graph
import QmlIndex.Matcher
import QmlIndex.Pieces
import QmlIndex.Store

/-! # The index of documents

The entries of the documents of a workspace are held in a graph, and the store holds the same. A file is
read again only if its time or its bytes differ from its entry. Memory never waits for the store: if a
write is refused, the entry is in memory only.

There are texts that are read for ever. Whatever has to read a document may therefore not come to an end: it
gives an `Option`, and `none` says that it never returns.
-/

namespace QmlIndex

/-- What happens to a file. -/
inductive FileEvent where
  | created
  | changed
  | deleted
  deriving DecidableEq, Repr, Inhabited

/-- What happened to the files between two states, the files that are gone first. -/
def FileEvent.between (earlier now : FileTree) : List (FileEvent × Path) :=
  let gone := earlier.nodes.entries.filterMap fun (p, node) =>
    match node, now.nodes.get? p with
    | .file _, some (.file _) => none
    | .file _, _ => some (.deleted, p)
    | .directory _, _ => none
  let here := now.nodes.entries.filterMap fun (p, node) =>
    match node, earlier.nodes.get? p with
    | .file f, some (.file g) => if f = g then none else some (.changed, p)
    | .file _, _ => some (.created, p)
    | .directory _, _ => none
  gone ++ here

/-- A file that could not be indexed. -/
structure ScanFailure where
  path : Path
  message : String
  deriving DecidableEq, Repr, Inhabited

/-- What a scan of the documents did. -/
structure ScanStats where
  files : Nat := 0
  parsed : Nat := 0
  cached : Nat := 0
  failures : List ScanFailure := []
  deriving DecidableEq, Repr, Inhabited

def ScanStats.text (s : ScanStats) : String :=
  s!"{s.files} files: {s.parsed} parsed, {s.cached} cached, {s.failures.length} failed"

/-- How a file got its entry. -/
inductive Outcome where
  | parsed
  | cached
  deriving DecidableEq, Repr, Inhabited

/-- The resident entries and their store. -/
structure SourceIndex where
  graph : Graph
  store : Store
  deriving DecidableEq, Repr, Inhabited

namespace SourceIndex

/-- Read a text as a document, if reading it ends. -/
def readDocument (text : String) : Option (Result Document) :=
  match Document.parse text.toList with
  | .parsed d => some (.ok d)
  | .failed fault => some (.error (.parse fault.message))
  | .stuck => none

/-- The entry of a file as it is now. The resident entry is used again if it is current. -/
def examine (t : FileTree) (u : FileUri) (resident : Option SourceEntry) :
    Option (Result (SourceEntry × Outcome)) :=
  match t.file u with
  | .error e => some (.error e)
  | .ok f =>
    let hash := Digest.ofBytes f.content.toList
    match resident.filter (·.isCurrent hash f.time) with
    | some e => some (.ok (e, .cached))
    | none =>
      match String.fromUTF8? f.content with
      | some text => (readDocument text).map (·.map fun d => (SourceEntry.ofDocument u hash f.time d, .parsed))
      | none => some (.error (.parse (u.toString ++ " is not valid UTF-8")))

/-- The entries whose rows a new entry touches: itself, and the resident ones that it depends on or that
the entry before it depended on. -/
def touched (g : Graph) (previous : List FileUri) (e : SourceEntry) : List SourceEntry :=
  (e.uri :: previous ++ e.dependsOn).eraseDups.filterMap g.get?

/-- Make an entry resident, and write it if asked to. -/
def commit (x : SourceIndex) (e : SourceEntry) (persist : Bool) : SourceEntry × SourceIndex :=
  let previous := ((x.graph.get? e.uri).map SourceEntry.dependsOn).getD []
  let graph := x.graph.insert e
  let stored := (graph.get? e.uri).getD e
  let store := if persist then (x.store.saveSources (touched graph previous stored)).2 else x.store
  (stored, { graph, store })

/-- Take over what was found out about a file. -/
def settle (x : SourceIndex) (persist : Bool) :
    Result (SourceEntry × Outcome) → Result (SourceEntry × Outcome) × SourceIndex
  | .ok (e, .parsed) =>
    let (stored, x) := x.commit e persist
    (.ok (stored, .parsed), x)
  | .ok (e, .cached) => (.ok (e, .cached), x)
  | .error e => (.error e, x)

/-- Index one file. -/
def indexFile (x : SourceIndex) (t : FileTree) (u : FileUri) (persist : Bool) :
    Option (Result (SourceEntry × Outcome) × SourceIndex) :=
  (examine t u (x.graph.get? u)).map (x.settle persist)

/-! ## Scans -/

/-- A batch under way: the counts, the entries that were parsed, and the index. -/
structure Progress where
  stats : ScanStats
  produced : List SourceEntry
  index : SourceIndex
  deriving DecidableEq, Repr, Inhabited

/-- Enter what became of a file of a batch. -/
def Progress.enter (p : Progress) (path : Path) (done : Result (SourceEntry × Outcome) × SourceIndex) : Progress :=
  match done with
  | (.ok (e, .parsed), index) =>
    { index, stats := { p.stats with parsed := p.stats.parsed + 1 }, produced := p.produced ++ [e] }
  | (.ok (_, .cached), index) => { p with index, stats := { p.stats with cached := p.stats.cached + 1 } }
  | (.error e, index) =>
    { p with index, stats := { p.stats with failures := p.stats.failures ++ [⟨path, e.message⟩] } }

/-- Index one file of a batch. -/
def Progress.step (t : FileTree) (p : Progress) (path : Path) : Option Progress :=
  (p.index.indexFile t path.normalize false).map (p.enter path)

/-- Write the entries that a batch produced, as they are resident now. -/
def persist (x : SourceIndex) (produced : List SourceEntry) : SourceIndex :=
  let current := produced.filterMap fun e =>
    (x.graph.get? e.uri).filter (·.isCurrent e.contentHash e.lastModified)
  { x with store := (x.store.saveSources current).2 }

/-- Index the files of a batch, then write what they produced. A batch is done when all its files are. -/
def scanBatch (t : FileTree) (state : ScanStats × SourceIndex) (batch : List Path) :
    Option (ScanStats × SourceIndex) :=
  (batch.foldlM (Progress.step t) ⟨state.1, [], state.2⟩).map fun p => (p.stats, p.index.persist p.produced)

/-- Index batches of files one after the other, then compute the edges afresh. The files of a batch are
given in the order in which they are done. -/
def scanBatches (x : SourceIndex) (t : FileTree) (batches : List (List Path)) : Option (ScanStats × SourceIndex) :=
  (batches.foldlM (scanBatch t) ({ files := batches.flatten.length }, x)).map fun (stats, x) =>
    (stats, { x with graph := x.graph.rebuild })

/-- Index all files that belong to the index, in batches of at least one file. -/
def scan (x : SourceIndex) (t : FileTree) (m : Matcher) (batchSize : Nat) : Option (ScanStats × SourceIndex) :=
  x.scanBatches t (pieces (batchSize - 1) (m.walk t))

/-! ## Queries and events -/

/-- Remove an entry and all that depend on it, here and in the store. The answer lists what was
removed. -/
def invalidate (x : SourceIndex) (u : FileUri) : List FileUri × SourceIndex :=
  let (graph, removed) := x.graph.invalidate u
  let rows := if u ∈ removed then removed else removed ++ [u]
  (removed, { graph, store := (x.store.removeSources rows).2 })

/-- The entry of a document; if it is not resident, the file is indexed now. -/
def getOrIndex (x : SourceIndex) (t : FileTree) (u : FileUri) :
    Option (Result (Option SourceEntry) × SourceIndex) :=
  match x.graph.get? u with
  | some e => some (.ok (some e), x)
  | none =>
    match t.find u with
    | .ok _ => (x.indexFile t u true).map fun (result, x) => (result.map fun (e, _) => some e, x)
    | .error e => some (if e = .notFound then .ok none else .error e, x)

/-- React to an event. A file that was created may have taken the place of another. -/
def handle (x : SourceIndex) (t : FileTree) (event : FileEvent) (u : FileUri) :
    Option (Result Unit × SourceIndex) :=
  let (_, x) := x.invalidate u
  match event with
  | .deleted => some (.ok (), x)
  | .created | .changed => (x.indexFile t u true).map fun (result, x) => (result.map fun _ => (), x)

/-- Replace the resident entries by those of the store that are still true. -/
def load (x : SourceIndex) (t : FileTree) : Result Nat × SourceIndex :=
  match x.store.loadSources t with
  | (.ok entries, store) =>
    let graph := Graph.load entries
    (.ok graph.size, { graph, store })
  | (.error e, store) => (.error e, { x with store })

/-- Forget all entries, here and in the store. -/
def clear (x : SourceIndex) : Result Unit × SourceIndex :=
  match x.store.clearSources with
  | (.ok (), store) => (.ok (), { graph := .empty, store })
  | (.error e, store) => (.error e, { x with store })

end SourceIndex

end QmlIndex
