import QmlIndex.Workspace
import QmlIndex.Proofs.Index.ModuleProvenance

/-! # Runs of a workspace

A run is any sequence of calls of the index and of its two halves, with changes of the files in between, of which
nobody need tell the index. The database may at any time begin or cease to refuse rows. A call that reads a
text for ever has no end, so a run with such a call comes to no state. A store is written by the index alone if it
was empty once and all that was done to it since are such runs. What it holds, and what is resident at any point of
a run on it, was made from files.
-/

namespace QmlIndex

/-- A call of the index of documents. -/
inductive SourceIndex.Action where
  | indexFile (u : FileUri) (persist : Bool)
  | getOrIndex (u : FileUri)
  | invalidate (u : FileUri)
  | handle (event : FileEvent) (u : FileUri)
  | scan
  | load
  | clear

namespace SourceIndex

/-- The index after a call, if the call returns. -/
def apply (x : SourceIndex) (t : FileTree) (m : Matcher) (batchSize : Nat) : Action → Option SourceIndex
  | .indexFile u persist => (x.indexFile t u persist).map Prod.snd
  | .getOrIndex u => (x.getOrIndex t u).map Prod.snd
  | .invalidate u => some (x.invalidate u).2
  | .handle event u => (x.handle t event u).map Prod.snd
  | .scan => (x.scan t m batchSize).map Prod.snd
  | .load => some (x.load t).2
  | .clear => some x.clear.2

/-- The document that a call names is known by a path as a URI spells it. -/
def Action.Canonical : Action → Prop
  | .indexFile u _ | .getOrIndex u | .invalidate u | .handle _ u => u.Canonical
  | .scan | .load | .clear => True

theorem Genuine.apply {P : ByteArray → Prop} {base : Store} {x : SourceIndex} {t : FileTree} {m : Matcher}
    (g : x.Genuine P base) (proper : t.Proper P) (root : FileUri.Canonical m.root) {batchSize : Nat} {a : Action}
    (canonical : a.Canonical) {after : SourceIndex} (returns : x.apply t m batchSize a = some after) :
    after.Genuine P base := by
  cases a with
  | indexFile u persist =>
      obtain ⟨done, indexed, rfl⟩ := Option.map_eq_some_iff.mp returns
      exact g.indexFile proper canonical indexed
  | getOrIndex u =>
      obtain ⟨done, found, rfl⟩ := Option.map_eq_some_iff.mp returns
      exact g.getOrIndex proper canonical found
  | invalidate u => exact Option.some.inj returns ▸ g.invalidate canonical
  | handle event u =>
      obtain ⟨done, reacted, rfl⟩ := Option.map_eq_some_iff.mp returns
      exact g.handle proper canonical reacted
  | scan =>
      obtain ⟨done, scanned, rfl⟩ := Option.map_eq_some_iff.mp returns
      exact g.scan proper root scanned
  | load => exact Option.some.inj returns ▸ g.load t
  | clear => exact Option.some.inj returns ▸ g.clear

end SourceIndex

/-- A call of the index of modules. -/
inductive ModuleIndex.Action where
  | indexManifest (u : FileUri)
  | removeModule (name : String)
  | removeManifest (u : FileUri)
  | handle (event : FileEvent) (u : FileUri)
  | scan
  | load
  | clear

namespace ModuleIndex

def apply (x : ModuleIndex) (t : FileTree) (naming : Naming) (m : Matcher) : Action → ModuleIndex
  | .indexManifest u => (x.indexManifest t naming u).2
  | .removeModule name => (x.removeModule name).2
  | .removeManifest u => (x.removeManifest u).2
  | .handle event u => (x.handle t naming event u).2
  | .scan => (x.scan t naming m).2
  | .load => (x.load t).2
  | .clear => x.clear.2

def Action.Canonical : Action → Prop
  | .indexManifest u | .removeManifest u | .handle _ u => u.Canonical
  | .removeModule _ | .scan | .load | .clear => True

theorem Genuine.apply {P : ByteArray → Prop} {base : Store} {x : ModuleIndex} {t : FileTree} {m : Matcher}
    (g : x.Genuine base) (proper : t.Proper P) (naming : Naming) (root : FileUri.Canonical m.root) {a : Action}
    (canonical : a.Canonical) : (x.apply t naming m a).Genuine base := by
  cases a with
  | indexManifest u => exact g.indexManifest t naming canonical
  | removeModule name => exact g.removeModule name
  | removeManifest u => exact g.removeManifest u
  | handle event u => exact g.handle t naming event canonical
  | scan => exact g.scan proper naming root
  | load => exact g.load t
  | clear => exact g.clear

end ModuleIndex

namespace Workspace

/-- What happens in a run. -/
inductive Action where
  /-- The files become others. -/
  | files (t : FileTree)
  /-- The database refuses just these rows from now on. -/
  | refuse (refusals : List Store.Refusal)
  | load
  | scan
  | clear
  | entry (u : FileUri)
  | dispatch (target : Target) (event : FileEvent) (path : String)
  | sources (a : SourceIndex.Action)
  | modules (a : ModuleIndex.Action)

/-- The index after an action, if the action returns. -/
def apply (w : Workspace) (t : FileTree) : Action → Option Workspace
  | .files _ => some w
  | .refuse refusals => some { w with store := w.store.withRefusals refusals }
  | .load => some (w.load t).2
  | .scan => (w.scan t).map Prod.snd
  | .clear => some w.clear.2
  | .entry u => (w.entry t u).map Prod.snd
  | .dispatch target event path => (w.dispatch t target event path).map Prod.snd
  | .sources a => (w.sources.apply t w.sourceMatcher w.config.effectiveBatchSize a).map w.withSources
  | .modules a => some (w.onModules fun x => ((), x.apply t w.naming w.manifestMatcher a)).2

/-- The files after an action. -/
def filesAfter (t : FileTree) : Action → FileTree
  | .files t => t
  | _ => t

/-- The index and the files after one action. -/
def step (state : Workspace × FileTree) (a : Action) : Option (Workspace × FileTree) :=
  (state.1.apply state.2 a).map fun w => (w, filesAfter state.2 a)

/-- The index and the files after a run, if all its actions return. -/
def run (w : Workspace) (t : FileTree) (actions : List Action) : Option (Workspace × FileTree) :=
  actions.foldlM step (w, t)

theorem step_eq_some {w : Workspace} {t : FileTree} {a : Action} {after : Workspace × FileTree} :
    step (w, t) a = some after ↔ ∃ next, w.apply t a = some next ∧ (next, filesAfter t a) = after :=
  Option.map_eq_some_iff

theorem run_cons {w : Workspace} {t : FileTree} {a : Action} {rest : List Action} {after : Workspace × FileTree} :
    w.run t (a :: rest) = some after ↔
      ∃ next, w.apply t a = some next ∧ next.run (filesAfter t a) rest = some after := by
  rw [run, List.foldlM_cons]
  constructor
  · intro returns
    obtain ⟨_, first, later⟩ := Option.bind_eq_some_iff.mp returns
    obtain ⟨next, applied, rfl⟩ := step_eq_some.mp first
    exact ⟨next, applied, later⟩
  · rintro ⟨next, applied, later⟩
    exact Option.bind_eq_some_iff.mpr ⟨_, step_eq_some.mpr ⟨next, applied, rfl⟩, later⟩

/-- What every action that returns keeps, a run keeps. -/
theorem run_keeps {Q : Workspace → FileTree → Prop} {R : Action → Prop}
    (keeps : ∀ {w t a next}, Q w t → R a → w.apply t a = some next → Q next (filesAfter t a)) {w after : Workspace}
    {t t' : FileTree} {actions : List Action} (start : Q w t) (allowed : ∀ a ∈ actions, R a)
    (returns : w.run t actions = some (after, t')) : Q after t' := by
  induction actions generalizing w t with
  | nil =>
      obtain ⟨rfl, rfl⟩ := Prod.mk.inj (Option.some.inj returns)
      exact start
  | cons a rest ih =>
      obtain ⟨next, applied, later⟩ := run_cons.mp returns
      exact ih (keeps start (allowed a List.mem_cons_self) applied)
        (fun b member => allowed b (List.mem_cons_of_mem a member)) later

/-! ## What returns -/

/-- Reading documents is done when the index of documents is. -/
theorem readSources_eq_some {w : Workspace} {α : Type} {f : SourceIndex → Option (α × SourceIndex)}
    {done : α × Workspace} :
    w.readSources f = some done ↔ ∃ inner, f w.sources = some inner ∧ (inner.1, w.withSources inner.2) = done :=
  Option.map_eq_some_iff

/-- A scan is done when that of the documents is. -/
theorem scan_eq_some {w : Workspace} {t : FileTree} {done : WorkspaceScan × Workspace} :
    w.scan t = some done ↔ ∃ inner, w.sources.scan t w.sourceMatcher w.config.effectiveBatchSize = some inner ∧
      (⟨inner.1, ((w.withSources inner.2).scanModules t).1⟩, ((w.withSources inner.2).scanModules t).2) = done := by
  rw [scan, scanSources, readSources]
  cases w.sources.scan t w.sourceMatcher w.config.effectiveBatchSize <;> simp [bind, pure]

theorem exists_scan_iff_sources {w : Workspace} {t : FileTree} : (∃ done, w.scan t = some done) ↔
    ∃ inner, w.sources.scan t w.sourceMatcher w.config.effectiveBatchSize = some inner := by
  simp only [scan_eq_some]
  exact ⟨fun ⟨_, inner, scanned, _⟩ => ⟨inner, scanned⟩, fun ⟨inner, scanned⟩ => ⟨_, inner, scanned, rfl⟩⟩

/-- An event is passed on when the half that it is for has reacted, if its file belongs to it. -/
theorem dispatch_cases {w : Workspace} {t : FileTree} {target : Target} {event : FileEvent} {path : String}
    {done : Option (Result Unit) × Workspace} (returns : w.dispatch t target event path = some done) :
    done.2 = w ∨ ∃ u, FileUri.ofPath .rootDir path = .ok u ∧
      ((target = .sources ∧ w.sourceMatcher.accepts path = true ∧
          ∃ inner, w.sources.handle t event u = some inner ∧ done.2 = w.withSources inner.2) ∨
        target = .modules ∧ done.2 = (w.onModules (·.handle t w.naming event u)).2) := by
  rw [dispatch] at returns
  split at returns
  · rename_i accepts
    obtain ⟨handled, here, rfl⟩ := Option.map_eq_some_iff.mp returns
    rw [handle] at here
    split at here
    · exact .inl (congrArg Prod.snd (Option.some.inj here)).symm
    · rename_i u named
      refine .inr ⟨u, named, ?_⟩
      cases target with
      | sources =>
          obtain ⟨inner, reacted, rfl⟩ := readSources_eq_some.mp here
          exact .inl ⟨rfl, accepts, inner, reacted, rfl⟩
      | modules => exact .inr ⟨rfl, (congrArg Prod.snd (Option.some.inj here)).symm⟩
  · exact .inl (congrArg Prod.snd (Option.some.inj returns)).symm

/-! ## Steps -/

/-- Documents are named as URIs spell them, and the files have such names and satisfy a condition. -/
def Action.Proper (P : ByteArray → Prop) : Action → Prop
  | .files t => t.Proper P
  | .entry u => u.Canonical
  | .sources a => a.Canonical
  | .modules a => a.Canonical
  | .refuse _ | .load | .scan | .clear | .dispatch _ _ _ => True

theorem proper_filesAfter {P : ByteArray → Prop} {t : FileTree} (files : t.Proper P) {a : Action}
    (proper : a.Proper P) : (filesAfter t a).Proper P := by
  cases a with
  | files t => exact proper
  | _ => exact files

/-- Nothing has been done with the index yet. -/
structure Opened (w : Workspace) : Prop where
  graph : w.graph = .empty
  registry : w.registry = .empty
  sourceRoot : FileUri.Canonical w.sourceMatcher.root
  manifestRoot : FileUri.Canonical w.manifestMatcher.root

theorem andThen_cases {α β : Type} (step : Result α × Workspace) (next : α → Workspace → Result β × Workspace) :
    (andThen step next).2 = step.2 ∨ ∃ a, andThen step next = next a step.2 := by
  obtain ⟨result, w⟩ := step
  cases result with
  | ok a => exact .inr ⟨a, rfl⟩
  | error e => exact .inl rfl

/-- What holds after a step and after all that may follow it holds in the end. -/
theorem andThen_keeps {α β : Type} {Q : Workspace → Prop} {step : Result α × Workspace}
    {next : α → Workspace → Result β × Workspace} (first : Q step.2) (later : ∀ a w, Q w → Q (next a w).2) :
    Q (andThen step next).2 := by
  rcases andThen_cases step next with failed | ⟨a, same⟩
  · rw [failed]
    exact first
  · rw [same]
    exact later a step.2 first

/-- Both halves hold, in memory and in the store, what was made from files. -/
structure Genuine (P : ByteArray → Prop) (w : Workspace) : Prop where
  sources : w.sources.Genuine P w.store
  modules : w.modules.Genuine w.store
  sourceRoot : FileUri.Canonical w.sourceMatcher.root
  manifestRoot : FileUri.Canonical w.manifestMatcher.root

namespace Genuine

variable {P : ByteArray → Prop} {w : Workspace} {t : FileTree} {α : Type}

theorem withSources (g : w.Genuine P) {x : SourceIndex} (h : x.Genuine P w.store) : (w.withSources x).Genuine P where
  sources := ⟨h.transposed, h.made, h.rows, .refl _⟩
  modules := by
    obtain ⟨r, held, made⟩ := g.modules.rows
    exact ⟨g.modules.own, g.modules.made, ⟨r, held.congr h.frame, made⟩, .refl _⟩
  sourceRoot := g.sourceRoot
  manifestRoot := g.manifestRoot

theorem onModules (g : w.Genuine P) {f : ModuleIndex → α × ModuleIndex} (h : (f w.modules).2.Genuine w.store) :
    (w.onModules f).2.Genuine P where
  sources := by
    obtain ⟨m, held, made⟩ := g.sources.rows
    exact ⟨g.sources.transposed, g.sources.made, ⟨m, held.congr h.frame.sources, made⟩, .refl _⟩
  modules := ⟨h.own, h.made, h.rows, .refl _⟩
  sourceRoot := g.sourceRoot
  manifestRoot := g.manifestRoot

theorem load (g : w.Genuine P) (t : FileTree) : (w.load t).2.Genuine P := by
  have sources : (w.onSources (·.load t)).2.Genuine P := g.withSources (g.sources.load t)
  apply andThen_keeps sources
  intro _ w g
  have modules : (w.onModules (·.load t)).2.Genuine P := g.onModules (g.modules.load t)
  exact andThen_keeps modules fun _ _ g => g

theorem clear (g : w.Genuine P) : w.clear.2.Genuine P := by
  have sources : (w.onSources (·.clear)).2.Genuine P := g.withSources g.sources.clear
  exact andThen_keeps sources fun _ _ g => g.onModules g.modules.clear

theorem scan (g : w.Genuine P) (proper : t.Proper P) {done : WorkspaceScan × Workspace}
    (returns : w.scan t = some done) : done.2.Genuine P := by
  obtain ⟨inner, scanned, rfl⟩ := scan_eq_some.mp returns
  have sources : (w.withSources inner.2).Genuine P := g.withSources (g.sources.scan proper g.sourceRoot scanned)
  have modules : ((w.withSources inner.2).scanModules t).2.Genuine P :=
    sources.onModules (sources.modules.scan proper _ sources.manifestRoot)
  exact modules

theorem dispatch (g : w.Genuine P) (proper : t.Proper P) {target : Target} {event : FileEvent} {path : String}
    {done : Option (Result Unit) × Workspace} (returns : w.dispatch t target event path = some done) :
    done.2.Genuine P := by
  rcases dispatch_cases returns with same | ⟨u, named, ⟨rfl, _, inner, reacted, same⟩ | ⟨rfl, same⟩⟩ <;> rw [same]
  · exact g
  · exact g.withSources (g.sources.handle proper (FileUri.canonical_of_ofPath named) reacted)
  · exact g.onModules (g.modules.handle t _ event (FileUri.canonical_of_ofPath named))

theorem apply (g : w.Genuine P) (files : t.Proper P) {a : Action} (proper : a.Proper P) {next : Workspace}
    (returns : w.apply t a = some next) : next.Genuine P := by
  cases a with
  | files t => exact Option.some.inj returns ▸ g
  | refuse refusals =>
      obtain rfl := Option.some.inj returns
      obtain ⟨m, held, made⟩ := g.sources.rows
      obtain ⟨r, held_modules, made_modules⟩ := g.modules.rows
      exact ⟨⟨g.sources.transposed, g.sources.made, ⟨m, held.congr rfl, made⟩, .refl _⟩,
        ⟨g.modules.own, g.modules.made,
          ⟨r, ⟨held_modules.rows, held_modules.components, held_modules.own, held_modules.storable⟩, made_modules⟩,
          .refl _⟩,
        g.sourceRoot, g.manifestRoot⟩
  | load => exact Option.some.inj returns ▸ g.load t
  | scan =>
      obtain ⟨done, scanned, rfl⟩ := Option.map_eq_some_iff.mp returns
      exact g.scan files scanned
  | clear => exact Option.some.inj returns ▸ g.clear
  | entry u =>
      obtain ⟨done, read, rfl⟩ := Option.map_eq_some_iff.mp returns
      obtain ⟨inner, found, rfl⟩ := readSources_eq_some.mp read
      exact g.withSources (g.sources.getOrIndex files proper found)
  | dispatch target event path =>
      obtain ⟨done, passed, rfl⟩ := Option.map_eq_some_iff.mp returns
      exact g.dispatch files passed
  | sources a =>
      obtain ⟨x, applied, rfl⟩ := Option.map_eq_some_iff.mp returns
      exact g.withSources (g.sources.apply files g.sourceRoot proper applied)
  | modules a => exact Option.some.inj returns ▸ g.onModules (g.modules.apply files _ g.manifestRoot proper)

/-- At every point of a run all that is resident or stored was made from files. -/
theorem run (g : w.Genuine P) (files : t.Proper P) {actions : List Action} (proper : ∀ a ∈ actions, a.Proper P)
    {after : Workspace} {t' : FileTree} (returns : w.run t actions = some (after, t')) :
    after.Genuine P ∧ t'.Proper P := by
  refine run_keeps (Q := fun w t => w.Genuine P ∧ t.Proper P) ?_ ⟨g, files⟩ proper returns
  rintro w t a next ⟨g, files⟩ proper applied
  exact ⟨g.apply files proper applied, proper_filesAfter files proper⟩

end Genuine

end Workspace

/-- The store was empty once, and has been written since only by runs of the index. -/
inductive Store.Written (P : ByteArray → Prop) : Store → Prop where
  | empty : Written P .empty
  | run {w after : Workspace} {t t' : FileTree} {actions : List Workspace.Action} (opened : w.Opened)
      (before : Written P w.store) (files : t.Proper P) (proper : ∀ a ∈ actions, a.Proper P)
      (returns : w.run t actions = some (after, t')) : Written P after.store

variable {P : ByteArray → Prop}

theorem Workspace.Opened.genuine_of_rows {w : Workspace} (opened : w.Opened)
    (sources : ∃ m, w.store.HoldsSources m ∧ ∀ e ∈ m.values, e.Made P)
    (modules : ∃ r, w.store.HoldsModules r ∧ ∀ m ∈ r.toList, m.Made) : w.Genuine P := by
  refine ⟨⟨?_, ?_, sources, .refl _⟩, ⟨?_, ?_, modules, .refl _⟩, opened.sourceRoot, opened.manifestRoot⟩
  · change w.graph.Transposed
    rw [opened.graph]
    exact Graph.empty_transposed
  · intro u e live
    change w.graph.forward? u = some e at live
    rw [opened.graph] at live
    simp [Graph.forward?, Graph.get?, Graph.empty] at live
  · change w.registry.modules.KeyedBy ModuleEntry.name
    rw [opened.registry]
    exact OrdMap.keyedBy_empty
  · intro m member
    change m ∈ w.registry.toList at member
    rw [opened.registry] at member
    simp at member

/-- The rows that runs leave behind are those of entries and modules that were made from files. -/
theorem Store.Written.rows {s : Store} (written : Store.Written P s) :
    (∃ m, s.HoldsSources m ∧ ∀ e ∈ m.values, e.Made P) ∧ ∃ r, s.HoldsModules r ∧ ∀ m ∈ r.toList, m.Made := by
  induction written with
  | empty =>
      refine ⟨⟨.empty, Store.holdsSources_empty rfl, ?_⟩, ⟨.empty, Store.holdsModules_empty rfl rfl, ?_⟩⟩
      · simp
      · simp
  | run opened _ files proper returns ih =>
      obtain ⟨after, _⟩ := (opened.genuine_of_rows ih.1 ih.2).run files proper returns
      exact ⟨after.sources.rows, after.modules.rows⟩

theorem Workspace.Opened.genuine {w : Workspace} (opened : w.Opened) (written : Store.Written P w.store) : w.Genuine P :=
  opened.genuine_of_rows written.rows.1 written.rows.2

/-! ## A small workspace

A workspace below `/w` on an empty store, and file trees that hold one file in it. -/

namespace Sample

def root : Path := ⟨[.root, .name "w"]⟩

def source : FileUri := root.child "A.qml"

def manifest : FileUri := root.child "qmldir"

def holding (u : FileUri) (text : String) : FileTree :=
  { nodes := (OrdMap.empty.insert root (.directory 1)).insert u (.file ⟨text.toUTF8, 5⟩) }

def workspace : Workspace where
  root
  config := {}
  sourceMatcher := ⟨root, ⟨[.anyDirs, .anyRun, .char '.', .char 'q', .char 'm', .char 'l']⟩, none⟩
  manifestMatcher := ⟨root, ⟨[.anyDirs, .char 'q', .char 'm', .char 'l', .char 'd', .char 'i', .char 'r']⟩, none⟩
  store := .empty

theorem canonical_root : FileUri.Canonical root := rfl

theorem canonical_source : source.Canonical := rfl

theorem canonical_manifest : manifest.Canonical := rfl

theorem opened (store : Store) : Workspace.Opened { workspace with store } := ⟨rfl, rfl, canonical_root, canonical_root⟩

theorem holding_proper {P : ByteArray → Prop} {u : FileUri} {text : String} (canonical : u.Canonical)
    (content : P text.toUTF8) : (holding u text).Proper P := by
  refine (FileTree.proper_empty.insert canonical_root (by simp)).insert canonical ?_
  intro f same
  obtain rfl := Node.file.inj same
  exact content

end Sample

/-- A run that leaves certain files comes to a state. -/
theorem Workspace.run_eq_of_files {w fallback : Workspace} {t left files : FileTree} {actions : List Workspace.Action}
    (ends : (w.run t actions).map Prod.snd = some left) :
    w.run t actions = some (((w.run t actions).getD (fallback, files)).1, left) := by
  obtain ⟨⟨after, _⟩, returns, rfl⟩ := Option.map_eq_some_iff.mp ends
  simp only [returns, Option.getD_some]

end QmlIndex
