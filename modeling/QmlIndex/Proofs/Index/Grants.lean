import QmlIndex.Proofs.Index.Run

/-! # Calls of the store that do not fail

What an action asks of the store, and that it is granted. For the index of documents these are the calls on the
table of source files; for the index of modules, those on the tables of modules and components. A store that
refuses nothing of the source files grants whatever the index asks of them: no row that the index writes is
rejected for what it holds. What comes after a file that is read for ever is never asked.
-/

namespace QmlIndex

/-- A call does not fail. -/
def Succeeds {α : Type} (r : Result α) : Prop := ∃ a, r = .ok a

@[simp] theorem succeeds_ok {α : Type} (a : α) : Succeeds (.ok a : Result α) := ⟨a, rfl⟩

@[simp] theorem not_succeeds_error {α : Type} (e : Error) : ¬ Succeeds (.error e : Result α) := by simp [Succeeds]

instance {α : Type} : (r : Result α) → Decidable (Succeeds r)
  | .ok a => .isTrue ⟨a, rfl⟩
  | .error e => .isFalse (not_succeeds_error e)

/-! ## Documents -/

namespace SourceIndex

variable {P : ByteArray → Prop} {base : Store} {x : SourceIndex} {t : FileTree} {u : FileUri}

/-- The entries that are written when an entry is committed. -/
def touchedBy (x : SourceIndex) (e : SourceEntry) : List SourceEntry :=
  touched (x.graph.insert e) (((x.graph.get? e.uri).map SourceEntry.dependsOn).getD [])
    (((x.graph.insert e).get? e.uri).getD e)

/-- The entries that are written at the end of a batch. -/
def Progress.written (p : Progress) : List SourceEntry :=
  p.produced.filterMap fun e => (p.index.graph.get? e.uri).filter (·.isCurrent e.contentHash e.lastModified)

/-- If indexing a file makes an entry, the store takes it. -/
def IndexGranted (x : SourceIndex) (t : FileTree) (u : FileUri) : Prop :=
  ∀ e, examine t u (x.graph.get? u) = some (.ok (e, .parsed)) → Succeeds (x.store.saveSources (x.touchedBy e)).1

/-- The store lets the rows of an invalidation be deleted. -/
def InvalidateGranted (x : SourceIndex) (u : FileUri) : Prop :=
  Succeeds (x.store.removeSources (invalidatedRows x.graph u)).1

/-- The store takes what each batch has produced. -/
def BatchesGranted (t : FileTree) : ScanStats × SourceIndex → List (List Path) → Prop
  | _, [] => True
  | s, batch :: rest => ∀ p, batch.foldlM (Progress.step t) ⟨s.1, [], s.2⟩ = some p →
    Succeeds (p.index.store.saveSources p.written).1 ∧ BatchesGranted t (p.stats, p.index.persist p.produced) rest

/-- No call of the store fails that an action makes. -/
def Granted (x : SourceIndex) (t : FileTree) (m : Matcher) (batchSize : Nat) : Action → Prop
  | .indexFile u persist => persist = true → x.IndexGranted t u
  | .getOrIndex u => x.graph.get? u = none → t.contains u = true → x.IndexGranted t u
  | .invalidate u => x.InvalidateGranted u
  | .handle event u => x.InvalidateGranted u ∧ (event ≠ .deleted → (x.invalidate u).2.IndexGranted t u)
  | .scan => BatchesGranted t ({ files := (m.walk t).length }, x) (pieces (batchSize - 1) (m.walk t))
  | .load => Succeeds (x.load t).1
  | .clear => Succeeds x.clear.1

theorem load_granted {m : OrdMap FileUri SourceEntry} (held : x.store.HoldsSources m) (yields : x.store.Yields .sources)
    (t : FileTree) : Succeeds (x.load t).1 := by
  obtain ⟨entries, after, loaded⟩ := Store.loadSources_granted yields held t
  exact ⟨_, by rw [SourceIndex.load, loaded]⟩

namespace Genuine

theorem yields (g : x.Genuine P base) (yields : base.Yields .sources) : x.store.Yields .sources :=
  g.frame.yields yields

theorem save_granted (g : x.Genuine P base) (yields : base.Yields .sources) {entries : List SourceEntry}
    (live : ∀ e ∈ entries, ∃ u, x.graph.get? u = some e) : Succeeds (x.store.saveSources entries).1 := by
  have made : ∀ e ∈ entries, e.Made P := by
    intro e member
    obtain ⟨u, live⟩ := live e member
    exact g.made_of_get? live
  exact ⟨_, Store.saveSources_granted (g.yields yields) (fun e member => (made e member).canonical)
    fun e member => (made e member).hashed⟩

theorem indexGranted (g : x.Genuine P base) (yields : base.Yields .sources) (proper : t.Proper P)
    (canonical : u.Canonical) : x.IndexGranted t u := by
  intro e examined
  have called : described t u = some e := by
    rcases examine_cases t u (x.graph.get? u) with ⟨_, _, _, _, _, cached⟩ | afresh
    · simp [cached] at examined
    · rw [described, ← afresh, examined]
  have inserted : Genuine P base ⟨x.graph.insert e, x.store⟩ :=
    g.commit (made_of_described proper canonical called) false
  apply inserted.save_granted yields
  intro d member
  obtain ⟨v, _, live⟩ := List.mem_filterMap.mp member
  exact ⟨v, live⟩

theorem invalidateGranted (g : x.Genuine P base) (yields : base.Yields .sources) (u : FileUri) :
    x.InvalidateGranted u := by
  obtain ⟨n, _, done⟩ := Store.removeSources_granted (g.yields yields) (invalidatedRows x.graph u)
  exact ⟨n, congrArg Prod.fst done⟩

theorem batchesGranted (yields : base.Yields .sources) (proper : t.Proper P) {s : ScanStats × SourceIndex}
    (g : s.2.Genuine P base) {batches : List (List Path)}
    (canonical : ∀ p ∈ batches.flatten, FileUri.Canonical p.normalize) : BatchesGranted t s batches := by
  induction batches generalizing s with
  | nil => trivial
  | cons batch rest ih =>
      rw [List.flatten_cons] at canonical
      have first : ∀ p ∈ batch, FileUri.Canonical p.normalize :=
        fun p member => canonical p (List.mem_append_left rest.flatten member)
      intro p done
      have worked : p.index.Genuine P base := steps (p := ⟨s.1, [], s.2⟩) g proper first done
      refine ⟨worked.save_granted yields fun e member => ?_,
        ih (worked.persist p.produced) fun p member => canonical p (List.mem_append_right batch member)⟩
      obtain ⟨d, _, kept⟩ := List.mem_filterMap.mp member
      exact ⟨d.uri, (Option.filter_eq_some_iff.mp kept).1⟩

/-- A store that refuses nothing of the source files grants whatever is asked of it. -/
theorem granted (g : x.Genuine P base) (yields : base.Yields .sources) (proper : t.Proper P) {m : Matcher}
    (root : FileUri.Canonical m.root) (batchSize : Nat) {a : Action} (canonical : a.Canonical) :
    x.Granted t m batchSize a := by
  cases a with
  | indexFile u persist => exact fun _ => g.indexGranted yields proper canonical
  | getOrIndex u => exact fun _ _ => g.indexGranted yields proper canonical
  | invalidate u => exact g.invalidateGranted yields u
  | handle event u =>
      exact ⟨g.invalidateGranted yields u, fun _ => (g.invalidate canonical).indexGranted yields proper canonical⟩
  | scan =>
      apply batchesGranted yields proper g
      rw [flatten_pieces]
      exact m.canonical_normalize root proper
  | load =>
      obtain ⟨m, held, _⟩ := g.rows
      exact load_granted held (g.yields yields) t
  | clear =>
      have done : x.store.clearSources = (.ok (), x.store.clearSources.2) :=
        Prod.ext (Store.clearSources_granted (g.yields yields)) rfl
      exact ⟨(), by rw [SourceIndex.clear, done]⟩

end Genuine

end SourceIndex

/-! ## Modules -/

namespace ModuleIndex

variable {x : ModuleIndex} {t : FileTree} {naming : Naming} {m : Matcher} {u : FileUri} {name : String}

/-- If indexing a manifest makes a module, the store takes it. -/
def IndexGranted (x : ModuleIndex) (t : FileTree) (naming : Naming) (u : FileUri) : Prop :=
  ∀ m, (x.indexManifest t naming u).1 = .ok (.registered m) → Succeeds (x.store.saveModule m).1

/-- The store takes the modules of all manifests of a scan. -/
def ScanGranted (t : FileTree) (naming : Naming) : ModuleIndex → List Path → Prop
  | _, [] => True
  | x, path :: rest =>
    x.IndexGranted t naming path.normalize ∧ ScanGranted t naming (x.indexManifest t naming path.normalize).2 rest

/-- The store lets a module be removed. -/
def RemoveGranted (x : ModuleIndex) (name : String) : Prop := Succeeds (x.store.removeModule name).1

/-- If a manifest has a module, the store lets it be removed. -/
def RemoveManifestGranted (x : ModuleIndex) (u : FileUri) : Prop :=
  ∀ name, x.nameOfManifest? u = some name → x.RemoveGranted name

/-- No call of the store fails that an action makes. -/
def Granted (x : ModuleIndex) (t : FileTree) (naming : Naming) (m : Matcher) : Action → Prop
  | .indexManifest u => x.IndexGranted t naming u
  | .removeModule name => x.RemoveGranted name
  | .removeManifest u => x.RemoveManifestGranted u
  | .handle event u =>
    x.RemoveManifestGranted u ∧ (event ≠ .deleted → (x.removeManifest u).2.IndexGranted t naming u)
  | .scan => ScanGranted t naming x (m.walk t)
  | .load => Succeeds (x.load t).1
  | .clear => Succeeds x.clear.1

instance : Decidable (x.IndexGranted t naming u) :=
  match result : (x.indexManifest t naming u).1 with
  | .ok (.registered m) => decidable_of_iff (Succeeds (x.store.saveModule m).1) (by simp [IndexGranted, result])
  | .ok (.resident _) => .isTrue (by simp [IndexGranted, result])
  | .ok .empty => .isTrue (by simp [IndexGranted, result])
  | .error _ => .isTrue (by simp [IndexGranted, result])

instance decidableScanGranted : (x : ModuleIndex) → (paths : List Path) → Decidable (ScanGranted t naming x paths)
  | _, [] => .isTrue trivial
  | x, path :: rest =>
    have : Decidable (ScanGranted t naming (x.indexManifest t naming path.normalize).2 rest) :=
      decidableScanGranted _ rest
    inferInstanceAs (Decidable (_ ∧ _))

instance : Decidable (x.RemoveGranted name) := inferInstanceAs (Decidable (Succeeds _))

instance : Decidable (x.RemoveManifestGranted u) :=
  match found : x.nameOfManifest? u with
  | some name => decidable_of_iff (x.RemoveGranted name) (by simp [RemoveManifestGranted, found])
  | none => .isTrue (by simp [RemoveManifestGranted, found])

instance : (a : Action) → Decidable (x.Granted t naming m a)
  | .indexManifest u => inferInstanceAs (Decidable (x.IndexGranted t naming u))
  | .removeModule name => inferInstanceAs (Decidable (x.RemoveGranted name))
  | .removeManifest u => inferInstanceAs (Decidable (x.RemoveManifestGranted u))
  | .handle _ _ => inferInstanceAs (Decidable (_ ∧ (_ → _)))
  | .scan => inferInstanceAs (Decidable (ScanGranted t naming x (m.walk t)))
  | .load => inferInstanceAs (Decidable (Succeeds _))
  | .clear => inferInstanceAs (Decidable (Succeeds _))

end ModuleIndex

/-! ## Workspaces -/

namespace Workspace

/-- No call on the table of source files fails that an action makes. -/
def SourcesGranted (w : Workspace) (t : FileTree) : Action → Prop
  | .files _ | .refuse _ | .modules _ | .dispatch .modules _ _ => True
  | .load => granted .load
  | .scan => granted .scan
  | .clear => granted .clear
  | .entry u => granted (.getOrIndex u)
  | .dispatch .sources event path => w.sourceMatcher.accepts path = true →
    ∀ u, FileUri.ofPath .rootDir path = .ok u → granted (.handle event u)
  | .sources a => granted a
where
  granted (a : SourceIndex.Action) : Prop := w.sources.Granted t w.sourceMatcher w.config.effectiveBatchSize a

/-- No call on the table of source files fails in a run. -/
def RunSourcesGranted (w : Workspace) (t : FileTree) : List Action → Prop
  | [] => True
  | a :: rest =>
    w.SourcesGranted t a ∧ ∀ next, w.apply t a = some next → RunSourcesGranted next (filesAfter t a) rest

namespace Genuine

variable {P : ByteArray → Prop} {w : Workspace} {t : FileTree}

theorem sourcesGranted (g : w.Genuine P) (yields : w.store.Yields .sources) (files : t.Proper P) {a : Action}
    (proper : a.Proper P) : w.SourcesGranted t a := by
  have granted : ∀ a : SourceIndex.Action, a.Canonical → SourcesGranted.granted w t a :=
    fun _ canonical => g.sources.granted yields files g.sourceRoot _ canonical
  cases a with
  | files _ | refuse _ | modules _ => trivial
  | load | scan | clear => exact granted _ trivial
  | entry u => exact granted _ proper
  | sources a => exact granted _ proper
  | dispatch target event path =>
      cases target with
      | modules => trivial
      | sources => exact fun _ u found => granted _ (FileUri.canonical_of_ofPath found)

end Genuine

end Workspace

end QmlIndex
