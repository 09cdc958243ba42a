import QmlIndex.Proofs.Index.Grants

/-! # The store mirrors memory

While no call of the store fails, the table of source files holds the resident entries, each under its path and
up to the edges towards it. A restart therefore finds what was resident, as far as the files are as they were.
Rows are written from several places: a batch of a scan is written after all its files are indexed, so inside a
batch the paths that it has produced so far are excepted.
-/

namespace QmlIndex

namespace SourceIndex

open QmlIndex.Graph

variable {P : ByteArray → Prop} {base : Store} {x : SourceIndex} {t : FileTree} {u : FileUri}

/-- The table holds the resident entries up to the edges towards them, a set of paths excepted. -/
def MirrorsBut (except : FileUri → Prop) (x : SourceIndex) : Prop :=
  ∃ m, x.store.HoldsSources m ∧ ∀ u, ¬ except u → (m.get? u).map SourceEntry.forward = x.graph.forward? u

/-- The table holds the resident entries up to the edges towards them. -/
def Mirrors (x : SourceIndex) : Prop := x.MirrorsBut fun _ => False

/-- Writing resident entries makes the table right at their paths. -/
theorem MirrorsBut.save {except : FileUri → Prop} (h : x.MirrorsBut except) (g : x.Genuine P base)
    {entries : List SourceEntry} (granted : Succeeds (x.store.saveSources entries).1)
    (live : ∀ e ∈ entries, x.graph.get? e.uri = some e) (covered : ∀ u, except u → ∃ e ∈ entries, e.uri = u) :
    Mirrors ⟨x.graph, (x.store.saveSources entries).2⟩ := by
  obtain ⟨m, held, others⟩ := h
  obtain ⟨n, granted⟩ := granted
  rcases held.save fun e member => g.storable (live e member) with ⟨fault, failed⟩ | ⟨n, after, saved, holds, _⟩
  · simp [failed] at granted
  · rw [saved]
    refine ⟨_, holds, fun u _ => ?_⟩
    rw [OrdMap.get?_insertAll, ← List.map_reverse, List.find?_map, Option.map_map]
    cases found : entries.reverse.find? ((fun e => decide (e.1 = u)) ∘ fun e => (e.uri, e)) with
    | some e =>
        have here : e.uri = u := by simpa using List.find?_some found
        have member := List.mem_reverse.mp (List.mem_of_find?_eq_some found)
        rw [forward?, ← here, live e member]
        rfl
    | none =>
        have missing : ∀ e ∈ entries, e.uri ≠ u := by
          intro e member
          simpa using List.find?_eq_none.mp found e (List.mem_reverse.mpr member)
        rw [Option.map_none, Option.none_or]
        apply others
        intro excepted
        obtain ⟨e, member, here⟩ := covered u excepted
        exact missing e member here

/-! ## One file -/

theorem Mirrors.insert (h : x.Mirrors) (g : x.Genuine P base) (e : SourceEntry) :
    MirrorsBut (· = e.uri) ⟨x.graph.insert e, x.store⟩ := by
  obtain ⟨m, held, same⟩ := h
  refine ⟨m, held, fun u other => ?_⟩
  rw [same u id, forward?_insert g.transposed, if_neg other]

theorem Mirrors.commit {e : SourceEntry} (h : x.Mirrors) (g : x.Genuine P base) (made : e.Made P)
    (granted : Succeeds (x.store.saveSources (x.touchedBy e)).1) : (x.commit e true).2.Mirrors := by
  -- The rows touched are of resident entries, and the new entry is one of them.
  have inserted : Genuine P base ⟨x.graph.insert e, x.store⟩ := g.commit made false
  apply (h.insert g e).save inserted granted
  · intro d member
    obtain ⟨u, _, live⟩ := List.mem_filterMap.mp member
    rw [inserted.transposed.own live]
    exact live
  · rintro u rfl
    obtain ⟨d, live, _⟩ : ∃ d, (x.graph.insert e).get? e.uri = some d ∧ d.forward = e.forward := by
      apply Option.map_eq_some_iff.mp
      exact (forward?_insert g.transposed e e.uri).trans (if_pos rfl)
    have own : d.uri = e.uri := inserted.transposed.own live
    refine ⟨d, List.mem_filterMap.mpr ⟨e.uri, ?_, live⟩, own⟩
    simp [live, own]

theorem Mirrors.indexFile (h : x.Mirrors) (g : x.Genuine P base) (proper : t.Proper P) (canonical : u.Canonical)
    (granted : x.IndexGranted t u) {done : Result (SourceEntry × Outcome) × SourceIndex}
    (returns : x.indexFile t u true = some done) : done.2.Mirrors := by
  rcases indexFile_cases returns with ⟨_, _, _, _, _, rfl⟩ | ⟨_, _, rfl⟩ | ⟨e, called, examined, rfl⟩
  · exact h
  · exact h
  · exact h.commit g (made_of_described proper canonical called) (granted e examined)

theorem Mirrors.invalidate (h : x.Mirrors) (g : x.Genuine P base) (canonical : u.Canonical)
    (granted : x.InvalidateGranted u) : (x.invalidate u).2.Mirrors := by
  obtain ⟨m, held, same⟩ := h
  have cleared := invalidate_cleared g.transposed u
  obtain ⟨n, granted⟩ := granted
  rcases held.remove (g.canonical_of_mem_invalidatedRows canonical) with ⟨fault, failed⟩ | ⟨_, after, done, holds, _⟩
  · simp [failed] at granted
  · have store : (x.invalidate u).2.store = after := congrArg Prod.snd done
    refine ⟨_, store ▸ holds, fun v _ => ?_⟩
    change _ = (x.graph.invalidate u).1.forward? v
    rw [cleared.forward, OrdMap.get?_filter, ← same v id]
    by_cases removed : v ∈ (x.graph.invalidate u).2
    · cases m.get? v <;> simp [Option.filter, removed, mem_invalidatedRows]
    · rw [if_neg removed]
      by_cases here : v = u
      · -- A path that is not removed though it is the one invalidated was not resident.
        have absent : m.get? v = none := by
          cases stored : m.get? v with
          | none => rfl
          | some e =>
              have live := same v id
              rw [stored, Option.map_some] at live
              obtain ⟨d, resident, _⟩ := Option.map_eq_some_iff.mp live.symm
              refine absurd ((cleared.mem_removed v).mpr ⟨v, by simp [here], .here ?_⟩) removed
              exact contains_iff.mpr ⟨d, resident⟩
        rw [absent]
        rfl
      · cases m.get? v <;> simp [Option.filter, removed, here, mem_invalidatedRows]

theorem Mirrors.handle (h : x.Mirrors) (g : x.Genuine P base) (proper : t.Proper P) {event : FileEvent}
    (canonical : u.Canonical) (invalidation : x.InvalidateGranted u)
    (granted : event ≠ .deleted → (x.invalidate u).2.IndexGranted t u) {done : Result Unit × SourceIndex}
    (returns : x.handle t event u = some done) : done.2.Mirrors := by
  have invalidated := h.invalidate g canonical invalidation
  cases event with
  | deleted => exact Option.some.inj returns ▸ invalidated
  | created | changed =>
      obtain ⟨_, indexed, rfl⟩ := Option.map_eq_some_iff.mp returns
      exact invalidated.indexFile (g.invalidate canonical) proper canonical (granted (by simp)) indexed

theorem Mirrors.getOrIndex (h : x.Mirrors) (g : x.Genuine P base) (proper : t.Proper P) (canonical : u.Canonical)
    (granted : x.graph.get? u = none → t.contains u = true → x.IndexGranted t u)
    {done : Result (Option SourceEntry) × SourceIndex} (returns : x.getOrIndex t u = some done) : done.2.Mirrors := by
  rw [SourceIndex.getOrIndex] at returns
  split at returns
  · exact Option.some.inj returns ▸ h
  · rename_i absent
    split at returns
    · rename_i node found
      obtain ⟨_, indexed, rfl⟩ := Option.map_eq_some_iff.mp returns
      exact h.indexFile g proper canonical (granted absent (by simp [FileTree.contains, found])) indexed
    · exact Option.some.inj returns ▸ h

/-! ## Scans -/

/-- What holds inside a batch: only the paths of the entries produced so far may be wrong in the table, and these
    entries are what their files call for. -/
structure Progress.Pending (t : FileTree) (p : Progress) : Prop where
  mirrors : p.index.MirrorsBut fun u => ∃ e ∈ p.produced, e.uri = u
  called : ∀ e ∈ p.produced, described t e.uri = some e.forward
  resident : ∀ e ∈ p.produced, p.index.graph.forward? e.uri = some e.forward

theorem Progress.Pending.step {p q : Progress} (h : p.Pending t) (g : p.index.Genuine P base) {path : Path}
    (returns : p.step t path = some q) : q.Pending t := by
  obtain ⟨done, indexed, rfl⟩ := Progress.step_eq_some.mp returns
  rcases indexFile_cases indexed with ⟨_, _, _, _, _, rfl⟩ | ⟨_, _, rfl⟩ | ⟨e, called, _, rfl⟩
  · exact ⟨h.mirrors, h.called, h.resident⟩
  · exact ⟨h.mirrors, h.called, h.resident⟩
  · obtain ⟨own, whole⟩ := described_uri called
    have forward := forward?_insert g.transposed e
    -- The produced entry is the resident one, which has the edges towards it besides.
    obtain ⟨d, live, agrees⟩ : ∃ d, (p.index.graph.insert e).get? e.uri = some d ∧ d.forward = e.forward :=
      Option.map_eq_some_iff.mp ((forward e.uri).trans (if_pos rfl))
    have d_uri : d.uri = e.uri := (g.transposed.insert e).own live
    have stored : (p.index.commit e false).1 = d := by rw [commit, live, Option.getD_some]
    rw [stored, Progress.enter]
    obtain ⟨m, held, others⟩ := h.mirrors
    refine ⟨⟨m, held, fun u unlisted => ?_⟩, fun c member => ?_, fun c member => ?_⟩
    · have other : u ≠ e.uri := by
        rintro rfl
        exact unlisted ⟨d, by simp, d_uri⟩
      have unproduced : ¬ ∃ c ∈ p.produced, c.uri = u := by
        rintro ⟨c, member, here⟩
        exact unlisted ⟨c, by simp [member], here⟩
      exact (others u unproduced).trans ((forward u).trans (if_neg other)).symm
    · rcases List.mem_append.mp member with before | last
      · exact h.called c before
      · obtain rfl := List.mem_singleton.mp last
        rw [d_uri, own, called, agrees, whole]
    · refine (forward c.uri).trans ?_
      rcases List.mem_append.mp member with before | last
      · split
        · rename_i again
          have twice := h.called c before
          rw [again, own, called] at twice
          rw [whole, twice]
        · exact h.resident c before
      · obtain rfl := List.mem_singleton.mp last
        rw [if_pos d_uri, agrees]

/-- Writing what a batch produced makes the whole table right. -/
theorem Progress.Pending.persist {p : Progress} (h : p.Pending t) (g : p.index.Genuine P base)
    (granted : Succeeds (p.index.store.saveSources p.written).1) : (p.index.persist p.produced).Mirrors := by
  apply h.mirrors.save g granted
  · intro e member
    obtain ⟨d, _, kept⟩ := List.mem_filterMap.mp member
    have live := (Option.filter_eq_some_iff.mp kept).1
    rw [g.transposed.own live]
    exact live
  · rintro u ⟨e, member, rfl⟩
    obtain ⟨d, live, agrees⟩ := Option.map_eq_some_iff.mp (h.resident e member)
    have hash : d.forward.contentHash = e.forward.contentHash := congrArg SourceEntry.contentHash agrees
    have time : d.forward.lastModified = e.forward.lastModified := congrArg SourceEntry.lastModified agrees
    refine ⟨d, List.mem_filterMap.mpr ⟨e, member, ?_⟩, g.transposed.own live⟩
    rw [live, Option.filter_eq_some_iff]
    exact ⟨rfl, by simpa [SourceEntry.isCurrent] using ⟨hash, time⟩⟩

theorem Progress.Pending.steps {p q : Progress} (h : p.Pending t) (g : p.index.Genuine P base) (proper : t.Proper P)
    {paths : List Path} (canonical : ∀ q ∈ paths, FileUri.Canonical q.normalize)
    (returns : paths.foldlM (Progress.step t) p = some q) : q.Pending t := by
  induction paths generalizing p with
  | nil => exact Option.some.inj returns ▸ h
  | cons path rest ih =>
      obtain ⟨mid, first, later⟩ := Progress.steps_cons.mp returns
      exact ih (h.step g first) (g.step proper (canonical path List.mem_cons_self) first)
        (fun q member => canonical q (List.mem_cons_of_mem path member)) later

/-- A batch makes the table right, if the store takes what it has produced. -/
theorem Mirrors.batch {stats : ScanStats} (h : x.Mirrors) (g : x.Genuine P base) (proper : t.Proper P)
    {batch : List Path} (canonical : ∀ p ∈ batch, FileUri.Canonical p.normalize) {p : Progress}
    (settled : batch.foldlM (Progress.step t) ⟨stats, [], x⟩ = some p)
    (granted : Succeeds (p.index.store.saveSources p.written).1) : (p.index.persist p.produced).Mirrors := by
  obtain ⟨m, held, same⟩ := h
  have start : Progress.Pending t ⟨stats, [], x⟩ := ⟨⟨m, held, fun u _ => same u id⟩, by simp, by simp⟩
  have genuine := Genuine.steps (p := ⟨stats, [], x⟩) g proper canonical settled
  exact (start.steps g proper canonical settled).persist genuine granted

theorem Mirrors.batches {s s' : ScanStats × SourceIndex} (h : s.2.Mirrors) (g : s.2.Genuine P base)
    (proper : t.Proper P) {batches : List (List Path)}
    (canonical : ∀ p ∈ batches.flatten, FileUri.Canonical p.normalize) (granted : BatchesGranted t s batches)
    (returns : batches.foldlM (SourceIndex.scanBatch t) s = some s') : s'.2.Mirrors := by
  induction batches generalizing s with
  | nil => exact Option.some.inj returns ▸ h
  | cons batch rest ih =>
      rw [List.flatten_cons] at canonical
      have members : ∀ p ∈ batch, FileUri.Canonical p.normalize :=
        fun p member => canonical p (List.mem_append_left rest.flatten member)
      obtain ⟨mid, first, later⟩ := batches_cons.mp returns
      have genuine := g.scanBatch proper members first
      obtain ⟨p, settled, rfl⟩ := scanBatch_eq_some.mp first
      obtain ⟨taken, others⟩ := granted p settled
      exact ih (h.batch g proper members settled taken) genuine
        (fun p member => canonical p (List.mem_append_right batch member)) others later

theorem Mirrors.scan (h : x.Mirrors) (g : x.Genuine P base) (proper : t.Proper P) {m : Matcher}
    (root : FileUri.Canonical m.root) {batchSize : Nat} (granted : x.Granted t m batchSize .scan)
    {done : ScanStats × SourceIndex} (returns : x.scan t m batchSize = some done) : done.2.Mirrors := by
  obtain ⟨last, settled, rfl⟩ := scanBatches_eq_some.mp returns
  have all := flatten_pieces (batchSize - 1) (m.walk t)
  have canonical : ∀ p ∈ (pieces (batchSize - 1) (m.walk t)).flatten, FileUri.Canonical p.normalize := by
    rw [all]
    exact m.canonical_normalize root proper
  rw [all] at settled
  obtain ⟨rows, held, same⟩ :=
    Mirrors.batches (s := ({ files := (m.walk t).length }, x)) h g proper canonical granted settled
  exact ⟨rows, held, fun u outside => (same u outside).trans (forward?_rebuild _ u).symm⟩

/-! ## Restarts -/

/-- A load that does not fail makes resident what the table holds and the files bear out, and leaves just that in
    the table. -/
theorem load_of_holds {m : OrdMap FileUri SourceEntry} (held : x.store.HoldsSources m) {n : Nat}
    (granted : (x.load t).1 = .ok n) :
    n = (x.load t).2.graph.size ∧ (x.load t).2.graph.Transposed ∧
      (x.load t).2.store.HoldsSources (Store.currentSources t m) ∧
      ∀ u, (x.load t).2.graph.forward? u = ((Store.currentSources t m).get? u).map SourceEntry.forward := by
  rcases held.load t with ⟨fault, failed⟩ | ⟨entries, after, loaded, listed, holds, _⟩
  · simp [SourceIndex.load, failed] at granted
  · rw [SourceIndex.load, loaded] at granted ⊢
    refine ⟨(Except.ok.inj granted).symm, load_transposed entries, holds, fun u => ?_⟩
    rw [forward?_load, holds.own.find?_perm (entries.reverse_perm.trans listed)]

theorem load_keepsModules {m : OrdMap FileUri SourceEntry} (held : x.store.HoldsSources m) (t : FileTree) :
    x.store.KeepsModules (x.load t).2.store := by
  rcases held.load t with ⟨fault, failed⟩ | ⟨entries, after, loaded, _, _, kept⟩
  · rw [SourceIndex.load, failed]
    exact .refl _
  · rw [SourceIndex.load, loaded]
    exact kept

theorem Genuine.load_mirrors (g : x.Genuine P base) (granted : Succeeds (x.load t).1) : (x.load t).2.Mirrors := by
  obtain ⟨m, held, _⟩ := g.rows
  obtain ⟨n, granted⟩ := granted
  obtain ⟨_, _, holds, forward⟩ := load_of_holds held granted
  exact ⟨_, holds, fun u _ => (forward u).symm⟩

theorem clear_mirrors (granted : Succeeds x.clear.1) : x.clear.2.Mirrors := by
  rcases x.store.clearSources_cases with ⟨fault, failed⟩ | ⟨after, done, holds, _⟩
  · simp [SourceIndex.clear, failed] at granted
  · rw [SourceIndex.clear, done]
    exact ⟨.empty, holds, fun _ _ => rfl⟩

end SourceIndex

theorem ModuleIndex.load_keepsSources {x : ModuleIndex} {r : Registry} (held : x.store.HoldsModules r) (t : FileTree) :
    x.store.KeepsSources (x.load t).2.store := by
  rcases held.load t with ⟨fault, failed⟩ | ⟨modules, after, loaded, _, _, kept⟩
  · rw [ModuleIndex.load, failed]
    exact .refl _
  · rw [ModuleIndex.load, loaded]
    exact kept

namespace Workspace

/-- What the whole index can be asked to do, and what happens around it. -/
def Action.Facade : Action → Prop
  | .files _ | .refuse _ | .load | .scan | .clear | .entry _ | .dispatch _ _ _ => True
  | .sources _ | .modules _ => False

/-- What holds at every point of a run of the whole index that began with a load and in which no call on the table
    of source files fails. -/
structure Mirrors (P : ByteArray → Prop) (w : Workspace) : Prop where
  genuine : w.Genuine P
  mirrors : w.sources.Mirrors

namespace Mirrors

variable {P : ByteArray → Prop} {w : Workspace} {t : FileTree} {α : Type}

theorem onModules (h : w.Mirrors P) {f : ModuleIndex → α × ModuleIndex} (genuine : (f w.modules).2.Genuine w.store) :
    (w.onModules f).2.Mirrors P := by
  obtain ⟨m, held, same⟩ := h.mirrors
  exact ⟨h.genuine.onModules genuine, m, held.congr genuine.frame.sources, same⟩

theorem load (g : w.Genuine P) (granted : Succeeds (w.sources.load t).1) : (w.load t).2.Mirrors P := by
  have sources : (w.onSources (·.load t)).2.Mirrors P :=
    ⟨g.withSources (g.sources.load t), g.sources.load_mirrors granted⟩
  apply andThen_keeps sources
  intro _ w h
  have modules : (w.onModules (·.load t)).2.Mirrors P := h.onModules (h.genuine.modules.load t)
  exact andThen_keeps modules fun _ _ h => h

theorem clear (h : w.Mirrors P) (granted : Succeeds w.sources.clear.1) : w.clear.2.Mirrors P := by
  have sources : (w.onSources (·.clear)).2.Mirrors P :=
    ⟨h.genuine.withSources h.genuine.sources.clear, SourceIndex.clear_mirrors granted⟩
  exact andThen_keeps sources fun _ _ h => h.onModules h.genuine.modules.clear

theorem scan (h : w.Mirrors P) (files : t.Proper P) (granted : w.SourcesGranted t .scan)
    {done : WorkspaceScan × Workspace} (returns : w.scan t = some done) : done.2.Mirrors P := by
  have g := h.genuine
  obtain ⟨inner, scanned, rfl⟩ := scan_eq_some.mp returns
  have sources : (w.withSources inner.2).Mirrors P :=
    ⟨g.withSources (g.sources.scan files g.sourceRoot scanned),
      h.mirrors.scan g.sources files g.sourceRoot granted scanned⟩
  have modules : ((w.withSources inner.2).scanModules t).2.Mirrors P :=
    sources.onModules (sources.genuine.modules.scan files _ sources.genuine.manifestRoot)
  exact modules

theorem dispatch (h : w.Mirrors P) (files : t.Proper P) {target : Target} {event : FileEvent} {path : String}
    (granted : w.SourcesGranted t (.dispatch target event path)) {done : Option (Result Unit) × Workspace}
    (returns : w.dispatch t target event path = some done) : done.2.Mirrors P := by
  have g := h.genuine
  rcases dispatch_cases returns with same | ⟨u, named, ⟨rfl, accepts, inner, reacted, same⟩ | ⟨rfl, same⟩⟩ <;> rw [same]
  · exact h
  · obtain ⟨invalidation, indexing⟩ := granted accepts u named
    have canonical := FileUri.canonical_of_ofPath named
    exact ⟨g.withSources (g.sources.handle files canonical reacted),
      h.mirrors.handle g.sources files canonical invalidation indexing reacted⟩
  · exact h.onModules (g.modules.handle t _ event (FileUri.canonical_of_ofPath named))

theorem apply (h : w.Mirrors P) (files : t.Proper P) {a : Action} (proper : a.Proper P) (facade : a.Facade)
    (granted : w.SourcesGranted t a) {next : Workspace} (returns : w.apply t a = some next) : next.Mirrors P := by
  have g := h.genuine
  cases a with
  | files t => exact Option.some.inj returns ▸ h
  | refuse refusals =>
      obtain ⟨m, held, same⟩ := h.mirrors
      have genuine := g.apply files proper returns
      obtain rfl := Option.some.inj returns
      exact ⟨genuine, m, held.congr rfl, same⟩
  | load => exact Option.some.inj returns ▸ load g granted
  | scan =>
      obtain ⟨done, scanned, rfl⟩ := Option.map_eq_some_iff.mp returns
      exact h.scan files granted scanned
  | clear => exact Option.some.inj returns ▸ h.clear granted
  | entry u =>
      obtain ⟨done, read, rfl⟩ := Option.map_eq_some_iff.mp returns
      obtain ⟨inner, found, rfl⟩ := readSources_eq_some.mp read
      exact ⟨g.withSources (g.sources.getOrIndex files proper found),
        h.mirrors.getOrIndex g.sources files proper granted found⟩
  | dispatch target event path =>
      obtain ⟨done, passed, rfl⟩ := Option.map_eq_some_iff.mp returns
      exact h.dispatch files granted passed
  | sources _ | modules _ => exact facade.elim

theorem run (h : w.Mirrors P) (files : t.Proper P) {actions : List Action} (proper : ∀ a ∈ actions, a.Proper P)
    (facade : ∀ a ∈ actions, a.Facade) (granted : w.RunSourcesGranted t actions) {after : Workspace} {t' : FileTree}
    (returns : w.run t actions = some (after, t')) : after.Mirrors P := by
  induction actions generalizing w t with
  | nil =>
      obtain ⟨rfl, _⟩ := Prod.mk.inj (Option.some.inj returns)
      exact h
  | cons a rest ih =>
      have first := proper a List.mem_cons_self
      obtain ⟨next, applied, later⟩ := run_cons.mp returns
      exact ih (h.apply files first (facade a List.mem_cons_self) granted.1 applied) (proper_filesAfter files first)
        (fun b member => proper b (List.mem_cons_of_mem a member))
        (fun b member => facade b (List.mem_cons_of_mem a member)) (granted.2 next applied) later

end Mirrors

/-! ## Rows and resident entries -/

/-- Rows and resident entries correspond one to one by their paths, and each row decodes to its entry up to the
    edges towards it. -/
structure RowsOfResident (s : Store) (g : Graph) : Prop where
  unique : (s.sources.map SourceRow.path).Nodup
  decode : ∀ r ∈ s.sources, ∃ u e d, g.get? u = some e ∧ r.path = some u.toString ∧ r.decode = .ok d ∧
    { d with dependedBy := e.dependedBy } = e
  stored : ∀ u e, g.get? u = some e → ∃ r ∈ s.sources, r.path = some u.toString

theorem rowsOfResident_of_holds {s : Store} {g : Graph} {m : OrdMap FileUri SourceEntry} (held : s.HoldsSources m)
    (same : ∀ u, (m.get? u).map SourceEntry.forward = g.forward? u) : RowsOfResident s g where
  unique := by
    refine ((held.rows.map SourceRow.path).nodup_iff).mpr ?_
    rw [List.map_map, List.nodup_iff_pairwise_ne, List.pairwise_map]
    have distinct := held.own.nodup
    rw [List.nodup_iff_pairwise_ne, List.pairwise_map] at distinct
    refine distinct.imp_of_mem fun {d e} hd he different path => different ?_
    exact ((held.storable d hd).uri.toString_inj (held.storable e he).uri).mp (Option.some.inj path)
  decode := by
    intro r listed
    obtain ⟨d, member, rfl⟩ := List.mem_map.mp (held.rows.mem_iff.mp listed)
    have forward := same d.uri
    rw [held.own.mem_values.mp member, Option.map_some] at forward
    obtain ⟨e, live, agrees⟩ := Option.map_eq_some_iff.mp forward.symm
    refine ⟨d.uri, e, d, live, rfl, SourceRow.decode_ofEntry (held.storable d member), ?_⟩
    exact congrArg (fun c : SourceEntry => { c with dependedBy := e.dependedBy }) agrees.symm
  stored := by
    intro u e live
    have forward := same u
    rw [Graph.forward?, live, Option.map_some] at forward
    obtain ⟨d, found, _⟩ := Option.map_eq_some_iff.mp forward
    obtain rfl : d.uri = u := held.own u d found
    have member : d ∈ m.values := held.own.mem_values.mpr found
    exact ⟨SourceRow.ofEntry d, held.rows.mem_iff.mpr (List.mem_map_of_mem member), rfl⟩

/-- What a load with the files `t` finds of the resident entries `g` and the store `s`. -/
structure Recovers (g : Graph) (s : Store) (t : FileTree) (loaded : Workspace) : Prop where
  /-- Every entry was resident, and its path has its time. -/
  resident : ∀ u e, loaded.graph.get? u = some e →
    ∃ d, g.get? u = some d ∧ t.time? u = some d.lastModified ∧ { e with dependedBy := d.dependedBy } = d
  /-- Every resident entry whose path has its time is found. -/
  complete : ∀ u d, g.get? u = some d → t.time? u = some d.lastModified → ∃ e, loaded.graph.get? u = some e
  /-- The edges towards entries are those among the entries that are found. -/
  edges : ∀ u e, loaded.graph.get? u = some e → Increasing e.dependedBy ∧
    ∀ source, source ∈ e.dependedBy ↔ ∃ d, loaded.graph.get? source = some d ∧ u ∈ d.dependsOn
  rows : RowsOfResident loaded.store loaded.graph
  left : ∀ r ∈ loaded.store.sources, r ∈ s.sources

/-- A load of the whole index loads the documents, and then the modules if that did not fail. -/
theorem load_cases (w : Workspace) (t : FileTree) :
    (w.load t).2 = (w.onSources (·.load t)).2 ∨
      (w.load t).2 = ((w.onSources (·.load t)).2.onModules (·.load t)).2 := by
  rw [load]
  rcases andThen_cases (w.onSources (·.load t)) _ with failed | ⟨n, same⟩
  · exact .inl failed
  · right
    rw [same]
    rcases andThen_cases ((w.onSources (·.load t)).2.onModules (·.load t)) _ with failed | ⟨n, same⟩
    · exact failed
    · rw [same]

/-- Of a load of the whole index, the entries and the table of source files are those of its first half. -/
theorem load_sources {w : Workspace} {r : Registry} {m : OrdMap FileUri SourceEntry} (modules : w.store.HoldsModules r)
    (sources : w.store.HoldsSources m) (t : FileTree) :
    (w.load t).2.graph = (w.sources.load t).2.graph ∧
      (w.load t).2.store.sources = (w.sources.load t).2.store.sources := by
  rcases load_cases w t with same | same
  · rw [same]
    exact ⟨rfl, rfl⟩
  · rw [same]
    have held : (w.sources.load t).2.store.HoldsModules r :=
      modules.congr (SourceIndex.load_keepsModules (x := w.sources) sources t)
    exact ⟨rfl, (ModuleIndex.load_keepsSources (x := (w.onSources (·.load t)).2.modules) held t).sources⟩

theorem recovers_of_holds {g : Graph} {s : Store} {m : OrdMap FileUri SourceEntry} {t : FileTree} {loaded : Workspace}
    (held : s.HoldsSources m) (same : ∀ u, (m.get? u).map SourceEntry.forward = g.forward? u)
    (transposed : loaded.graph.Transposed) (holds : loaded.store.HoldsSources (Store.currentSources t m))
    (forward : ∀ u, loaded.graph.forward? u = ((Store.currentSources t m).get? u).map SourceEntry.forward) :
    Recovers g s t loaded := by
  have kept : ∀ u, loaded.graph.forward? u = (g.forward? u).filter fun e => t.hasTime u (some e.lastModified) := by
    intro u
    rw [forward, Store.currentSources, OrdMap.get?_filter, ← same u]
    cases m.get? u with
    | none => rfl
    | some e =>
        have time : e.forward.lastModified = e.lastModified := rfl
        cases has : t.hasTime u (some e.lastModified) <;> simp [Option.filter, time, has]
  refine ⟨?_, ?_, ?_, rowsOfResident_of_holds holds fun u => (forward u).symm, ?_⟩
  · intro u e live
    have here := kept u
    rw [Graph.forward?, live, Option.map_some, eq_comm, Option.filter_eq_some_iff] at here
    obtain ⟨d, before, agrees⟩ := Option.map_eq_some_iff.mp here.1
    have time := FileTree.hasTime_iff.mp here.2
    rw [← agrees] at time
    exact ⟨d, before, time, congrArg (fun c : SourceEntry => { c with dependedBy := d.dependedBy }) agrees.symm⟩
  · intro u d before time
    have resident : g.forward? u = some d.forward := by rw [Graph.forward?, before, Option.map_some]
    have here : loaded.graph.forward? u = some d.forward := by
      rw [kept, resident, Option.filter_eq_some_iff]
      exact ⟨rfl, FileTree.hasTime_iff.mpr time⟩
    obtain ⟨e, live, _⟩ := Option.map_eq_some_iff.mp here
    exact ⟨e, live⟩
  · intro u e live
    refine ⟨?_, fun source => transposed.mem_dependedBy live⟩
    rw [transposed.dependedBy_eq live]
    exact transposed.increasing u
  · intro r member
    obtain ⟨e, listed, rfl⟩ := List.mem_map.mp (holds.rows.mem_iff.mp member)
    rw [Store.currentSources, held.own.values_filter, List.mem_filter] at listed
    exact held.rows.mem_iff.mpr (List.mem_map_of_mem listed.1)

/-- At every point of a run of the whole index that begins with a load, on a store that only the index has written,
    in which no call on the table of source files fails, the rows of that table correspond to the resident entries.
    Any index that is then loaded from the store gets exactly the resident entries whose paths have the
    entries' times, each with the edges towards it among these, and leaves exactly their rows; the load does not
    fail if the store refuses nothing of the source files. -/
theorem store_mirrors_memory {P : ByteArray → Prop} {w : Workspace} {t₀ : FileTree} {actions : List Action}
    (opened : w.Opened) (written : Store.Written P w.store) (files : t₀.Proper P) (proper : ∀ a ∈ actions, a.Proper P)
    (facade : ∀ a ∈ actions, a.Facade) (granted : w.RunSourcesGranted t₀ (.load :: actions)) {after : Workspace}
    {t : FileTree} (run : w.run t₀ (.load :: actions) = some (after, t)) :
    RowsOfResident after.store after.graph ∧
    ∀ fresh : Workspace, fresh.store = after.store →
      (fresh.store.Yields .sources → ∃ n, (fresh.sources.load t).1 = .ok n) ∧
      ∀ n, (fresh.sources.load t).1 = .ok n →
        n = (fresh.load t).2.graph.size ∧ Recovers after.graph after.store t (fresh.load t).2 := by
  obtain ⟨loaded, loads, later⟩ := run_cons.mp run
  obtain rfl := Option.some.inj loads
  have h : after.Mirrors P :=
    (Mirrors.load (opened.genuine written) granted.1).run files proper facade (granted.2 _ rfl) later
  obtain ⟨m, held, same⟩ := h.mirrors
  obtain ⟨r, modules, _⟩ := h.genuine.modules.rows
  refine ⟨rowsOfResident_of_holds held fun u => same u id, fun fresh on_store => ?_⟩
  have held_fresh : fresh.store.HoldsSources m := held.congr (congrArg Store.sources on_store)
  have modules_fresh : fresh.store.HoldsModules r := by
    rw [on_store]
    exact modules
  refine ⟨fun yields => SourceIndex.load_granted (x := fresh.sources) held_fresh yields t, fun n loads => ?_⟩
  obtain ⟨graph, rows⟩ := load_sources modules_fresh held_fresh t
  obtain ⟨size, transposed, holds, forward⟩ := SourceIndex.load_of_holds (x := fresh.sources) held_fresh loads
  rw [← graph] at size transposed forward
  exact ⟨size, recovers_of_holds held (fun u => same u id) transposed (holds.congr rows) forward⟩

/-! ## A restart after a scan -/

namespace Restart

open Sample

def files : FileTree := holding source "Item \x7b\x7d\n"

def scanned : Workspace := ((workspace.run files [.load, .scan]).getD (workspace, files)).1

def restarted : Workspace := { workspace with store := scanned.store }

theorem files_proper : files.Proper fun _ => True := holding_proper canonical_source trivial

theorem granted : workspace.RunSourcesGranted files [.load, .scan] := by
  have start : workspace.Genuine fun _ => True := (opened .empty).genuine .empty
  have loaded : (workspace.load files).2.Genuine fun _ => True := start.load files
  refine ⟨start.sourcesGranted (Store.yields_of_refusals rfl .sources) files_proper trivial, ?_⟩
  intro next applied
  obtain rfl := Option.some.inj applied
  exact ⟨loaded.sourcesGranted (Store.yields_of_refusals rfl .sources) files_proper trivial, fun _ _ => trivial⟩

set_option maxRecDepth 10000 in
theorem evaluated :
    (workspace.run files [.load, .scan]).map Prod.snd = some files ∧ scanned.store.refusals = [] ∧
      (scanned.graph.get? source).map SourceEntry.lastModified = some 5 := by
  decide +kernel

end Restart

open Sample Restart in
theorem store_mirrors_memory_restart :
    RowsOfResident scanned.store scanned.graph ∧
      ∃ d e, scanned.graph.get? source = some d ∧ (restarted.load files).2.graph.get? source = some e := by
  obtain ⟨rows, restart⟩ := store_mirrors_memory (opened .empty) .empty files_proper (by simp [Action.Proper])
    (by simp [Action.Facade]) granted (run_eq_of_files evaluated.1)
  obtain ⟨loads, recovers⟩ := restart restarted rfl
  obtain ⟨n, loaded⟩ := loads (Store.yields_of_refusals evaluated.2.1 .sources)
  obtain ⟨d, live, time⟩ := Option.map_eq_some_iff.mp evaluated.2.2
  have kept : files.time? source = some d.lastModified := by
    rw [time]
    decide
  obtain ⟨e, found⟩ := (recovers n loaded).2.complete source d live kept
  exact ⟨rows, d, e, live, found⟩

end Workspace

end QmlIndex
