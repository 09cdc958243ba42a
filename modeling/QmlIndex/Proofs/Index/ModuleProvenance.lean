import QmlIndex.ModuleIndex
import QmlIndex.Proofs.Index.Provenance
import QmlIndex.Proofs.Store.Modules

/-! # Where modules come from

Every module that is ever resident or stored was made from a manifest: it has the path of the manifest and at
least one component, and its components are listed under their names. This holds whatever happens to the files
and whichever calls of the store fail.
-/

namespace QmlIndex

namespace ModuleEntry

/-- The module is what some manifest at its path makes. -/
structure Made (m : ModuleEntry) : Prop where
  source : ∃ (manifest : FileUri) (time : Timestamp) (directives : Manifest) (naming : Naming),
    manifest.Canonical ∧ manifest ≠ .rootDir ∧
      ofManifest manifest (some time) directives naming.root naming.markers = some m

theorem ofManifest_eq_some {manifest : FileUri} {time : Option Timestamp} {directives : Manifest} {root : Path}
    {markers : List String} {m : ModuleEntry} (h : ofManifest manifest time directives root markers = some m) :
    m.components = declaredComponents manifest directives ∧ m.components.isEmpty = false ∧
      m.manifest = some manifest ∧ m.lastModified = time := by
  simp only [ofManifest] at h
  split at h
  · simp at h
  · rename_i filled
    split at h
    all_goals
      obtain ⟨name, _, h⟩ := Option.bind_eq_some_iff.mp h
      split at h
      · simp at h
      · obtain rfl := Option.some.inj h
        exact ⟨rfl, by simpa using filled, rfl, rfl⟩

/-- The components are listed under their names, and their paths are canonical. -/
structure TableStorable (table : OrdMap String Component) : Prop where
  own : table.KeyedBy Component.name
  file : ∀ c ∈ table.values, ∀ u ∈ c.file, FileUri.Canonical u

theorem TableStorable.insert {table : OrdMap String Component} (h : TableStorable table) {c : Component}
    (canonical : ∀ u ∈ c.file, FileUri.Canonical u) : TableStorable (table.insert c.name c) := by
  refine ⟨h.own.insert c, fun d member => ?_⟩
  rcases OrdMap.mem_values_insert member with rfl | before
  · exact canonical
  · exact h.file d before

theorem TableStorable.declare {table : OrdMap String Component} (h : TableStorable table) {manifest : FileUri}
    (canonical : manifest.Canonical) (below : manifest ≠ .rootDir) (name : String) (version : Option String)
    (path : String) (isSingleton : Bool) :
    TableStorable (ModuleEntry.declare manifest table name version path isSingleton) := by
  have resolved : ∀ u ∈ some (FileUri.resolve manifest path), FileUri.Canonical u := by
    rintro u same
    obtain rfl := Option.some.inj same
    exact canonical.resolve below path
  rw [ModuleEntry.declare]
  split
  all_goals
    split
    · exact h.insert (c := ⟨name, _, _, _, _⟩) resolved
    · exact h

theorem declaredComponents_storable {manifest : FileUri} (canonical : manifest.Canonical) (below : manifest ≠ .rootDir)
    (directives : Manifest) : TableStorable (declaredComponents manifest directives) := by
  refine List.foldlRecOn directives _ ⟨OrdMap.keyedBy_empty, by simp⟩ fun table h d _ => ?_
  cases d with
  | component name version path => exact h.declare canonical below name version path false
  | singleton name version path => exact h.declare canonical below name version path true
  | _ => exact h

namespace Made

variable {m : ModuleEntry}

theorem storable (h : m.Made) : m.Storable := by
  obtain ⟨manifest, time, directives, naming, canonical, below, made⟩ := h.source
  obtain ⟨components, _, path, _⟩ := ofManifest_eq_some made
  have table := declaredComponents_storable canonical below directives
  rw [← components] at table
  refine ⟨?_, table.own, table.file⟩
  rw [path]
  rintro u same
  obtain rfl := Option.some.inj same
  exact canonical

theorem nonempty (h : m.Made) : m.components.isEmpty = false := by
  obtain ⟨_, _, _, _, _, _, made⟩ := h.source
  exact (ofManifest_eq_some made).2.1

theorem manifest_isSome (h : m.Made) : m.manifest.isSome = true := by
  obtain ⟨_, _, _, _, _, _, made⟩ := h.source
  rw [(ofManifest_eq_some made).2.2.1]
  rfl

end Made

end ModuleEntry

namespace Registry

variable {r : Registry}

theorem findByManifest?_eq_some {manifest : FileUri} {m : ModuleEntry} (h : r.findByManifest? manifest = some m) :
    m ∈ r.toList ∧ m.manifest = some manifest :=
  ⟨List.mem_of_find?_eq_some h, by simpa using List.find?_some h⟩

theorem findByManifest?_eq_none {manifest : FileUri} (h : r.findByManifest? manifest = none) :
    ∀ m ∈ r.toList, m.manifest ≠ some manifest := by
  intro m member same
  simpa [same] using List.find?_eq_none.mp h m member

theorem mem_toList_insert {m n : ModuleEntry} (h : n ∈ (r.insert m).toList) : n = m ∨ n ∈ r.toList :=
  OrdMap.mem_values_insert h

theorem mem_toList_remove (own : r.modules.KeyedBy ModuleEntry.name) {name : String} {m : ModuleEntry} :
    m ∈ (r.remove name).toList ↔ m ∈ r.toList ∧ m.name ≠ name := by
  rw [toList_remove own, List.mem_filter, decide_eq_true_iff]

end Registry

namespace ModuleIndex

open FileTree

variable {P : ByteArray → Prop} {t : FileTree} {naming : Naming} {u : FileUri} {m : ModuleEntry}

theorem examine_eq_ok {made : Option ModuleEntry} :
    examine t naming u = .ok made ↔ ∃ f text, t.file u = .ok f ∧ String.fromUTF8? f.content = some text ∧
      made = ModuleEntry.ofManifest u (some f.time) (Manifest.parse text.toList) naming.root naming.markers := by
  simp only [examine, FileTree.text, bind_eq_ok]
  constructor
  · rintro ⟨text, ⟨f, found, decoded⟩, g, again, same⟩
    obtain rfl := Except.ok.inj (found.symm.trans again)
    split at decoded
    · rename_i s whole
      obtain rfl := Except.ok.inj decoded
      exact ⟨f, s, found, whole, (Except.ok.inj same).symm⟩
    · simp at decoded
  · rintro ⟨f, text, found, whole, rfl⟩
    refine ⟨text, ⟨f, found, ?_⟩, f, found, rfl⟩
    rw [whole]

theorem made_of_examine (canonical : u.Canonical) (h : examine t naming u = .ok (some m)) : m.Made := by
  obtain ⟨f, text, found, _, made⟩ := examine_eq_ok.mp h
  exact ⟨u, f.time, _, naming, canonical, ne_rootDir_of_file canonical.plain found, made.symm⟩

theorem manifest_of_examine (h : examine t naming u = .ok (some m)) : m.manifest = some u := by
  obtain ⟨_, _, _, _, made⟩ := examine_eq_ok.mp h
  exact (ModuleEntry.ofManifest_eq_some made.symm).2.2.1

/-- What indexing a manifest does: one whose module is resident is left alone, one that makes no module changes
    nothing, and any other has its module committed. -/
theorem indexManifest_cases (x : ModuleIndex) (t : FileTree) (naming : Naming) (u : FileUri) :
    (∃ m, x.registry.findByManifest? u = some m ∧ x.indexManifest t naming u = (.ok (.resident m), x)) ∨
    (x.registry.findByManifest? u = none ∧ (∀ m, examine t naming u ≠ .ok (some m)) ∧
      (x.indexManifest t naming u).2 = x ∧ ∀ m, (x.indexManifest t naming u).1 ≠ .ok (.registered m)) ∨
    ∃ m, x.registry.findByManifest? u = none ∧ examine t naming u = .ok (some m) ∧
      x.indexManifest t naming u = (.ok (.registered m), x.commit m) := by
  rw [indexManifest]
  cases found : x.registry.findByManifest? u with
  | some m => exact .inl ⟨m, rfl, rfl⟩
  | none =>
      right
      cases examined : examine t naming u with
      | error fault => exact .inl ⟨rfl, by simp, rfl, by simp⟩
      | ok made =>
          cases made with
          | none => exact .inl ⟨rfl, by simp, rfl, by simp⟩
          | some m => exact .inr ⟨m, rfl, rfl, rfl⟩

/-- A scan without its counts. -/
def indexEach (x : ModuleIndex) (t : FileTree) (naming : Naming) (paths : List Path) : ModuleIndex :=
  paths.foldl (fun x path => (x.indexManifest t naming path.normalize).2) x

theorem scanAll_index (x : ModuleIndex) (t : FileTree) (naming : Naming) (paths : List Path) :
    (x.scanAll t naming paths).2 = x.indexEach t naming paths := by
  have folded : ∀ (paths : List Path) (s : ManifestStats × ModuleIndex),
      (paths.foldl (scanStep t naming) s).2 = s.2.indexEach t naming paths := by
    intro paths
    induction paths with
    | nil => exact fun _ => rfl
    | cons path rest ih => exact fun s => ih (scanStep t naming s path)
  exact folded paths _

/-- The resident modules and the stored ones were made from manifests, both are kept under their names, and the
    store differs from `base` in the modules only. -/
structure Genuine (base : Store) (x : ModuleIndex) : Prop where
  own : x.registry.modules.KeyedBy ModuleEntry.name
  made : ∀ m ∈ x.registry.toList, m.Made
  rows : ∃ r, x.store.HoldsModules r ∧ ∀ m ∈ r.toList, m.Made
  frame : base.KeepsSources x.store

namespace Genuine

variable {base : Store} {x : ModuleIndex}

theorem commit (g : x.Genuine base) (made : m.Made) : (x.commit m).Genuine base := by
  have inserted : ∀ {r : Registry}, (∀ n ∈ r.toList, n.Made) → ∀ n ∈ (r.insert m).toList, n.Made := by
    intro r all n member
    rcases Registry.mem_toList_insert member with rfl | before
    · exact made
    · exact all n before
  obtain ⟨r, held, stored⟩ := g.rows
  rcases held.save made.storable with ⟨fault, failed⟩ | ⟨after, saved, holds, kept⟩
  · rw [ModuleIndex.commit, failed]
    exact ⟨g.own.insert m, inserted g.made, ⟨r, held, stored⟩, g.frame⟩
  · rw [ModuleIndex.commit, saved]
    exact ⟨g.own.insert m, inserted g.made, ⟨_, holds, inserted stored⟩, g.frame.trans kept⟩

theorem indexManifest (g : x.Genuine base) (t : FileTree) (naming : Naming) (canonical : u.Canonical) :
    (x.indexManifest t naming u).2.Genuine base := by
  rcases indexManifest_cases x t naming u with ⟨_, _, same⟩ | ⟨_, _, same, _⟩ | ⟨m, _, examined, same⟩
  · rw [same]
    exact g
  · rw [same]
    exact g
  · rw [same]
    exact g.commit (made_of_examine canonical examined)

theorem scanAll (g : x.Genuine base) (t : FileTree) (naming : Naming) {paths : List Path}
    (canonical : ∀ p ∈ paths, FileUri.Canonical p.normalize) : (x.scanAll t naming paths).2.Genuine base := by
  rw [scanAll_index]
  induction paths generalizing x with
  | nil => exact g
  | cons path rest ih =>
      exact ih (g.indexManifest t naming (canonical path List.mem_cons_self))
        fun p member => canonical p (List.mem_cons_of_mem path member)

theorem scan (g : x.Genuine base) (proper : t.Proper P) (naming : Naming) {m : Matcher} (root : FileUri.Canonical m.root) :
    (x.scan t naming m).2.Genuine base :=
  g.scanAll t naming (m.canonical_normalize root proper)

theorem removeModule (g : x.Genuine base) (name : String) : (x.removeModule name).2.Genuine base := by
  have left : ∀ m ∈ (x.registry.remove name).toList, m.Made :=
    fun m member => g.made m ((Registry.mem_toList_remove g.own).mp member).1
  obtain ⟨r, held, stored⟩ := g.rows
  rcases held.remove name with ⟨fault, failed⟩ | ⟨_, after, removed, holds, kept⟩
  · rw [ModuleIndex.removeModule, failed]
    exact ⟨g.own.erase name, left, ⟨r, held, stored⟩, g.frame⟩
  · rw [ModuleIndex.removeModule, removed]
    refine ⟨g.own.erase name, left, ⟨_, holds, fun m member => ?_⟩, g.frame.trans kept⟩
    exact stored m ((Registry.mem_toList_remove held.own).mp member).1

theorem removeManifest (g : x.Genuine base) (u : FileUri) : (x.removeManifest u).2.Genuine base := by
  rw [ModuleIndex.removeManifest]
  split
  · exact g.removeModule _
  · exact g

theorem handle (g : x.Genuine base) (t : FileTree) (naming : Naming) (event : FileEvent) (canonical : u.Canonical) :
    (x.handle t naming event u).2.Genuine base := by
  have removed := g.removeManifest u
  cases event with
  | deleted => exact removed
  | created | changed => exact removed.indexManifest t naming canonical

theorem load (g : x.Genuine base) (t : FileTree) : (x.load t).2.Genuine base := by
  obtain ⟨r, held, stored⟩ := g.rows
  rcases held.load t with ⟨fault, failed⟩ | ⟨modules, after, loaded, listed, holds, unchanged⟩
  · rw [ModuleIndex.load, failed]
    exact g
  · have kept : ∀ m ∈ (Store.currentModules t r).toList, m.Made :=
      fun m member => stored m ((Store.mem_currentModules held.own).mp member).1
    rw [ModuleIndex.load, loaded]
    simp only [Registry.foldl_insert_perm holds.own listed]
    exact ⟨holds.own, kept, ⟨_, holds, kept⟩, g.frame.trans unchanged⟩

theorem clear (g : x.Genuine base) : x.clear.2.Genuine base := by
  rcases x.store.clearModules_cases with ⟨fault, failed⟩ | ⟨after, done, holds, unchanged⟩
  · rw [ModuleIndex.clear, failed]
    exact g
  · rw [ModuleIndex.clear, done]
    have nothing : ∀ m ∈ Registry.empty.toList, m.Made := by simp
    exact ⟨OrdMap.keyedBy_empty, nothing, ⟨.empty, holds, nothing⟩, g.frame.trans unchanged⟩

end Genuine

end ModuleIndex

end QmlIndex
