import QmlIndex.Proofs.Index.Grants

/-! # The tables of modules mirror the registry

While no call of the store fails, the tables hold exactly the resident modules. No two resident modules have one
manifest as long as no two stored ones had: a manifest is only read if no resident module came from it, and its
old module is removed first when it has changed. Nothing in the tables themselves sees to that, so two runs that
do not begin with a load can leave two modules of one manifest behind.
-/

namespace QmlIndex

namespace Registry

/-- No two modules came from one manifest. -/
def Singular (r : Registry) : Prop :=
  ∀ m ∈ r.toList, ∀ n ∈ r.toList, m.manifest = n.manifest → m = n

variable {r : Registry}

theorem Singular.insert (h : r.Singular) {m : ModuleEntry} (fresh : ∀ n ∈ r.toList, n.manifest ≠ m.manifest) :
    (r.insert m).Singular := by
  intro a ha b hb same
  rcases mem_toList_insert ha with rfl | old_a <;> rcases mem_toList_insert hb with rfl | old_b
  · rfl
  · exact absurd same.symm (fresh b old_b)
  · exact absurd same (fresh a old_a)
  · exact h a old_a b old_b same

theorem Singular.of_subset {s : Registry} (h : r.Singular) (subset : ∀ m ∈ s.toList, m ∈ r.toList) : s.Singular :=
  fun a ha b hb same => h a (subset a ha) b (subset b hb) same

theorem Singular.findByManifest? (h : r.Singular) {u : FileUri} {m : ModuleEntry} :
    r.findByManifest? u = some m ↔ m ∈ r.toList ∧ m.manifest = some u := by
  constructor
  · exact findByManifest?_eq_some
  · rintro ⟨member, manifest⟩
    cases found : r.findByManifest? u with
    | none => exact absurd manifest (findByManifest?_eq_none found m member)
    | some n =>
        obtain ⟨other, same⟩ := findByManifest?_eq_some found
        rw [h n other m member (same.trans manifest.symm)]

/-- Whatever order the modules are searched in, the same is found. -/
theorem Singular.find?_perm (h : r.Singular) {order : List ModuleEntry} (perm : order.Perm r.toList) (u : FileUri) :
    (order.find? fun m => m.manifest == some u) = r.findByManifest? u := by
  apply Option.ext
  intro m
  rw [h.findByManifest?]
  constructor
  · intro found
    exact ⟨perm.mem_iff.mp (List.mem_of_find?_eq_some found), by simpa using List.find?_some found⟩
  · rintro ⟨member, manifest⟩
    cases found : order.find? fun m => m.manifest == some u with
    | none => simpa [manifest] using List.find?_eq_none.mp found m (perm.mem_iff.mpr member)
    | some n =>
        have other := perm.mem_iff.mp (List.mem_of_find?_eq_some found)
        have same : n.manifest = some u := by simpa using List.find?_some found
        rw [h n other m member (same.trans manifest.symm)]

end Registry

namespace ModuleIndex

variable {P : ByteArray → Prop} {base : Store} {x : ModuleIndex} {t : FileTree} {naming : Naming} {u : FileUri}

/-- The tables hold the resident modules. -/
def Mirrors (x : ModuleIndex) : Prop := x.store.HoldsModules x.registry

/-! ## What calls do to the mirror -/

theorem Mirrors.commit (h : x.Mirrors) {m : ModuleEntry} (storable : m.Storable)
    (granted : Succeeds (x.store.saveModule m).1) : (x.commit m).Mirrors := by
  rcases Store.HoldsModules.save h storable with ⟨fault, failed⟩ | ⟨after, saved, holds, _⟩
  · simp [failed] at granted
  · change (x.store.saveModule m).2.HoldsModules (x.registry.insert m)
    rw [saved]
    exact holds

theorem Mirrors.indexManifest (h : x.Mirrors) (canonical : u.Canonical) (granted : x.IndexGranted t naming u) :
    (x.indexManifest t naming u).2.Mirrors := by
  rcases indexManifest_cases x t naming u with ⟨_, _, same⟩ | ⟨_, _, same, _⟩ | ⟨m, _, examined, same⟩
  · rw [same]
    exact h
  · rw [same]
    exact h
  · have saved := granted m (congrArg Prod.fst same)
    rw [same]
    exact h.commit (made_of_examine canonical examined).storable saved

theorem Mirrors.scanAll (h : x.Mirrors) {paths : List Path} (canonical : ∀ p ∈ paths, FileUri.Canonical p.normalize)
    (granted : ScanGranted t naming x paths) : (x.scanAll t naming paths).2.Mirrors := by
  rw [scanAll_index]
  induction paths generalizing x with
  | nil => exact h
  | cons path rest ih =>
      exact ih (h.indexManifest (canonical path List.mem_cons_self) granted.1)
        (fun p member => canonical p (List.mem_cons_of_mem path member)) granted.2

theorem Mirrors.removeModule (h : x.Mirrors) {name : String} (granted : x.RemoveGranted name) :
    (x.removeModule name).2.Mirrors := by
  obtain ⟨found, granted⟩ := granted
  rcases Store.HoldsModules.remove h name with ⟨fault, failed⟩ | ⟨_, after, removed, holds, _⟩
  · simp [failed] at granted
  · change (x.store.removeModule name).2.HoldsModules (x.registry.remove name)
    rw [removed]
    exact holds

theorem Mirrors.removeManifest (h : x.Mirrors) (granted : x.RemoveManifestGranted u) : (x.removeManifest u).2.Mirrors := by
  rw [ModuleIndex.removeManifest]
  split
  · rename_i name found
    exact h.removeModule (granted name found)
  · exact h

theorem Mirrors.handle (h : x.Mirrors) {event : FileEvent} (canonical : u.Canonical)
    (removal : x.RemoveManifestGranted u)
    (granted : event ≠ .deleted → (x.removeManifest u).2.IndexGranted t naming u) :
    (x.handle t naming event u).2.Mirrors := by
  have removed := h.removeManifest removal
  cases event with
  | deleted => exact removed
  | created => exact removed.indexManifest canonical (granted (by simp))
  | changed => exact removed.indexManifest canonical (granted (by simp))

/-- A load that does not fail makes resident what the tables hold and the manifests bear out, and leaves just that
    in the tables. -/
theorem load_of_holds {r : Registry} (held : x.store.HoldsModules r) (granted : Succeeds (x.load t).1) :
    (x.load t).2.registry = Store.currentModules t r ∧ (x.load t).2.Mirrors := by
  obtain ⟨n, granted⟩ := granted
  rcases held.load t with ⟨fault, failed⟩ | ⟨modules, after, loaded, listed, holds, _⟩
  · simp [ModuleIndex.load, failed] at granted
  · rw [Mirrors, ModuleIndex.load, loaded]
    change modules.foldl Registry.insert .empty = _ ∧ after.HoldsModules (modules.foldl Registry.insert .empty)
    rw [Registry.foldl_insert_perm holds.own listed]
    exact ⟨rfl, holds⟩

theorem clear_of_granted (granted : Succeeds x.clear.1) : x.clear.2.registry = .empty ∧ x.clear.2.Mirrors := by
  rcases x.store.clearModules_cases with ⟨fault, failed⟩ | ⟨after, done, holds, _⟩
  · simp [ModuleIndex.clear, failed] at granted
  · rw [Mirrors, ModuleIndex.clear, done]
    exact ⟨rfl, holds⟩

/-! ## What calls do to the registry -/

theorem singular_indexManifest (h : x.registry.Singular) (t : FileTree) (naming : Naming) (u : FileUri) :
    (x.indexManifest t naming u).2.registry.Singular := by
  rcases indexManifest_cases x t naming u with ⟨_, _, same⟩ | ⟨_, _, same, _⟩ | ⟨m, absent, examined, same⟩
  · rw [same]
    exact h
  · rw [same]
    exact h
  · -- The manifest is only read because no resident module came from it.
    rw [same]
    apply h.insert
    rw [manifest_of_examine examined]
    exact Registry.findByManifest?_eq_none absent

theorem singular_scanAll (h : x.registry.Singular) (t : FileTree) (naming : Naming) (paths : List Path) :
    (x.scanAll t naming paths).2.registry.Singular := by
  rw [scanAll_index]
  induction paths generalizing x with
  | nil => exact h
  | cons path rest ih => exact ih (singular_indexManifest h t naming path.normalize)

theorem singular_removeModule (own : x.registry.modules.KeyedBy ModuleEntry.name) (h : x.registry.Singular)
    (name : String) : (x.removeModule name).2.registry.Singular :=
  h.of_subset fun _ member => ((Registry.mem_toList_remove own).mp member).1

theorem singular_removeManifest (own : x.registry.modules.KeyedBy ModuleEntry.name) (h : x.registry.Singular)
    (u : FileUri) : (x.removeManifest u).2.registry.Singular := by
  rw [ModuleIndex.removeManifest]
  split
  · exact singular_removeModule own h _
  · exact h

/-! ## Runs -/

/-- What holds at every point of a run that began with a load and in which no call of the store fails. -/
structure Sound (base : Store) (x : ModuleIndex) : Prop where
  genuine : x.Genuine base
  mirrors : x.Mirrors
  singular : x.registry.Singular

namespace Sound

theorem load {r : Registry} (g : x.Genuine base) (held : x.store.HoldsModules r) (singular : r.Singular)
    (granted : Succeeds (x.load t).1) : (x.load t).2.Sound base := by
  obtain ⟨registry, mirrors⟩ := load_of_holds held granted
  refine ⟨g.load t, mirrors, ?_⟩
  rw [registry]
  exact singular.of_subset fun _ member => ((Store.mem_currentModules held.own).mp member).1

theorem apply (h : x.Sound base) (proper : t.Proper P) {m : Matcher} (root : FileUri.Canonical m.root) {a : Action}
    (canonical : a.Canonical) (granted : x.Granted t naming m a) : (x.apply t naming m a).Sound base := by
  have g := h.genuine
  have genuine := g.apply proper naming root canonical
  cases a with
  | indexManifest u =>
      exact ⟨genuine, h.mirrors.indexManifest canonical granted, singular_indexManifest h.singular t naming u⟩
  | removeModule name => exact ⟨genuine, h.mirrors.removeModule granted, singular_removeModule g.own h.singular name⟩
  | removeManifest u => exact ⟨genuine, h.mirrors.removeManifest granted, singular_removeManifest g.own h.singular u⟩
  | handle event u =>
      refine ⟨genuine, h.mirrors.handle canonical granted.1 granted.2, ?_⟩
      have removed := singular_removeManifest g.own h.singular u
      cases event with
      | deleted => exact removed
      | created | changed => exact singular_indexManifest removed t naming u
  | scan =>
      exact ⟨genuine, h.mirrors.scanAll (m.canonical_normalize root proper) granted,
        singular_scanAll h.singular t naming _⟩
  | load => exact load g h.mirrors h.singular granted
  | clear =>
      obtain ⟨registry, mirrors⟩ := clear_of_granted granted
      refine ⟨genuine, mirrors, ?_⟩
      change x.clear.2.registry.Singular
      rw [registry]
      intro a member
      simp at member

end Sound

/-- Calls one after the other, each with the files as they are then. -/
def run (x : ModuleIndex) (naming : Naming) (m : Matcher) (calls : List (FileTree × Action)) : ModuleIndex :=
  calls.foldl (fun x call => x.apply call.1 naming m call.2) x

/-- No call of the store fails in a run. -/
def RunGranted (naming : Naming) (m : Matcher) : ModuleIndex → List (FileTree × Action) → Prop
  | _, [] => True
  | x, (t, a) :: rest => x.Granted t naming m a ∧ RunGranted naming m (x.apply t naming m a) rest

instance decidableRunGranted {naming : Naming} {m : Matcher} : (x : ModuleIndex) → (calls : List (FileTree × Action)) →
    Decidable (RunGranted naming m x calls)
  | _, [] => .isTrue trivial
  | x, (t, a) :: rest =>
    have : Decidable (RunGranted naming m (x.apply t naming m a) rest) := decidableRunGranted _ rest
    inferInstanceAs (Decidable (_ ∧ _))

theorem Sound.run {m : Matcher} (root : FileUri.Canonical m.root) {calls : List (FileTree × Action)}
    (proper : ∀ call ∈ calls, call.1.Proper P ∧ call.2.Canonical) (h : x.Sound base)
    (granted : RunGranted naming m x calls) : (x.run naming m calls).Sound base := by
  induction calls generalizing x with
  | nil => exact h
  | cons call rest ih =>
      obtain ⟨files, canonical⟩ := proper call List.mem_cons_self
      exact ih (fun c member => proper c (List.mem_cons_of_mem call member)) (h.apply files root canonical granted.1)
        granted.2

theorem singular_of_nodup {s : Store} {r : Registry} (held : s.HoldsModules r)
    (distinct : (s.modules.map ModuleRow.manifest).Nodup) : r.Singular := by
  have column : (r.toList.map fun m => m.manifest.map Path.toString).Nodup := by
    have rows := (held.rows.map ModuleRow.manifest).nodup_iff.mp distinct
    rwa [List.map_map] at rows
  intro a ha b hb same
  exact eq_of_nodup_map column ha hb (by rw [same])

theorem nodup_of_singular {s : Store} {r : Registry} (held : s.HoldsModules r) (made : ∀ m ∈ r.toList, m.Made)
    (singular : r.Singular) : (s.modules.map ModuleRow.manifest).Nodup := by
  rw [(held.rows.map ModuleRow.manifest).nodup_iff, List.map_map, List.nodup_iff_pairwise_ne, List.pairwise_map]
  have nodup : r.toList.Nodup := held.own.nodup_values
  refine (List.nodup_iff_pairwise_ne.mp nodup).imp_of_mem fun {a b} ha hb different column => different ?_
  apply singular a ha b hb
  obtain ⟨u, manifest_a⟩ := Option.isSome_iff_exists.mp (made a ha).manifest_isSome
  obtain ⟨v, manifest_b⟩ := Option.isSome_iff_exists.mp (made b hb).manifest_isSome
  simp only [Function.comp_apply, ModuleRow.ofModule, manifest_a, manifest_b, Option.map_some, Option.some.injEq] at column
  have canonical_a := (made a ha).storable.manifest u manifest_a
  have canonical_b := (made b hb).storable.manifest v manifest_b
  rw [manifest_a, manifest_b, (canonical_a.toString_inj canonical_b).mp column]

/-- The registry and the tables are in order. -/
structure Consistent (x : ModuleIndex) : Prop where
  /-- Every module is kept under its name, has components, and knows its manifest. -/
  resident : ∀ name m, x.registry.get? name = some m →
    m.name = name ∧ m.components.isEmpty = false ∧ m.manifest.isSome = true
  /-- No two modules have one manifest. -/
  singular : ∀ name other m n, x.registry.get? name = some m → x.registry.get? other = some n →
    m.manifest = n.manifest → name = other
  /-- The module of a manifest is found whatever order the modules are searched in. -/
  found : ∀ u (order : List ModuleEntry), order.Perm x.registry.toList →
    (order.find? fun m => m.manifest == some u) = x.registry.findByManifest? u
  /-- The tables decode to the resident modules. -/
  decode : ∀ name, x.store.getModule name = .ok (x.registry.get? name)
  modules : x.store.modules.Perm (x.registry.toList.map ModuleRow.ofModule)
  components : x.store.components.Perm (x.registry.toList.flatMap ModuleEntry.componentRows)

theorem Sound.consistent (h : x.Sound base) : x.Consistent where
  resident := by
    intro name m live
    have made := h.genuine.made m (OrdMap.mem_values.mpr ⟨name, live⟩)
    exact ⟨h.genuine.own name m live, made.nonempty, made.manifest_isSome⟩
  singular := by
    intro name other m n live live_other same
    have equal := h.singular m (OrdMap.mem_values.mpr ⟨name, live⟩) n (OrdMap.mem_values.mpr ⟨other, live_other⟩) same
    rw [← h.genuine.own name m live, ← h.genuine.own other n live_other, equal]
  found := fun u _ perm => h.singular.find?_perm perm u
  decode := fun name => Store.HoldsModules.getModule h.mirrors name
  modules := h.mirrors.rows
  components := h.mirrors.components

/-- Take a store that only the index has written and in which no two rows have one manifest. At every point of a
    run that begins with a load and in which no call of the store fails, the registry and the tables are in order,
    and again no two rows have one manifest. -/
theorem consistent_of_distinct_manifests {s : Store} (written : Store.Written P s)
    (distinct : (s.modules.map ModuleRow.manifest).Nodup) {m : Matcher} (root : FileUri.Canonical m.root)
    {calls : List (FileTree × Action)}
    (proper : ∀ call ∈ calls, call.1.Proper P ∧ call.2.Canonical)
    (granted : RunGranted naming m ⟨.empty, s⟩ ((t, .load) :: calls)) :
    (run ⟨.empty, s⟩ naming m ((t, .load) :: calls)).Consistent ∧
      ((run ⟨.empty, s⟩ naming m ((t, .load) :: calls)).store.modules.map ModuleRow.manifest).Nodup := by
  obtain ⟨r, held, made⟩ := written.rows.2
  have start : Genuine s ⟨.empty, s⟩ := by
    refine ⟨OrdMap.keyedBy_empty, fun m member => ?_, ⟨r, held, made⟩, .refl s⟩
    simp at member
  have loaded : (load ⟨.empty, s⟩ t).2.Sound s := Sound.load start held (singular_of_nodup held distinct) granted.1
  have final : (run (load ⟨.empty, s⟩ t).2 naming m calls).Sound s := Sound.run root proper loaded granted.2
  exact ⟨final.consistent, nodup_of_singular final.mirrors final.genuine.made final.singular⟩

/-! ## A manifest that is renamed between two runs

The manifest names another module when the second run comes to it, at the same time. Neither run begins with a load,
so the second does not know of the module that the first has left in the store. -/

namespace Renamed

open Sample

def declaring (name : String) : FileTree := holding manifest ("module " ++ name ++ "\nT 1.0 T.qml\n")

def scanned (w : Workspace) (t : FileTree) : Workspace := ((w.run t [.modules .scan]).getD (w, t)).1

def once : Store := (scanned workspace (declaring "A")).store

def twice : Store := (scanned { workspace with store := once } (declaring "B")).store

theorem declaring_proper (name : String) : (declaring name).Proper fun _ => True := holding_proper canonical_manifest trivial

theorem scan_proper : ∀ a ∈ [Workspace.Action.modules .scan], a.Proper fun _ => True := by
  simp [Workspace.Action.Proper, Action.Canonical]

theorem scanned_eq (w : Workspace) (t : FileTree) : w.run t [.modules .scan] = some (scanned w t, t) := rfl

theorem once_written : Store.Written (fun _ => True) once :=
  .run (opened .empty) .empty (declaring_proper "A") scan_proper (scanned_eq _ _)

theorem twice_written : Store.Written (fun _ => True) twice :=
  .run (opened once) once_written (declaring_proper "B") scan_proper (scanned_eq _ _)

end Renamed

open Sample Renamed in
/-- A load from such a store can bring back two modules of one manifest. -/
theorem not_consistent_of_written :
    ¬ ∀ (s : Store) (naming : Naming) (m : Matcher) (t : FileTree) (calls : List (FileTree × Action)),
      Store.Written (fun _ => True) s → FileUri.Canonical m.root → t.Proper (fun _ => True) →
      (∀ call ∈ calls, call.1.Proper (fun _ => True) ∧ call.2.Canonical) →
      RunGranted naming m ⟨.empty, s⟩ ((t, .load) :: calls) →
        (run ⟨.empty, s⟩ naming m ((t, .load) :: calls)).Consistent := by
  intro always
  have granted : RunGranted workspace.naming workspace.manifestMatcher ⟨.empty, twice⟩ [(declaring "B", .load)] := by
    decide
  have consistent := always twice _ workspace.manifestMatcher (declaring "B") [] twice_written canonical_root
    (declaring_proper "B") (by simp) granted
  have both : ∀ name ∈ ["A", "B"],
      ((load ⟨.empty, twice⟩ (declaring "B")).2.registry.get? name).map ModuleEntry.manifest = some (some manifest) := by
    decide
  obtain ⟨m, live, path⟩ := Option.map_eq_some_iff.mp (both "A" (by simp))
  obtain ⟨n, live_other, path_other⟩ := Option.map_eq_some_iff.mp (both "B" (by simp))
  exact absurd (consistent.singular "A" "B" m n live live_other (path.trans path_other.symm)) (by decide)

open Sample Renamed in
theorem consistent_after_rename :
    (run ⟨.empty, once⟩ workspace.naming workspace.manifestMatcher
        [(declaring "A", .load), (declaring "B", .handle .changed manifest)]).Consistent ∧
      (run ⟨.empty, once⟩ workspace.naming workspace.manifestMatcher
        [(declaring "A", .load), (declaring "B", .handle .changed manifest)]).registry.names = ["B"] := by
  have proper : ∀ call ∈ [(declaring "B", Action.handle .changed manifest)],
      call.1.Proper (fun _ => True) ∧ call.2.Canonical := by
    intro call member
    obtain rfl := List.mem_singleton.mp member
    exact ⟨declaring_proper "B", canonical_manifest⟩
  refine ⟨?_, by decide⟩
  exact (consistent_of_distinct_manifests once_written (by decide) canonical_root proper
    (by decide)).1

end ModuleIndex

end QmlIndex
