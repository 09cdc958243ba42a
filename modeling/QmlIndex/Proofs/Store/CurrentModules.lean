import QmlIndex.Proofs.Store.Session

/-! # Which modules are read back

A module is read back if it has components and its manifest stands: it has none, or what is at the manifest's path, be it
a file or a directory, has the time that is stored. There is one more case, in which no manifest should stand: nothing is
at the path, and no time is stored either. All other modules are deleted together with their components.
-/

namespace QmlIndex

/-- A list is run through if no element of it fails. -/
theorem exists_mapM_eq_ok {α β ε : Type} {f : α → Except ε β} {l : List α} :
    (∃ result, l.mapM f = .ok result) ↔ ∀ a ∈ l, ∃ b, f a = .ok b := by
  induction l with
  | nil => exact ⟨nofun, fun _ => ⟨[], rfl⟩⟩
  | cons a rest ih =>
      rw [List.mapM_cons, List.forall_mem_cons, ← ih]
      cases f a with
      | error e => simp [bind, Except.bind]
      | ok b => cases rest.mapM f <;> simp [bind, Except.bind, pure, Except.pure]

/-- There is no manifest, or its path has the time that is stored, where a path that leads nowhere has none. -/
def ModuleEntry.ManifestStands (t : FileTree) (m : ModuleEntry) : Prop :=
  ∀ manifest, m.manifest = some manifest → t.time? manifest = m.lastModified

namespace Store

variable {s after : Store} {t : FileTree} {r : ModuleRow} {m : ModuleEntry}

theorem isCurrentModule_iff : isCurrentModule t m = true ↔ m.ManifestStands t := by
  rw [isCurrentModule, ModuleEntry.ManifestStands]
  cases m.manifest with
  | none => simp
  | some manifest => simp [FileTree.hasTime_iff]

/-! ## One row -/

/-- The components of a module can be read if each row of them can. -/
theorem exists_getModuleOfRow_eq_ok : (∃ n, s.getModuleOfRow m = .ok n) ↔
    ∀ c ∈ s.components, c.moduleName = m.name → ∃ d, c.decode = .ok d := by
  have decodes : ∀ c : ComponentRow, (∃ d, decoded c.decode = .ok d) ↔ ∃ d, c.decode = .ok d := by
    intro c
    cases c.decode <;> simp [decoded, undecodable]
  simp only [getModuleOfRow, getComponents, exists_bind_eq_ok]
  constructor
  · rintro ⟨_, read, _⟩ c member own
    obtain ⟨_, read, _⟩ := bind_eq_ok.mp read
    exact (decodes c).mp (exists_mapM_eq_ok.mp ⟨_, read⟩ c (List.mem_filter.mpr ⟨member, beq_iff_eq.mpr own⟩))
  · intro all
    obtain ⟨read, same⟩ := exists_mapM_eq_ok.mpr fun c member => (decodes c).mpr <|
      all c (List.mem_filter.mp member).1 (beq_iff_eq.mp (List.mem_filter.mp member).2)
    exact ⟨_, bind_eq_ok.mpr ⟨read, same, rfl⟩, _, rfl⟩

theorem getModuleOfRow_eq_ok {d : ModuleEntry} : s.getModuleOfRow d = .ok m ↔
    ∃ components, s.getComponents d.name = .ok components ∧ m = { d with components } := by
  simp only [getModuleOfRow, bind_eq_ok, pure, Except.pure, Except.ok.injEq, @eq_comm _ m]

/-- The module that a row leads to, if there is one to be kept. -/
def kept? (s : Store) (t : FileTree) (r : ModuleRow) : Option ModuleEntry := (s.currentModule? t r).toOption.join

theorem kept?_eq_some : s.kept? t r = some m ↔
    ∃ d, r.decode = .ok d ∧ d.ManifestStands t ∧ s.getModuleOfRow d = .ok m ∧ m.components.isEmpty = false := by
  rw [kept?, currentModule?]
  cases found : r.decode with
  | error column => simp [Except.toOption]
  | ok d =>
      simp only [← isCurrentModule_iff, Except.ok.injEq, exists_eq_left']
      by_cases stands : isCurrentModule t d = true
      · simp only [stands, reduceIte, true_and]
        cases read : s.getModuleOfRow d with
        | error fault => simp [bind, Except.bind, Except.toOption]
        | ok n =>
            simp only [bind, Except.bind, Except.toOption, pure, Except.pure, Except.ok.injEq, Option.join_some]
            cases empty : n.components.isEmpty with
            | true =>
                simp only [reduceIte, reduceCtorEq, false_iff]
                rintro ⟨rfl, inhabited⟩
                simp [empty] at inhabited
            | false =>
                simp only [Bool.false_eq_true, reduceIte, Option.some.injEq, iff_self_and]
                rintro rfl
                exact empty
      · simp [stands, Except.toOption]

/-- A row is in the way of all others if its module would be kept but for a component that cannot be read. -/
theorem exists_currentModule?_eq_ok : (∃ found, s.currentModule? t r = .ok found) ↔
    ∀ d, r.decode = .ok d → d.ManifestStands t →
      ∀ c ∈ s.components, c.moduleName = d.name → ∃ e, c.decode = .ok e := by
  rw [currentModule?]
  cases found : r.decode with
  | error column => simp
  | ok d =>
      simp only [← isCurrentModule_iff, Except.ok.injEq, forall_eq', ← exists_getModuleOfRow_eq_ok]
      by_cases stands : isCurrentModule t d = true
      · simp only [stands, reduceIte, forall_const, exists_bind_eq_ok]
        exact exists_congr fun n => and_iff_left ⟨_, rfl⟩
      · simp [stands]

/-! ## Deleting the rest -/

/-- The modules of some names are deleted, with their components. -/
def without (s : Store) (names : List String) : Store :=
  { s with
    modules := s.modules.filter fun r => r.name.all (· ∉ names)
    components := s.components.filter fun c => c.moduleName ∉ names }

/-- What is written when the modules of some names are deleted. -/
def dropping (s : Store) (names : List String) : Writes :=
  .of .components .delete (s.components.countP (·.moduleName ∈ names)) +
    .of .modules .delete (s.modules.countP (·.name.any (· ∈ names)))

theorem refuses_dropping_iff {names : List String} : s.Refuses (s.dropping names) ↔
    s.Refuses (.of .components .delete (s.components.countP (·.moduleName ∈ names))) ∨
      s.Refuses (.of .modules .delete (s.modules.countP (·.name.any (· ∈ names)))) := by
  rw [dropping, refuses_add, refuses_spend_of_ne (by decide)]

theorem dropModule_eq_ok {name : String} : s.dropModule name = .ok after ↔
    ¬ s.Refuses (s.dropping [name]) ∧ after = (s.without [name]).spend (s.dropping [name]) := by
  have same : { s with
      modules := s.modules.filter fun r => !(r.name == some name)
      components := s.components.filter fun c => !(c.moduleName == name) } = s.without [name] := by
    rw [without]
    congr 1
    · refine List.filter_congr fun r _ => ?_
      rw [Bool.eq_iff_iff]
      cases r.name <;> simp
    · refine List.filter_congr fun c _ => ?_
      rw [Bool.eq_iff_iff]
      simp
  have components : s.components.countP (·.moduleName ∈ [name]) = s.components.countP (·.moduleName == name) :=
    List.countP_congr fun c _ => by simp
  have modules : s.modules.countP (·.name.any (· ∈ [name])) = s.modules.countP (·.name == some name) :=
    List.countP_congr fun r _ => by cases r.name <;> simp
  rw [dropModule, bind_eq_ok, dropping, components, modules, refuses_add, not_or, ← spend_spend, ← same]
  constructor
  · rintro ⟨_, first, second⟩
    obtain ⟨granted, rfl⟩ := deleteComponents_eq_ok.mp first
    obtain ⟨granted_modules, rfl⟩ := deleteModules_eq_ok.mp second
    exact ⟨⟨granted, granted_modules⟩, rfl⟩
  · rintro ⟨⟨granted, granted_modules⟩, rfl⟩
    exact ⟨_, deleteComponents_eq_ok.mpr ⟨granted, rfl⟩, deleteModules_eq_ok.mpr ⟨granted_modules, rfl⟩⟩

theorem without_without (name : String) (rest : List String) :
    (s.without [name]).without rest = s.without (name :: rest) := by
  have modules (r : ModuleRow) : (r.name.all (· ∉ rest) && r.name.all (· ∉ [name])) = r.name.all (· ∉ name :: rest) := by
    cases r.name <;> simp [Bool.and_comm]
  have components (c : ComponentRow) : (decide (c.moduleName ∉ rest) && decide (c.moduleName ∉ [name])) =
      decide (c.moduleName ∉ name :: rest) := by
    simp [Bool.and_comm]
  simp only [without, List.filter_filter, modules, components]

theorem dropping_cons (s : Store) (name : String) (rest : List String) :
    s.dropping (name :: rest) = s.dropping [name] + (s.without [name]).dropping rest := by
  have components : s.components.countP (·.moduleName ∈ name :: rest) =
      s.components.countP (·.moduleName ∈ [name]) + (s.without [name]).components.countP (·.moduleName ∈ rest) := by
    have kinds := countP_or (fun c : ComponentRow => c.moduleName ∈ [name]) (·.moduleName ∈ rest) s.components
    simpa [without] using kinds
  have modules : s.modules.countP (·.name.any (· ∈ name :: rest)) =
      s.modules.countP (·.name.any (· ∈ [name])) + (s.without [name]).modules.countP (·.name.any (· ∈ rest)) := by
    have kinds : s.modules.countP (·.name.any (· ∈ name :: rest)) =
        s.modules.countP fun r => r.name.any (· ∈ [name]) || r.name.any (· ∈ rest) :=
      List.countP_congr fun r _ => by cases r.name <;> simp
    have left : s.modules.filter (!·.name.any (· ∈ [name])) = (s.without [name]).modules :=
      List.filter_congr fun r _ => by cases r.name <;> simp
    rw [kinds, countP_or, left]
  funext table event
  simp only [dropping, components, modules, ← Writes.of_add, Pi.add_apply]
  omega

theorem dropModules_eq_ok {names : List String} : names.foldlM dropModule s = .ok after ↔
    ¬ s.Refuses (s.dropping names) ∧ after = (s.without names).spend (s.dropping names) := by
  induction names generalizing s with
  | nil =>
      have whole : s.without [] = s := by simp [without]
      have components : s.components.countP (·.moduleName ∈ ([] : List String)) = 0 := by simp
      have modules : s.modules.countP (·.name.any (· ∈ ([] : List String))) = 0 := by simp
      rw [List.foldlM_nil, whole, refuses_dropping_iff, dropping, components, modules, ← spend_spend, spend_zero,
        spend_zero]
      simp [pure, Except.pure, not_refuses_zero, @eq_comm _ s]
  | cons name rest ih =>
      rw [List.foldlM_cons, bind_eq_ok, dropping_cons, refuses_add, not_or, ← spend_spend,
        ← without_without name rest]
      constructor
      · rintro ⟨_, first, later⟩
        obtain ⟨granted, rfl⟩ := dropModule_eq_ok.mp first
        obtain ⟨granted_rest, same⟩ := ih.mp later
        exact ⟨⟨granted, granted_rest⟩, same⟩
      · rintro ⟨⟨granted, granted_rest⟩, same⟩
        exact ⟨_, dropModule_eq_ok.mpr ⟨granted, rfl⟩, ih.mpr ⟨granted_rest, same⟩⟩

/-! ## Reading back -/

/-- No two rows have one name, though any number of them may have none. -/
def KeyedByName (s : Store) : Prop := (s.modules.filterMap ModuleRow.name).Nodup

/-- The module is stored with all its components, of which it has some, and its manifest stands. -/
structure Survives (s : Store) (t : FileTree) (m : ModuleEntry) : Prop where
  stored : s.getModule m.name = .ok (some m)
  inhabited : m.components.isEmpty = false
  manifest : m.ManifestStands t

theorem name_of_decode (decodes : r.decode = .ok m) : r.name = some m.name := by
  rw [ModuleRow.decode] at decodes
  cases named : r.name with
  | none =>
      rw [named] at decodes
      cases decodes
  | some name =>
      rw [named] at decodes
      simp only [decodeColumn, bind, Except.bind] at decodes
      repeat' split at decodes
      all_goals cases decodes
      all_goals rfl

theorem getModule_eq_some {name : String} : s.getModule name = .ok (some m) ↔
    ∃ r, s.moduleRow? name = some r ∧ ∃ d, r.decode = .ok d ∧ s.getModuleOfRow d = .ok m := by
  rw [getModule]
  cases found : s.moduleRow? name with
  | none => simp [pure, Except.pure]
  | some r =>
      simp only [Option.some.injEq, exists_eq_left']
      cases decodes : r.decode with
      | error column => simp [decoded, undecodable, bind, Except.bind]
      | ok d =>
          simp only [decoded, Except.ok.injEq, exists_eq_left', bind_eq_ok, pure, Except.pure, Option.some.injEq]
          simp

theorem KeyedByName.moduleRow? (h : s.KeyedByName) (row : r ∈ s.modules) {name : String} (named : r.name = some name) :
    s.moduleRow? name = some r := by
  rw [Store.moduleRow?]
  cases found : s.modules.find? (·.name == some name) with
  | none => simpa [named] using List.find?_eq_none.mp found r row
  | some other =>
      have same : other.name = some name := by simpa using List.find?_some found
      rw [eq_of_key h (List.mem_of_find?_eq_some found) row same named]

theorem KeyedByName.kept?_eq_some (h : s.KeyedByName) (row : r ∈ s.modules) :
    s.kept? t r = some m ↔ r.name = some m.name ∧ s.Survives t m := by
  rw [Store.kept?_eq_some]
  constructor
  · rintro ⟨d, decodes, stands, read, inhabited⟩
    obtain ⟨components, _, rfl⟩ := getModuleOfRow_eq_ok.mp read
    have named := name_of_decode decodes
    exact ⟨named, getModule_eq_some.mpr ⟨r, h.moduleRow? row named, d, decodes, read⟩, inhabited, stands⟩
  · rintro ⟨named, stored, inhabited, stands⟩
    obtain ⟨_, found, d, decodes, read⟩ := getModule_eq_some.mp stored
    obtain rfl := Option.some.inj ((h.moduleRow? row named).symm.trans found)
    obtain ⟨components, _, rfl⟩ := getModuleOfRow_eq_ok.mp read
    exact ⟨d, decodes, stands, read, inhabited⟩

theorem Survives.row (h : s.Survives t m) : ∃ r ∈ s.modules, r.name = some m.name := by
  obtain ⟨r, found, _⟩ := getModule_eq_some.mp h.stored
  exact ⟨r, List.mem_of_find?_eq_some found, by simpa using List.find?_some found⟩

/-- The names of the modules that are deleted when the table is read back. -/
def gone (s : Store) (t : FileTree) : List String := stale (s.modules.map fun r => (r.name.getD "", s.kept? t r))

/-- If no row is in the way, each leads to the module that is kept of it. -/
theorem mapM_kept? (all : ∀ r ∈ s.modules, ∃ m, s.currentModule? t r = .ok m) :
    (s.modules.map fun r => (r.name.getD "", r)).mapM (fun p => do return (p.1, ← s.currentModule? t p.2)) =
      (.ok (s.modules.map fun r => (r.name.getD "", s.kept? t r)) : Result _) := by
  refine mapM_map_ok fun r member => ?_
  obtain ⟨m, read⟩ := all r member
  simp only [kept?, read]
  cases m <;> rfl

theorem transact_eq_ok {α : Type} {body : Result (α × Store)} {a : α} :
    s.transact body = (.ok a, after) ↔ ∃ left, body = .ok (a, left) ∧ left.withRefusals s.refusals = after := by
  cases body with
  | error fault => simp [transact]
  | ok done => simp [transact, Prod.ext_iff, and_assoc]

/-- Reading back goes through if every row has a name, none is in the way, and what is left out may be deleted. -/
theorem loadModules_eq_ok {found : List ModuleEntry} : s.loadModules t = (.ok found, after) ↔
    (∀ r ∈ s.modules, r.name.isSome = true) ∧ (∀ r ∈ s.modules, ∃ m, s.currentModule? t r = .ok m) ∧
      ¬ s.Refuses (s.dropping (s.gone t)) ∧ after = s.without (s.gone t) ∧ found = s.modules.filterMap (s.kept? t) := by
  rw [loadModules, transact_eq_ok]
  constructor
  · rintro ⟨left, done, rfl⟩
    obtain ⟨rows, keys, done⟩ := bind_eq_ok.mp done
    have named : ∀ r ∈ s.modules, r.name.isSome = true := by
      intro r member
      rw [Option.isSome_iff_ne_none]
      intro nameless
      simp [withKeys_of_nameless member nameless, undecodable] at keys
    obtain rfl := Except.ok.inj ((withKeys_of_named named).symm.trans keys)
    obtain ⟨pairs, read, done⟩ := bind_eq_ok.mp done
    have all : ∀ r ∈ s.modules, ∃ m, s.currentModule? t r = .ok m := by
      intro r member
      obtain ⟨_, one⟩ := exists_mapM_eq_ok.mp ⟨pairs, read⟩ _ (List.mem_map_of_mem member)
      obtain ⟨m, one, _⟩ := bind_eq_ok.mp one
      exact ⟨m, one⟩
    obtain rfl := Except.ok.inj ((mapM_kept? all).symm.trans read)
    obtain ⟨_, dropped, same⟩ := bind_eq_ok.mp done
    obtain ⟨rfl, rfl⟩ := Prod.mk.inj (Except.ok.inj same)
    obtain ⟨granted, rfl⟩ := dropModules_eq_ok.mp dropped
    exact ⟨named, all, granted, rfl, by rw [List.filterMap_map]; rfl⟩
  · rintro ⟨named, all, granted, rfl, rfl⟩
    refine ⟨(s.without (s.gone t)).spend (s.dropping (s.gone t)), bind_eq_ok.mpr ⟨_, withKeys_of_named named,
      bind_eq_ok.mpr ⟨_, mapM_kept? all, bind_eq_ok.mpr ⟨_, dropModules_eq_ok.mpr ⟨granted, rfl⟩, ?_⟩⟩⟩, rfl⟩
    rw [List.filterMap_map]
    rfl

/-- What a reading of the modules that goes through gives and leaves. -/
structure ReadsModules (s : Store) (t : FileTree) (found : List ModuleEntry) (after : Store) : Prop where
  exact : ∀ m, m ∈ found ↔ s.Survives t m
  once : (found.map ModuleEntry.name).Nodup
  /-- The rows that are left are those of the modules that are found. -/
  modules : ∀ r, r ∈ after.modules ↔ r ∈ s.modules ∧ ∃ m ∈ found, r.name = some m.name
  /-- A component is left if its module is found, or if there has been no row of its module. -/
  components : ∀ c, c ∈ after.components ↔
    c ∈ s.components ∧ ∀ r ∈ s.modules, r.name = some c.moduleName → ∃ m ∈ found, c.moduleName = m.name
  unchanged : after.modules.Sublist s.modules ∧ after.components.Sublist s.components
  frame : s.KeepsSources after

theorem KeyedByName.mem_kept (h : s.KeyedByName) : m ∈ s.modules.filterMap (s.kept? t) ↔ s.Survives t m := by
  rw [List.mem_filterMap]
  constructor
  · rintro ⟨r, row, found⟩
    exact ((h.kept?_eq_some row).mp found).2
  · intro survives
    obtain ⟨r, row, named⟩ := survives.row
    exact ⟨r, row, (h.kept?_eq_some row).mpr ⟨named, survives⟩⟩

/-- A name that is deleted is that of a row. -/
theorem row_of_gone (named : ∀ r ∈ s.modules, r.name.isSome = true) {name : String} (listed : name ∈ s.gone t) :
    ∃ r ∈ s.modules, r.name = some name := by
  obtain ⟨r, row, same, _⟩ := mem_stale.mp listed
  obtain ⟨other, here⟩ := Option.isSome_iff_exists.mp (named r row)
  rw [here, Option.getD_some] at same
  exact ⟨r, row, same ▸ here⟩

/-- A module is deleted if none of its name survives. -/
theorem KeyedByName.mem_gone (h : s.KeyedByName) (named : ∀ r ∈ s.modules, r.name.isSome = true) (row : r ∈ s.modules)
    {name : String} (here : r.name = some name) : name ∈ s.gone t ↔ ∀ m, s.Survives t m → m.name ≠ name := by
  rw [gone, mem_stale_iff h named row here, Option.eq_none_iff_forall_ne_some]
  refine forall_congr' fun m => ?_
  rw [ne_eq, h.kept?_eq_some row, here, Option.some.injEq, not_and', eq_comm]

theorem KeyedByName.not_mem_gone (h : s.KeyedByName) (named : ∀ r ∈ s.modules, r.name.isSome = true) (row : r ∈ s.modules)
    {name : String} (here : r.name = some name) : name ∉ s.gone t ↔ ∃ m, s.Survives t m ∧ name = m.name := by
  rw [h.mem_gone named row here]
  push Not
  simp only [eq_comm]

theorem KeyedByName.nodup_kept (h : s.KeyedByName) : ((s.modules.filterMap (s.kept? t)).map ModuleEntry.name).Nodup := by
  have apart := List.pairwise_filterMap.mp h
  rw [List.Nodup, List.pairwise_map, List.pairwise_filterMap]
  refine apart.imp_of_mem fun first second apart m found n other => ?_
  exact apart _ ((h.kept?_eq_some first).mp found).1 _ ((h.kept?_eq_some second).mp other).1

/-- A reading that goes through finds the modules that survive, and leaves what belongs to them. -/
theorem KeyedByName.reads (h : s.KeyedByName) {found : List ModuleEntry} (loaded : s.loadModules t = (.ok found, after)) :
    s.ReadsModules t found after := by
  obtain ⟨named, _, _, rfl, rfl⟩ := loadModules_eq_ok.mp loaded
  constructor
  case exact => exact fun m => h.mem_kept
  case once => exact h.nodup_kept
  case unchanged => exact ⟨List.filter_sublist, List.filter_sublist⟩
  case frame => exact ⟨rfl, rfl⟩
  case modules =>
    intro r
    simp only [without, List.mem_filter, h.mem_kept]
    refine and_congr_right fun row => ?_
    obtain ⟨name, here⟩ := Option.isSome_iff_exists.mp (named r row)
    rw [here, Option.all_some, decide_eq_true_eq, h.not_mem_gone named row here]
    simp only [Option.some.injEq]
  case components =>
    intro c
    simp only [without, List.mem_filter, decide_eq_true_eq, h.mem_kept]
    refine and_congr_right fun _ => ⟨fun kept r row here => (h.not_mem_gone named row here).mp kept, fun kept listed => ?_⟩
    obtain ⟨r, row, here⟩ := row_of_gone named listed
    exact (h.not_mem_gone named row here).mpr (kept r row here) listed

/-! ## Stores that come about -/

/-- What can be asked of a store. -/
inductive Operation where
  | modules (call : Call)
  | saveSources (entries : List SourceEntry)
  | saveSource (e : SourceEntry)
  | removeSources (uris : List FileUri)
  | loadSources (t : FileTree)
  | clearSources

/-- The store after an operation, whether or not it has failed. -/
def apply (s : Store) : Operation → Store
  | .modules call => (s.make call).2
  | .saveSources entries => (s.saveSources entries).2
  | .saveSource e => (s.saveSource e).2
  | .removeSources uris => (s.removeSources uris).2
  | .loadSources t => (s.loadSources t).2
  | .clearSources => s.clearSources.2

def build (operations : List Operation) : Store := operations.foldl apply empty

/-- The names of modules are distinct, and every component has the row of its module. -/
structure Related (s : Store) : Prop where
  names : s.KeyedByName
  owned : ∀ c ∈ s.components, ∃ r ∈ s.modules, r.name = some c.moduleName

theorem related_of_bare (no_modules : s.modules = []) (no_components : s.components = []) : s.Related where
  names := by simp [KeyedByName, no_modules]
  owned := by simp [no_components]

theorem Related.congr (h : s.Related) (same : s.SameModules after) : after.Related where
  names := by
    rw [KeyedByName, same.modules]
    exact h.names
  owned := same.modules ▸ same.components ▸ h.owned

theorem Related.withRefusals (h : s.Related) (l : List Refusal) : (s.withRefusals l).Related := ⟨h.names, h.owned⟩

theorem Related.without (h : s.Related) (names : List String) : (s.without names).Related where
  names := h.names.sublist (List.filter_sublist.filterMap _)
  owned := by
    intro c member
    obtain ⟨member, other⟩ := List.mem_filter.mp member
    obtain ⟨r, row, own⟩ := h.owned c member
    exact ⟨r, List.mem_filter.mpr ⟨row, by simpa [own] using other⟩, own⟩

/-- What holds before a transaction and after its body holds after it. -/
theorem Related.transact (h : s.Related) {α : Type} {body : Result (α × Store)}
    (done : ∀ a after, body = .ok (a, after) → after.Related) : (s.transact body).2.Related := by
  rcases transact_cases s body with ⟨_, failed⟩ | ⟨a, after, body, same⟩
  · rwa [failed]
  · rw [same]
    exact (done a after body).withRefusals _

theorem Related.run (h : s.Related) {body : Result Store} (done : ∀ after, body = .ok after → after.Related) :
    (s.run body).2.Related := by
  rcases run_cases s body with ⟨_, failed⟩ | ⟨after, body, same⟩
  · rwa [failed]
  · rw [same]
    exact (done after body).withRefusals _

theorem Related.save (h : s.Related) (m : ModuleEntry) : (s.saveModule m).2.Related := by
  rcases saveModule_cases s m with ⟨_, failed⟩ | saved
  · rwa [failed]
  rw [saved]
  constructor
  case names =>
    rw [KeyedByName, List.filterMap_append, List.nodup_append]
    refine ⟨h.names.sublist (List.filter_sublist.filterMap _), by simp [ModuleRow.ofModule], ?_⟩
    rintro name kept _ last rfl
    obtain ⟨r, member, found⟩ := List.mem_filterMap.mp kept
    obtain rfl : name = m.name := by simpa [ModuleRow.ofModule] using last
    simp [found, ModuleRow.ofModule] at member
  case owned =>
    intro c member
    rcases List.mem_append.mp member with before | added
    · obtain ⟨before, other⟩ := List.mem_filter.mp before
      obtain ⟨r, row, own⟩ := h.owned c before
      refine ⟨r, List.mem_append_left _ (List.mem_filter.mpr ⟨row, ?_⟩), own⟩
      simpa [own, ModuleRow.ofModule] using other
    · obtain ⟨_, _, rfl⟩ := List.mem_map.mp added
      exact ⟨ModuleRow.ofModule m, List.mem_append_right _ (List.mem_singleton_self _), rfl⟩

theorem Related.make (h : s.Related) (call : Call) : (s.make call).2.Related := by
  cases call with
  | save m => exact h.save m
  | remove name =>
      refine h.transact fun _ after removed => ?_
      obtain ⟨_, dropped, same⟩ := bind_eq_ok.mp removed
      obtain ⟨_, rfl⟩ := Prod.mk.inj (Except.ok.inj same)
      obtain ⟨_, rfl⟩ := dropModule_eq_ok.mp dropped
      exact (h.without [name]).withRefusals _
  | clearModules =>
      refine h.run fun after cleared => ?_
      obtain ⟨_, components, modules⟩ := bind_eq_ok.mp cleared
      obtain ⟨_, rfl⟩ := deleteComponents_eq_ok.mp components
      obtain ⟨_, rfl⟩ := deleteModules_eq_ok.mp modules
      exact related_of_bare (by simp) (by simp)
  | clear =>
      refine h.run fun after cleared => ?_
      obtain ⟨_, components, cleared⟩ := bind_eq_ok.mp cleared
      obtain ⟨_, modules, sources⟩ := bind_eq_ok.mp cleared
      obtain ⟨_, rfl⟩ := deleteComponents_eq_ok.mp components
      obtain ⟨_, rfl⟩ := deleteModules_eq_ok.mp modules
      obtain ⟨_, rfl⟩ := deleteSources_eq_ok.mp sources
      exact related_of_bare (by simp) (by simp)
  | load t =>
      rcases transact_cases s _ with ⟨_, failed⟩ | ⟨found, after, _, loaded⟩
      · rw [Store.make, loadModules, failed]
        exact h
      · rw [Store.make, loadModules, loaded]
        obtain ⟨_, _, _, left, _⟩ := loadModules_eq_ok.mp loaded
        exact left ▸ h.without _
  | refuse refusal => exact h.withRefusals _
  | accept table event => exact h.withRefusals _

theorem Related.apply (h : s.Related) (operation : Operation) : (s.apply operation).Related := by
  cases operation with
  | modules call => exact h.make call
  | saveSources entries => exact h.congr (keeps_save s entries).same
  | saveSource e =>
      refine h.run fun after put => ?_
      obtain ⟨_, _, rfl⟩ := putSource_eq_ok.mp put
      exact h.congr ⟨rfl, rfl⟩
  | removeSources uris =>
      refine h.transact fun _ after removed => ?_
      obtain ⟨_, same⟩ := deleteListed_eq_ok.mp removed
      obtain ⟨_, rfl⟩ := Prod.mk.inj same
      exact h.congr ⟨rfl, rfl⟩
  | loadSources t =>
      refine h.transact fun _ after loaded => ?_
      obtain ⟨_, _, loaded⟩ := bind_eq_ok.mp loaded
      obtain ⟨_, dropped, same⟩ := bind_eq_ok.mp loaded
      obtain ⟨_, rfl⟩ := Prod.mk.inj (Except.ok.inj same)
      obtain ⟨_, rfl⟩ := deleteSources_eq_ok.mp ((dropSources_eq s _).symm.trans dropped)
      exact h.congr ⟨rfl, rfl⟩
  | clearSources =>
      refine h.run fun after cleared => ?_
      obtain ⟨_, rfl⟩ := deleteSources_eq_ok.mp cleared
      exact h.congr ⟨rfl, rfl⟩

theorem related_build (operations : List Operation) : (build operations).Related := by
  have run : ∀ s : Store, s.Related → (operations.foldl Store.apply s).Related := by
    induction operations with
    | nil => exact fun s h => h
    | cons operation rest ih => exact fun s h => ih _ (h.apply operation)
  exact run empty (related_of_bare rfl rfl)

/-- Whatever has been asked of a store, reading back finds the modules that are stored, have components, and whose
    manifests stand; the others are deleted with their components, and nothing else changes. -/
theorem loadModules_exact (operations : List Operation) {found : List ModuleEntry}
    (loaded : (build operations).loadModules t = (.ok found, after)) :
    (build operations).ReadsModules t found after ∧ ∀ c ∈ after.components, ∃ m ∈ found, c.moduleName = m.name := by
  have related := related_build operations
  have reads := related.names.reads loaded
  refine ⟨reads, fun c left => ?_⟩
  obtain ⟨member, kept⟩ := (reads.components c).mp left
  obtain ⟨r, row, own⟩ := related.owned c member
  exact kept r row own

/-! ## Manifests that are there and that are not -/

namespace Manifests

def path (name : String) : FileUri := Path.rootDir.child name

def entry (name : String) (manifest : Option FileUri) (time : Option Timestamp) (components : List String) :
    ModuleEntry where
  name
  version := "1"
  manifest
  lastModified := time
  components := .ofList (components.map fun c => (c, ⟨c, none, false, false, none⟩))

/-- Neither the manifest is there nor a time. -/
def lost : ModuleEntry := entry "Lost" (some (path "missing")) none ["A"]

/-- Three modules have one manifest, of which one was saved with its time. The manifest of another is a directory. -/
def operations : List Operation := [
  .modules (.save (entry "Fresh" (some (path "qmldir")) (some 5) ["A", "B"])),
  .modules (.save (entry "Old" (some (path "qmldir")) (some 4) ["A"])),
  .modules (.save (entry "Untimed" (some (path "qmldir")) none ["A"])),
  .modules (.save (entry "Gone" (some (path "missing")) (some 5) ["A"])),
  .modules (.save (entry "Folded" (some (path "folder")) (some 6) ["A"])),
  .modules (.save lost),
  .modules (.save (entry "Plain" none (some 7) ["C"])),
  .modules (.save (entry "Empty" none none [])),
  .saveSources []]

def files : FileTree where
  nodes := .ofList [(path "qmldir", .file ⟨.empty, 5⟩), (path "folder", .directory 6)]

end Manifests

open Manifests in
theorem loadModules_exact_mixed :
    ∃ found after, (build operations).loadModules files = (.ok found, after) ∧
      (build operations).ReadsModules files found after ∧
      found.map ModuleEntry.name = ["Fresh", "Folded", "Lost", "Plain"] ∧ after.stats = ⟨0, 4, 5⟩ := by
  have names : ((build operations).loadModules files).1.map (·.map ModuleEntry.name) =
      .ok ["Fresh", "Folded", "Lost", "Plain"] := by
    decide
  have stats : ((build operations).loadModules files).2.stats = ⟨0, 4, 5⟩ := by decide
  rcases loaded : (build operations).loadModules files with ⟨_ | found, after⟩
  · rw [loaded] at names
    cases names
  · rw [loaded] at names stats
    exact ⟨found, after, rfl, (loadModules_exact operations loaded).1, Except.ok.inj names, stats⟩

open Manifests in
/-- A module is read back though there is no file of its manifest. -/
theorem lost_manifest_read_back :
    ∃ found after, (build operations).loadModules files = (.ok found, after) ∧
      ∃ m ∈ found, m.manifest = some (path "missing") ∧ ∀ f, files.file (path "missing") ≠ .ok f := by
  have member : ((build operations).loadModules files).1.map (fun found => decide (lost ∈ found)) = .ok true := by
    decide
  have missing : files.contains (path "missing") = false := by decide
  rcases loaded : (build operations).loadModules files with ⟨_ | found, after⟩
  · rw [loaded] at member
    cases member
  · rw [loaded] at member
    refine ⟨found, after, rfl, lost, of_decide_eq_true (Except.ok.inj member), rfl, fun f here => ?_⟩
    rw [FileTree.contains, FileTree.file_eq_ok.mp here] at missing
    cases missing

end Store

end QmlIndex
