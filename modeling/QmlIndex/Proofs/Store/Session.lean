import QmlIndex.Proofs.Store.Batches
import QmlIndex.Proofs.Store.Modules

/-! # A session with the tables of modules

Modules are saved, deleted, cleared and read back in any order, by a database that begins and ceases to refuse rows, be it
the first row of a call or a later one. All the while the tables of modules and components hold one module for each name:
the one that was saved last, unless it has been deleted or found stale since. A call that fails has changed nothing.
-/

namespace QmlIndex

namespace Store

/-- What can happen to the tables. -/
inductive Call where
  | save (m : ModuleEntry)
  | remove (name : String)
  | clearModules
  | clear
  | load (t : FileTree)
  /-- The database begins to refuse rows. -/
  | refuse (refusal : Refusal)
  | accept (table : Table) (event : Event)

/-- Make a call; say whether it went through, and how it leaves the tables. -/
def make (s : Store) : Call → Bool × Store
  | .save m => (s.saveModule m).map Except.isOk id
  | .remove name => (s.removeModule name).map Except.isOk id
  | .clearModules => s.clearModules.map Except.isOk id
  | .clear => s.clear.map Except.isOk id
  | .load t => (s.loadModules t).map Except.isOk id
  | .refuse refusal => (true, s.refuse refusal)
  | .accept table event => (true, s.accept table event)

namespace Call

/-- A module that is saved lists its components under their names, and its paths are absolute and normalised. -/
def Proper : Call → Prop
  | save m => m.components.KeyedBy Component.name ∧ ∀ u ∈ m.uris, u.Clean
  | _ => True

/-- A module that is saved, or one of its components, has no name. -/
def Nameless : Call → Prop
  | save m => isVoid m.name = true ∨ ∃ c ∈ m.components.values, isVoid c.name = true
  | _ => False

/-- The statements that a call may need. -/
def statements : Call → List (Table × Event)
  | save _ => [(.modules, .insert), (.components, .delete), (.components, .insert)]
  | remove _ | clearModules | load _ => [(.components, .delete), (.modules, .delete)]
  | clear => [(.components, .delete), (.modules, .delete), (.sources, .delete)]
  | refuse _ | accept .. => []

/-- What a call that goes through does to the modules by name. -/
def effect (saved : String → Option ModuleEntry) : Call → String → Option ModuleEntry
  | save m, name => if name = m.name then some m else saved name
  | remove removed, name => if name = removed then none else saved name
  | clearModules, _ | clear, _ => none
  | load t, name => (saved name).filter (keepsModule t)
  | refuse _, name | accept .., name => saved name

end Call

/-- The tables, and what has been saved. -/
structure Session where
  store : Store
  /-- The module that was saved last under each name, unless it was deleted or found stale since. -/
  saved : String → Option ModuleEntry

namespace Session

def step (x : Session) (call : Call) : Session where
  store := (x.store.make call).2
  saved := if (x.store.make call).1 then call.effect x.saved else x.saved

def run (x : Session) (calls : List Call) : Session := calls.foldl step x

/-- The tables of modules and components are the map of the modules that have been saved. -/
structure Refines (x : Session) : Prop where
  /-- Every component belongs to a module. -/
  owned : ∀ c ∈ x.store.components, ∃ m ∈ x.store.modules, m.name = some c.moduleName
  read : ∀ name, x.store.getModule name = .ok (x.saved name)
  save_other : ∀ m, (Call.save m).Proper → ∀ name, name ≠ m.name →
    (x.store.saveModule m).2.getModule name = x.store.getModule name
  remove_other : ∀ removed name, name ≠ removed →
    (x.store.removeModule removed).2.getModule name = x.store.getModule name
  /-- A call that fails changes nothing, and has failed for a missing name or a row that is refused. -/
  failed : ∀ call, call.Proper → (x.store.make call).1 = false →
    (x.store.make call).2 = x.store ∧
      (call.Nameless ∨ ∃ refusal ∈ x.store.refusals, (refusal.table, refusal.event) ∈ call.statements)
  nameless : ∀ call, call.Proper → call.Nameless → (x.store.make call).1 = false

end Session

/-! ## When a call goes through -/

variable {s after : Store} {r : Registry} {m : ModuleEntry} {call : Call}

theorem exists_bind_eq_ok {α β : Type} {x : Result α} {f : α → Result β} :
    (∃ b, x >>= f = .ok b) ↔ ∃ a, x = .ok a ∧ ∃ b, f a = .ok b := by
  simp only [bind_eq_ok]
  constructor
  · rintro ⟨b, a, first, later⟩
    exact ⟨a, first, b, later⟩
  · rintro ⟨a, first, b, later⟩
    exact ⟨b, a, first, later⟩

theorem isOk_transact {α : Type} {body : Result (α × Store)} :
    (s.transact body).1.isOk = true ↔ ∃ done, body = .ok done := by
  cases body with
  | error fault => simp [transact, Except.isOk, Except.toBool]
  | ok done => simp [transact, Except.isOk, Except.toBool]

theorem isOk_run {body : Result Store} : (s.run body).1.isOk = true ↔ ∃ after, body = .ok after := by
  cases body with
  | error fault => simp [run, transact, Except.map, Except.isOk, Except.toBool]
  | ok after => simp [run, transact, Except.map, Except.isOk, Except.toBool]

theorem check_ofModule : (ModuleRow.ofModule m).check = .ok () ↔ isVoid m.name = false := by
  simp only [ModuleRow.check, ModuleRow.ofModule, requireText_eq_ok, TextCell.isVoid_text]

theorem check_ofComponent {moduleName : String} {c : Component} :
    (ComponentRow.ofComponent moduleName c).check = .ok () ↔ isVoid c.name = false := by
  simp only [ComponentRow.check, ComponentRow.ofComponent, requireText_eq_ok, TextCell.isVoid_text]

/-- Two components of a module have different names, so that their rows can stand side by side. -/
theorem componentRows_apart (own : m.components.KeyedBy Component.name) :
    m.componentRows.Pairwise (fun a b => sameComponent a b = false) := by
  have distinct := own.nodup
  rw [List.Nodup, List.pairwise_map] at distinct
  rw [ModuleEntry.componentRows, List.pairwise_map]
  refine distinct.imp fun other => ?_
  simp [sameComponent, ComponentRow.ofComponent, other]

/-- Writing a module fails where a name is missing or a row is refused, and nowhere else. -/
theorem saveModule_isOk (own : m.components.KeyedBy Component.name) : (s.saveModule m).1.isOk = true ↔
    (¬ s.Refuses (.of .modules .insert 1) ∧ isVoid m.name = false) ∧
      ¬ s.Refuses (.of .components .delete (s.components.countP (·.moduleName == m.name))) ∧
      ¬ s.Refuses (.of .components .insert m.components.values.length) ∧
      ∀ c ∈ m.components.values, isVoid c.name = false := by
  have rows : ∀ s : Store, m.components.values.foldlM (fun s c => s.addComponent (ComponentRow.ofComponent m.name c)) s =
      m.componentRows.foldlM addComponent s := fun s => by rw [ModuleEntry.componentRows, List.foldlM_map]
  have count : m.componentRows.length = m.components.values.length := List.length_map _
  -- The three statements are about different rows, so that none of them is refused for what another has written.
  have deletion : (s.spend (.of .modules .insert 1)).Refuses
        (.of .components .delete (s.components.countP (·.moduleName == m.name))) ↔
      s.Refuses (.of .components .delete (s.components.countP (·.moduleName == m.name))) :=
    refuses_spend_of_ne (by decide)
  have insertion : ((s.spend (.of .modules .insert 1)).spend
        (.of .components .delete (s.components.countP (·.moduleName == m.name)))).Refuses
        (.of .components .insert m.componentRows.length) ↔
      s.Refuses (.of .components .insert m.components.values.length) := by
    rw [refuses_spend_of_ne (by decide), refuses_spend_of_ne (by decide), count]
  simp only [saveModule, isOk_run, bind_eq_ok, rows]
  constructor
  · rintro ⟨_, _, put, _, deleted, added⟩
    obtain ⟨granted, named, rfl⟩ := putModule_eq_ok.mp put
    obtain ⟨granted_deletion, rfl⟩ := deleteComponents_eq_ok.mp deleted
    obtain ⟨granted_insertion, checked, _⟩ := addComponents_eq_ok.mp added
    refine ⟨⟨granted, check_ofModule.mp named⟩, mt deletion.mpr granted_deletion, mt insertion.mpr granted_insertion, ?_⟩
    exact fun c member => check_ofComponent.mp (checked _ (List.mem_map_of_mem member)).1
  · rintro ⟨⟨granted, named⟩, granted_deletion, granted_insertion, checked⟩
    refine ⟨_, _, putModule_eq_ok.mpr ⟨granted, check_ofModule.mpr named, rfl⟩, _,
      deleteComponents_eq_ok.mpr ⟨mt deletion.mp granted_deletion, rfl⟩,
      addComponents_eq_ok.mpr ⟨mt insertion.mp granted_insertion, fun row listed => ?_, componentRows_apart own, rfl⟩⟩
    obtain ⟨c, member, rfl⟩ := List.mem_map.mp listed
    -- The rows of the module have just been deleted.
    have unlike : (s.components.filter fun row => !row.moduleName == m.name).any
        (sameComponent · (ComponentRow.ofComponent m.name c)) = false := by
      simp +contextual [sameComponent, ComponentRow.ofComponent]
    exact ⟨check_ofComponent.mpr (checked c member), unlike⟩

theorem dropModule_granted (components : s.Grants .components .delete) (modules : s.Grants .modules .delete)
    (name : String) :
    ∃ after, s.dropModule name = .ok after ∧ after.Grants .components .delete ∧ after.Grants .modules .delete :=
  ⟨_, bind_eq_ok.mpr ⟨_, deleteComponents_eq_ok.mpr ⟨components.not_refuses, rfl⟩,
    deleteModules_eq_ok.mpr ⟨(modules.spend _).not_refuses, rfl⟩⟩, (components.spend _).spend _, (modules.spend _).spend _⟩

theorem dropModules_granted (components : s.Grants .components .delete) (modules : s.Grants .modules .delete)
    (names : List String) : ∃ after, names.foldlM dropModule s = .ok after := by
  induction names generalizing s with
  | nil => exact ⟨s, rfl⟩
  | cons name rest ih =>
      obtain ⟨middle, dropped, components, modules⟩ := dropModule_granted components modules name
      obtain ⟨after, done⟩ := ih components modules
      exact ⟨after, by rw [List.foldlM_cons, bind_eq_ok]; exact ⟨middle, dropped, done⟩⟩

/-- Every row can be read, so reading back fails only where a stale module is not to be deleted. -/
theorem HoldsModules.load_isOk (h : s.HoldsModules r) (components : s.Grants .components .delete)
    (modules : s.Grants .modules .delete) (t : FileTree) : (s.loadModules t).1.isOk = true := by
  obtain ⟨order, perm, rows⟩ := h.order
  rw [loadModules, isOk_transact]
  simp only [exists_bind_eq_ok, rows]
  refine ⟨order.map fun m => (m.name, ModuleRow.ofModule m), mapM_map_ok fun _ _ => rfl,
    order.map fun m => (m.name, if keepsModule t m then some m else none), mapM_map_ok fun m member => ?_, ?_⟩
  · exact bind_eq_ok.mpr ⟨_, h.currentModule? (perm.mem_iff.mp member) t, rfl⟩
  · obtain ⟨after, dropped⟩ := dropModules_granted components modules _
    exact ⟨after, dropped, _, rfl⟩

theorem HoldsModules.make_isOk (h : s.HoldsModules r) (proper : call.Proper) (named : ¬ call.Nameless)
    (granted : ∀ asked ∈ call.statements, s.Grants asked.1 asked.2) : (s.make call).1 = true := by
  cases call with
  | save m =>
      obtain ⟨put, deleted, added⟩ : _ ∧ _ ∧ _ := by simpa [Call.statements] using granted
      rw [Call.Nameless, not_or, Bool.not_eq_true] at named
      refine (saveModule_isOk proper.1).mpr ⟨⟨put.not_refuses, named.1⟩, deleted.not_refuses, added.not_refuses, ?_⟩
      exact fun c member => Bool.eq_false_iff.mpr fun missing => named.2 ⟨c, member, missing⟩
  | remove name =>
      obtain ⟨components, modules⟩ : _ ∧ _ := by simpa [Call.statements] using granted
      obtain ⟨after, dropped, _⟩ := dropModule_granted components modules name
      exact isOk_transact.mpr (exists_bind_eq_ok.mpr ⟨after, dropped, _, rfl⟩)
  | clearModules =>
      obtain ⟨components, modules⟩ : _ ∧ _ := by simpa [Call.statements] using granted
      exact isOk_run.mpr (exists_bind_eq_ok.mpr ⟨_, deleteComponents_eq_ok.mpr ⟨components.not_refuses, rfl⟩,
        _, deleteModules_eq_ok.mpr ⟨(modules.spend _).not_refuses, rfl⟩⟩)
  | clear =>
      obtain ⟨components, modules, sources⟩ : _ ∧ _ ∧ _ := by simpa [Call.statements] using granted
      exact isOk_run.mpr (exists_bind_eq_ok.mpr ⟨_, deleteComponents_eq_ok.mpr ⟨components.not_refuses, rfl⟩,
        exists_bind_eq_ok.mpr ⟨_, deleteModules_eq_ok.mpr ⟨(modules.spend _).not_refuses, rfl⟩,
          _, deleteSources_eq_ok.mpr ⟨((sources.spend _).spend _).not_refuses, rfl⟩⟩⟩)
  | load t =>
      obtain ⟨components, modules⟩ : _ ∧ _ := by simpa [Call.statements] using granted
      exact h.load_isOk components modules t
  | refuse refusal => rfl
  | accept table event => rfl

theorem make_nameless (own : call.Proper) (nameless : call.Nameless) : (s.make call).1 = false := by
  cases call with
  | save m =>
      rw [Bool.eq_false_iff]
      intro saved
      obtain ⟨⟨_, named⟩, _, _, components⟩ := (saveModule_isOk own.1).mp saved
      rcases nameless with void | ⟨c, member, void⟩
      · simp [named] at void
      · simp [components c member] at void
  | _ => exact nameless.elim

/-! ## What a call does -/

theorem clear_cases (s : Store) :
    (∃ fault, s.clear = (.error fault, s)) ∨ ∃ after, s.clear = (.ok (), after) ∧ after.HoldsModules .empty := by
  rcases run_cases s _ with failed | ⟨after, body, same⟩
  · exact .inl failed
  · refine .inr ⟨_, same, ?_⟩
    obtain ⟨_, components, body⟩ := bind_eq_ok.mp body
    obtain ⟨_, modules, sources⟩ := bind_eq_ok.mp body
    obtain ⟨_, rfl⟩ := deleteComponents_eq_ok.mp components
    obtain ⟨_, rfl⟩ := deleteModules_eq_ok.mp modules
    obtain ⟨_, rfl⟩ := deleteSources_eq_ok.mp sources
    exact holdsModules_empty (by simp) (by simp)

/-- A call fails and changes nothing, or it goes through and has its effect. -/
theorem HoldsModules.make_cases (h : s.HoldsModules r) (proper : call.Proper) :
    s.make call = (false, s) ∨
      ∃ after now, s.make call = (true, after) ∧ after.HoldsModules now ∧ now.get? = call.effect r.get? := by
  cases call with
  | save m =>
      rcases h.save (ModuleEntry.storable_iff.mpr proper) with ⟨fault, failed⟩ | ⟨after, saved, held, _⟩
      · exact .inl (by rw [make, failed]; rfl)
      · exact .inr ⟨after, r.insert m, by rw [make, saved]; rfl, held, funext fun name => OrdMap.get?_insert ..⟩
  | remove removed =>
      rcases h.remove removed with ⟨fault, failed⟩ | ⟨_, after, done, held, _⟩
      · exact .inl (by rw [make, failed]; rfl)
      · exact .inr ⟨after, r.remove removed, by rw [make, done]; rfl, held, funext fun name => OrdMap.get?_erase ..⟩
  | clearModules =>
      rcases clearModules_cases s with ⟨fault, failed⟩ | ⟨after, done, held, _⟩
      · exact .inl (by rw [make, failed]; rfl)
      · exact .inr ⟨after, .empty, by rw [make, done]; rfl, held, rfl⟩
  | clear =>
      rcases clear_cases s with ⟨fault, failed⟩ | ⟨after, done, held⟩
      · exact .inl (by rw [make, failed]; rfl)
      · exact .inr ⟨after, .empty, by rw [make, done]; rfl, held, rfl⟩
  | load t =>
      rcases h.load t with ⟨fault, failed⟩ | ⟨_, after, done, _, held, _⟩
      · exact .inl (by rw [make, failed]; rfl)
      · exact .inr ⟨after, currentModules t r, by rw [make, done]; rfl, held, funext fun name => OrdMap.get?_filter ..⟩
  | refuse refusal => exact .inr ⟨_, r, rfl, h.withRefusals _, rfl⟩
  | accept table event => exact .inr ⟨_, r, rfl, h.withRefusals _, rfl⟩

/-- A module that is saved or deleted is the only one that reads differently. -/
theorem HoldsModules.make_other (h : s.HoldsModules r) (proper : call.Proper) {name : String}
    (other : call.effect r.get? name = r.get? name) : (s.make call).2.getModule name = s.getModule name := by
  rcases h.make_cases proper with failed | ⟨after, now, done, held, effect⟩
  · rw [failed]
  · rw [done, held.getModule, h.getModule, effect, other]

/-- Every component has the row of its module beside it. -/
theorem HoldsModules.owned (h : s.HoldsModules r) {c : ComponentRow} (member : c ∈ s.components) :
    ∃ m ∈ s.modules, m.name = some c.moduleName := by
  obtain ⟨m, listed, row⟩ := List.mem_flatMap.mp (h.components.mem_iff.mp member)
  obtain ⟨_, _, rfl⟩ := List.mem_map.mp row
  exact ⟨ModuleRow.ofModule m, h.rows.mem_iff.mpr (List.mem_map_of_mem listed), rfl⟩

namespace Session

variable {x : Session}

/-- The tables hold the modules that have been saved. -/
def Holds (x : Session) : Prop := ∃ r : Registry, x.store.HoldsModules r ∧ r.get? = x.saved

theorem Holds.step (h : x.Holds) (proper : call.Proper) : (x.step call).Holds := by
  obtain ⟨r, held, saved⟩ := h
  unfold Session.step
  rcases held.make_cases proper with failed | ⟨after, now, done, held, effect⟩
  · rw [failed]
    exact ⟨r, held, saved⟩
  · rw [done]
    exact ⟨now, held, effect.trans (by rw [saved]; rfl)⟩

theorem Holds.run (h : x.Holds) {calls : List Call} (proper : ∀ call ∈ calls, call.Proper) : (x.run calls).Holds := by
  induction calls generalizing x with
  | nil => exact h
  | cons call rest ih =>
      exact ih (h.step (proper call List.mem_cons_self)) fun later member => proper later (List.mem_cons_of_mem call member)

theorem Holds.refines (h : x.Holds) : x.Refines := by
  obtain ⟨r, held, saved⟩ := h
  constructor
  case owned => exact fun c member => held.owned member
  case read => exact fun name => by rw [held.getModule, saved]
  case save_other =>
    intro m proper name other
    exact held.make_other proper (if_neg other)
  case remove_other =>
    intro removed name other
    exact held.make_other (show (Call.remove removed).Proper from trivial) (if_neg other)
  case failed =>
    intro call proper failed
    constructor
    · rcases held.make_cases proper with same | ⟨after, now, done, _⟩
      · rw [same]
      · simp [done] at failed
    · by_contra! clear
      refine Bool.eq_false_iff.mp failed (held.make_isOk proper clear.1 ?_)
      rintro asked member refusal listed ⟨table, event⟩
      refine clear.2 refusal listed ?_
      rwa [table, event]
  case nameless => exact fun call proper nameless => make_nameless proper nameless

/-- Whatever calls are made, the tables of modules and components are the map from names to the modules that have been
    saved last. -/
theorem run_refines {s : Store} (no_modules : s.modules = []) (no_components : s.components = []) {calls : List Call}
    (proper : ∀ call ∈ calls, call.Proper) : (run ⟨s, fun _ => none⟩ calls).Refines := by
  have start : Holds ⟨s, fun _ => none⟩ := ⟨.empty, holdsModules_empty no_modules no_components, rfl⟩
  exact (start.run proper).refines

/-! ## A module that is replaced -/

namespace Replaced

def manifest : FileUri := Path.rootDir.child "qmldir"

def entry (name version : String) (manifest : Option FileUri) (components : List Component) : ModuleEntry where
  name
  version
  manifest
  lastModified := some 5
  components := .ofList (components.map fun c => (c.name, c))

def component (name : String) : Component := ⟨name, some manifest, true, false, some "\x00"⟩

/-- The second version of the library has one component less than the first. A third one is turned away for a component
    without a name, and the second version of the other module for its second component, which is refused. The last load
    finds one module stale and one empty. -/
def calls : List Call := [
  .save (entry "Lib" "1" none [component "A", component "B", component "C"]),
  .save (entry "Lib.Sub" "1" none [component "A"]),
  .save (entry "Lib" "2" none [component "B", component "D"]),
  .save (entry "Lib" "3" none [component "D", component "\x00E"]),
  .refuse ⟨.components, .insert, 1⟩,
  .save (entry "Lib.Sub" "2" none [component "X", component "Y"]),
  .accept .components .insert,
  .save (entry "Stale" "1" (some manifest) [component "Z"]),
  .save (entry "Empty" "1" none []),
  .save (entry "Gone" "1" none [component "A"]),
  .remove "Gone",
  .load .empty]

theorem keyedBy_entries {m : OrdMap String Component} (all : ∀ e ∈ m.entries, e.2.name = e.1) :
    m.KeyedBy Component.name :=
  fun _ _ found => all _ (OrdMap.get?_eq_some.mp found)

theorem clean_manifest : manifest.Clean := by
  have plain : Path.IsName "qmldir" := by decide
  exact Path.clean_rootDir.child plain

theorem proper_calls : ∀ call ∈ calls, call.Proper := by
  have modules : ∀ m ∈ calls.filterMap (fun | .save m => some m | _ => none),
      (∀ e ∈ m.components.entries, e.2.name = e.1) ∧ ∀ u ∈ m.uris, u = manifest := by decide
  intro call member
  cases call with
  | save m =>
      obtain ⟨keyed, uris⟩ := modules m (List.mem_filterMap.mpr ⟨_, member, rfl⟩)
      exact ⟨keyedBy_entries keyed, fun u listed => uris u listed ▸ clean_manifest⟩
  | _ => trivial

end Replaced

open Replaced in
theorem run_refines_replaced :
    (run ⟨.empty, fun _ => none⟩ calls).Refines ∧
    (run ⟨.empty, fun _ => none⟩ calls).store.getModule "Lib" =
      .ok (some (entry "Lib" "2" none [component "B", component "D"])) ∧
    (run ⟨.empty, fun _ => none⟩ calls).store.getModule "Lib.Sub" = .ok (some (entry "Lib.Sub" "1" none [component "A"])) ∧
    (run ⟨.empty, fun _ => none⟩ calls).store.getModule "Stale" = .ok none ∧
    (run ⟨.empty, fun _ => none⟩ calls).store.stats = ⟨0, 2, 3⟩ := by
  have refines := run_refines (s := .empty) rfl rfl proper_calls
  refine ⟨refines, ?_, ?_, ?_, by decide⟩
  · exact (refines.read "Lib").trans (congrArg Except.ok (by decide))
  · exact (refines.read "Lib.Sub").trans (congrArg Except.ok (by decide))
  · exact (refines.read "Stale").trans (congrArg Except.ok (by decide))

end Session

end Store

end QmlIndex
