import QmlIndex.Registry
import QmlIndex.Proofs.Store.Sources

/-! # The tables of modules and components

The two tables hold a registry if their rows are those of its modules and of the components of its modules, in
any order. Every operation on the tables either fails and changes nothing, or does to the registry what its name
says.
-/

namespace QmlIndex

/-- The rows of the components of a module. -/
def ModuleEntry.componentRows (m : ModuleEntry) : List ComponentRow :=
  m.components.values.map (ComponentRow.ofComponent m.name)

theorem filter_componentRows (l : List ModuleEntry) (q : String → Bool) :
    (l.flatMap ModuleEntry.componentRows).filter (fun c => q c.moduleName) =
      (l.filter fun m => q m.name).flatMap ModuleEntry.componentRows := by
  induction l with
  | nil => rfl
  | cons m rest ih =>
      rw [List.flatMap_cons, List.filter_append, ih, List.filter_cons]
      have uniform : m.componentRows.filter (fun c => q c.moduleName) = if q m.name then m.componentRows else [] := by
        split
        · rename_i wanted
          rw [List.filter_eq_self]
          intro c member
          obtain ⟨_, _, rfl⟩ := List.mem_map.mp member
          exact wanted
        · rename_i unwanted
          rw [List.filter_eq_nil_iff]
          intro c member
          obtain ⟨_, _, rfl⟩ := List.mem_map.mp member
          exact unwanted
      rw [uniform]
      cases q m.name <;> simp

theorem not_beq_eq_decide (a b : String) : (!(a == b)) = decide (a ≠ b) := by
  rw [Bool.eq_iff_iff]
  simp

theorem mapM_map_ok {α β γ ε : Type} {f : β → Except ε γ} {g : α → β} {h : α → γ} {l : List α}
    (all : ∀ a ∈ l, f (g a) = .ok (h a)) : (l.map g).mapM f = .ok (l.map h) := by
  induction l with
  | nil => rfl
  | cons a rest ih =>
      rw [List.map_cons, List.mapM_cons, all a List.mem_cons_self,
        ih fun b member => all b (List.mem_cons_of_mem a member)]
      rfl

theorem eq_of_mapM_map {α β γ ε : Type} {f : β → Except ε γ} {g : α → β} {l : List α} {result : List γ}
    (done : (l.map g).mapM f = .ok result) {h : α → γ} (all : ∀ a ∈ l, f (g a) = .ok (h a)) : result = l.map h :=
  Except.ok.inj (done.symm.trans (mapM_map_ok all))

namespace Registry

variable {r : Registry}

theorem toList_remove (own : r.modules.KeyedBy ModuleEntry.name) (name : String) :
    (r.remove name).toList = r.toList.filter fun m => m.name ≠ name :=
  own.values_erase name

theorem toList_insert (own : r.modules.KeyedBy ModuleEntry.name) (m : ModuleEntry) :
    (r.insert m).toList.Perm (r.toList.filter (fun n => n.name ≠ m.name) ++ [m]) :=
  own.values_insert m

theorem mem_toList (own : r.modules.KeyedBy ModuleEntry.name) {m : ModuleEntry} :
    m ∈ r.toList ↔ r.get? m.name = some m :=
  own.mem_values

@[simp] theorem toList_empty : empty.toList = [] := rfl

theorem foldl_insert (modules : List ModuleEntry) :
    (modules.foldl insert r).modules = r.modules.insertAll (modules.map fun m => (m.name, m)) := by
  induction modules generalizing r with
  | nil => rfl
  | cons m rest ih => exact ih

/-- The modules of a registry, in any order, make it again. -/
theorem foldl_insert_perm (own : r.modules.KeyedBy ModuleEntry.name) {modules : List ModuleEntry}
    (listed : modules.Perm r.toList) : modules.foldl insert empty = r :=
  congrArg Registry.mk ((foldl_insert modules).trans (own.ofList_perm listed))

end Registry

namespace Store

/-- The source files and what is refused are as they were. -/
structure KeepsSources (s after : Store) : Prop where
  sources : after.sources = s.sources
  refusals : after.refusals = s.refusals

theorem KeepsSources.refl (s : Store) : s.KeepsSources s := ⟨rfl, rfl⟩

theorem KeepsSources.trans {s middle after : Store} (first : s.KeepsSources middle) (second : middle.KeepsSources after) :
    s.KeepsSources after where
  sources := second.sources.trans first.sources
  refusals := second.refusals.trans first.refusals

/-- The rows are those of the modules of a registry and of their components. -/
structure HoldsModules (s : Store) (r : Registry) : Prop where
  rows : s.modules.Perm (r.toList.map ModuleRow.ofModule)
  components : s.components.Perm (r.toList.flatMap ModuleEntry.componentRows)
  own : r.modules.KeyedBy ModuleEntry.name
  storable : ∀ m ∈ r.toList, m.Storable

variable {s after : Store} {r : Registry}

theorem HoldsModules.congr (h : s.HoldsModules r) (kept : s.KeepsModules after) : after.HoldsModules r :=
  ⟨kept.modules ▸ h.rows, kept.components ▸ h.components, h.own, h.storable⟩

theorem HoldsModules.withRefusals (h : s.HoldsModules r) (l : List Refusal) : (s.withRefusals l).HoldsModules r :=
  ⟨h.rows, h.components, h.own, h.storable⟩

theorem holdsModules_empty (no_modules : s.modules = []) (no_components : s.components = []) : s.HoldsModules .empty where
  rows := by simp [no_modules]
  components := by simp [no_components]
  own := OrdMap.keyedBy_empty
  storable := by simp

/-! ## Statements -/

/-- Rows are added if none of them is refused, and none is of a component that has a row already. -/
theorem addComponents_eq_ok {rows : List ComponentRow} : rows.foldlM addComponent s = .ok after ↔
    ¬ s.Refuses (.of .components .insert rows.length) ∧
      (∀ row ∈ rows, row.check = .ok () ∧ s.components.any (sameComponent · row) = false) ∧
      rows.Pairwise (fun a b => sameComponent a b = false) ∧
      after = { s.spend (.of .components .insert rows.length) with components := s.components ++ rows } := by
  induction rows generalizing s with
  | nil =>
      simp only [List.foldlM_nil, List.length_nil, spend_zero, pure, Except.pure, Except.ok.injEq, List.append_nil,
        @eq_comm _ s]
      simp [not_refuses_zero]
  | cons row rest ih =>
      have total : Writes.of .components .insert (row :: rest).length =
          Writes.of .components .insert 1 + Writes.of .components .insert rest.length := by
        rw [Writes.of_add, List.length_cons, Nat.add_comm]
      rw [List.foldlM_cons, bind_eq_ok, total, refuses_add, not_or, ← spend_spend, List.forall_mem_cons,
        List.pairwise_cons, List.append_cons]
      constructor
      · rintro ⟨_, first, later⟩
        obtain ⟨granted, checked, unlike, rfl⟩ := addComponent_eq_ok.mp first
        obtain ⟨granted_rest, others, apart, same⟩ := ih.mp later
        have later : ∀ r ∈ rest, s.components.any (sameComponent · r) = false ∧ sameComponent row r = false := by
          intro r member
          simpa [List.any_append] using (others r member).2
        exact ⟨⟨granted, granted_rest⟩, ⟨⟨checked, unlike⟩, fun r member => ⟨(others r member).1, (later r member).1⟩⟩,
          ⟨fun r member => (later r member).2, apart⟩, same⟩
      · rintro ⟨⟨granted, granted_rest⟩, ⟨⟨checked, unlike⟩, others⟩, ⟨first, apart⟩, same⟩
        refine ⟨_, addComponent_eq_ok.mpr ⟨granted, checked, unlike, rfl⟩,
          ih.mpr ⟨granted_rest, fun r member => ?_, apart, same⟩⟩
        obtain ⟨checked_later, unlike_later⟩ := others r member
        exact ⟨checked_later, by simp [List.any_append, unlike_later, first r member]⟩

/-! ## Writing and deleting -/

/-- The rows of a module and of its components take the place of those that have its name. -/
theorem saveModule_cases (s : Store) (m : ModuleEntry) : (∃ fault, s.saveModule m = (.error fault, s)) ∨
    s.saveModule m = (.ok (), { s with
      modules := s.modules.filter (fun row => row.name.isNone || row.name != (ModuleRow.ofModule m).name) ++
        [ModuleRow.ofModule m]
      components := s.components.filter (fun row => !row.moduleName == m.name) ++ m.componentRows }) := by
  rcases run_cases s _ with failed | ⟨after, body, same⟩
  · exact .inl failed
  · obtain ⟨_, put, body⟩ := bind_eq_ok.mp body
    obtain ⟨_, deleted, added⟩ := bind_eq_ok.mp body
    obtain ⟨_, _, rfl⟩ := putModule_eq_ok.mp put
    obtain ⟨_, rfl⟩ := deleteComponents_eq_ok.mp deleted
    rw [← List.foldlM_map] at added
    obtain ⟨_, _, _, rfl⟩ := addComponents_eq_ok.mp added
    exact .inr same

/-- Writing a module puts it in place of the module of its name. -/
theorem HoldsModules.save (h : s.HoldsModules r) {m : ModuleEntry} (storable : m.Storable) :
    (∃ fault, s.saveModule m = (.error fault, s)) ∨
      ∃ after, s.saveModule m = (.ok (), after) ∧ after.HoldsModules (r.insert m) ∧ s.KeepsSources after := by
  rcases saveModule_cases s m with failed | saved
  · exact .inl failed
  · refine .inr ⟨_, saved, ?_⟩
    have listed := Registry.toList_insert h.own m
    refine ⟨⟨?_, ?_, h.own.insert m, ?_⟩, ⟨rfl, rfl⟩⟩
    · have others : (r.toList.map ModuleRow.ofModule).filter
          (fun row => row.name.isNone || row.name != (ModuleRow.ofModule m).name) =
          (r.toList.filter fun n => n.name ≠ m.name).map ModuleRow.ofModule := by
        rw [List.filter_map]
        congr 1
        apply List.filter_congr
        intro n _
        rw [Bool.eq_iff_iff]
        simp [ModuleRow.ofModule]
      refine ((h.rows.filter _).append_right _).trans ?_
      rw [others, ← List.map_singleton, ← List.map_append]
      exact (listed.map _).symm
    · refine ((h.components.filter _).append_right _).trans ?_
      rw [filter_componentRows r.toList fun name => !(name == m.name)]
      refine .trans (.of_eq ?_) (listed.flatMap_right _).symm
      rw [List.flatMap_append, List.flatMap_singleton]
      congr 2
      exact List.filter_congr fun n _ => not_beq_eq_decide n.name m.name
    · intro n member
      rcases OrdMap.mem_values_insert member with rfl | before
      · exact storable
      · exact h.storable n before

theorem HoldsModules.drop (h : s.HoldsModules r) {name : String} (done : s.dropModule name = .ok after) :
    after.HoldsModules (r.remove name) ∧ after.sources = s.sources := by
  obtain ⟨middle, components, modules⟩ := bind_eq_ok.mp done
  obtain ⟨_, rfl⟩ := deleteComponents_eq_ok.mp components
  obtain ⟨_, rfl⟩ := deleteModules_eq_ok.mp modules
  have listed := Registry.toList_remove h.own name
  have others : ∀ n ∈ r.toList, (!(n.name == name)) = decide (n.name ≠ name) :=
    fun n _ => not_beq_eq_decide n.name name
  refine ⟨⟨?_, ?_, h.own.erase name, ?_⟩, rfl⟩
  · refine (h.rows.filter _).trans (.of_eq ?_)
    rw [List.filter_map, listed]
    congr 1
    exact List.filter_congr others
  · refine (h.components.filter _).trans (.of_eq ?_)
    rw [filter_componentRows r.toList fun n => !(n == name), listed]
    congr 1
    exact List.filter_congr others
  · intro m member
    rw [listed, List.mem_filter] at member
    exact h.storable m member.1

/-- Deleting a name removes its module. -/
theorem HoldsModules.remove (h : s.HoldsModules r) (name : String) :
    (∃ fault, s.removeModule name = (.error fault, s)) ∨
      ∃ found after, s.removeModule name = (.ok found, after) ∧ after.HoldsModules (r.remove name) ∧
        s.KeepsSources after := by
  rcases transact_cases s _ with failed | ⟨found, after, body, same⟩
  · exact .inl failed
  · obtain ⟨dropped, done, result⟩ := bind_eq_ok.mp body
    obtain ⟨rfl, rfl⟩ := Prod.mk.inj (Except.ok.inj result)
    obtain ⟨held, kept⟩ := h.drop done
    exact .inr ⟨_, _, same, held.withRefusals _, kept, rfl⟩

theorem clearModules_cases (s : Store) :
    (∃ fault, s.clearModules = (.error fault, s)) ∨
      ∃ after, s.clearModules = (.ok (), after) ∧ after.HoldsModules .empty ∧ s.KeepsSources after := by
  rcases run_cases s _ with failed | ⟨after, body, same⟩
  · exact .inl failed
  · refine .inr ⟨_, same, ?_⟩
    obtain ⟨middle, components, modules⟩ := bind_eq_ok.mp body
    obtain ⟨_, rfl⟩ := deleteComponents_eq_ok.mp components
    obtain ⟨_, rfl⟩ := deleteModules_eq_ok.mp modules
    exact ⟨holdsModules_empty (by simp) (by simp), ⟨rfl, rfl⟩⟩

/-! ## Reading back -/

theorem HoldsModules.order (h : s.HoldsModules r) :
    ∃ order : List ModuleEntry, order.Perm r.toList ∧ s.modules = order.map ModuleRow.ofModule :=
  exists_perm_of_perm_map h.rows

theorem HoldsModules.getModuleOfRow (h : s.HoldsModules r) {m : ModuleEntry} (listed : m ∈ r.toList) :
    s.getModuleOfRow { m with components := .empty } = .ok m := by
  have storable := h.storable m listed
  have alone : (r.toList.filter fun n => n.name == m.name).Perm [m] := by
    refine (List.perm_ext_iff_of_nodup (h.own.nodup_values.filter _) (by simp)).mpr fun n => ?_
    rw [List.mem_filter, List.mem_singleton, beq_iff_eq]
    constructor
    · rintro ⟨other, same⟩
      exact h.own.inj other listed same
    · rintro rfl
      exact ⟨listed, rfl⟩
  have rows : (s.componentRows m.name).Perm (m.components.values.map (ComponentRow.ofComponent m.name)) := by
    refine (h.components.filter _).trans ?_
    rw [filter_componentRows r.toList fun n => n == m.name]
    refine (alone.flatMap_right _).trans (.of_eq ?_)
    rw [List.flatMap_singleton]
    rfl
  -- The rows of the components, read in the order of the table, make the map of the components again.
  obtain ⟨order, perm, same⟩ := exists_perm_of_perm_map rows
  have decoded : (s.componentRows m.name).mapM (fun row => Store.decoded row.decode) = .ok (order.map id) := by
    rw [same]
    apply mapM_map_ok
    intro c member
    rw [ComponentRow.decode_ofComponent (storable.file c (perm.mem_iff.mp member))]
    rfl
  have components : s.getComponents m.name = .ok m.components := by
    rw [getComponents, decoded, List.map_id, ← storable.own.ofList_perm perm]
    rfl
  simp only [Store.getModuleOfRow, components]
  rfl

/-- The tables decode to the modules of the registry. -/
theorem HoldsModules.getModule (h : s.HoldsModules r) (name : String) : s.getModule name = .ok (r.get? name) := by
  obtain ⟨order, perm, rows⟩ := h.order
  have row : s.moduleRow? name = (r.get? name).map ModuleRow.ofModule := by
    rw [moduleRow?, rows, List.find?_map]
    congr 1
    refine .trans ?_ (h.own.find?_perm perm name)
    congr 1
  rw [Store.getModule, row]
  cases here : r.get? name with
  | none => rfl
  | some m =>
      have listed : m ∈ r.toList := OrdMap.mem_values.mpr ⟨name, here⟩
      simp only [Option.map_some, ModuleRow.decode_ofModule (h.storable m listed)]
      exact bind_eq_ok.mpr ⟨_, rfl, bind_eq_ok.mpr ⟨m, h.getModuleOfRow listed, rfl⟩⟩

/-- Whether reading back keeps a module. -/
def keepsModule (t : FileTree) (m : ModuleEntry) : Bool := isCurrentModule t m && !m.components.isEmpty

/-- The modules that have components and whose manifests are as the modules say. -/
def currentModules (t : FileTree) (r : Registry) : Registry := ⟨r.modules.filter fun _ m => keepsModule t m⟩

theorem mem_currentModules {t : FileTree} (own : r.modules.KeyedBy ModuleEntry.name) {m : ModuleEntry} :
    m ∈ (currentModules t r).toList ↔ m ∈ r.toList ∧ keepsModule t m = true := by
  rw [Registry.toList, currentModules, own.values_filter, List.mem_filter]
  rfl

theorem HoldsModules.currentModule? (h : s.HoldsModules r) {m : ModuleEntry} (listed : m ∈ r.toList) (t : FileTree) :
    s.currentModule? t (ModuleRow.ofModule m) = .ok (if keepsModule t m then some m else none) := by
  rw [Store.currentModule?, ModuleRow.decode_ofModule (h.storable m listed)]
  have same : isCurrentModule t { m with components := .empty } = isCurrentModule t m := rfl
  have kept : keepsModule t m = (isCurrentModule t m && !m.components.isEmpty) := rfl
  simp only [same]
  by_cases current : isCurrentModule t m = true
  · rw [if_pos current, h.getModuleOfRow listed, kept, current]
    change Except.ok (if m.components.isEmpty = true then none else some m) = _
    cases m.components.isEmpty <;> rfl
  · rw [if_neg current, kept]
    simp [current]

theorem HoldsModules.drops (h : s.HoldsModules r) {names : List String} (done : names.foldlM dropModule s = .ok after) :
    after.HoldsModules ⟨r.modules.filter fun name _ => name ∉ names⟩ ∧ after.sources = s.sources := by
  induction names generalizing s r with
  | nil =>
      obtain rfl : s = after := Except.ok.inj done
      have whole : (r.modules.filter fun name _ => decide (name ∉ [])) = r.modules := by
        apply OrdMap.ext_get?
        intro name
        rw [OrdMap.get?_filter]
        cases r.modules.get? name <;> simp
      rw [whole]
      exact ⟨h, rfl⟩
  | cons name rest ih =>
      rw [List.foldlM_cons, bind_eq_ok] at done
      obtain ⟨middle, first, later⟩ := done
      obtain ⟨one, kept⟩ := h.drop first
      obtain ⟨all, kept_rest⟩ := ih one later
      refine ⟨?_, kept_rest.trans kept⟩
      have twice : ((r.modules.erase name).filter fun n _ => decide (n ∉ rest)) =
          r.modules.filter fun n _ => decide (n ∉ name :: rest) := by
        apply OrdMap.ext_get?
        intro n
        rw [OrdMap.get?_filter, OrdMap.get?_erase, OrdMap.get?_filter]
        by_cases here : n = name
        · cases r.modules.get? n <;> simp [here, Option.filter]
        · simp [here]
      exact twice ▸ all

/-- Reading back gives the modules that are still true, and leaves the rows of those. -/
theorem HoldsModules.load (h : s.HoldsModules r) (t : FileTree) :
    (∃ fault, s.loadModules t = (.error fault, s)) ∨
      ∃ modules after, s.loadModules t = (.ok modules, after) ∧ modules.Perm (currentModules t r).toList ∧
        after.HoldsModules (currentModules t r) ∧ s.KeepsSources after := by
  obtain ⟨order, perm, rows⟩ := h.order
  rcases transact_cases s _ with failed | ⟨modules, after, body, same⟩
  · exact .inl failed
  · refine .inr ⟨modules, _, same, ?_⟩
    obtain ⟨_, named, body⟩ := bind_eq_ok.mp body
    rw [rows] at named
    obtain rfl := eq_of_mapM_map named (h := fun m => (m.name, ModuleRow.ofModule m)) fun _ _ => rfl
    obtain ⟨_, found, body⟩ := bind_eq_ok.mp body
    obtain rfl := eq_of_mapM_map found (h := fun m => (m.name, if keepsModule t m then some m else none))
      fun m member => bind_eq_ok.mpr ⟨_, h.currentModule? (perm.mem_iff.mp member) t, rfl⟩
    obtain ⟨dropped, done, result⟩ := bind_eq_ok.mp body
    obtain ⟨rfl, rfl⟩ := Prod.mk.inj (Except.ok.inj result)
    constructor
    · rw [List.filterMap_map]
      refine .trans (.of_eq (filterMap_eq_filter_of (p := keepsModule t) fun _ _ => rfl)) ((perm.filter _).trans ?_)
      exact .of_eq (h.own.values_filter fun _ m => keepsModule t m).symm
    · obtain ⟨held, kept⟩ := h.drops done
      refine ⟨HoldsModules.withRefusals ?_ _, kept, rfl⟩
      generalize names : stale _ = gone at held
      -- The names of stale modules are those of the modules that are not kept.
      have mem_gone : ∀ m ∈ r.toList, m.name ∈ gone ↔ keepsModule t m = false := by
        intro m listed
        rw [← names, stale, List.mem_filterMap]
        constructor
        · rintro ⟨⟨_, _⟩, found, left_out⟩
          obtain ⟨n, member, same⟩ := List.mem_map.mp found
          obtain ⟨rfl, rfl⟩ := Prod.mk.inj same
          cases keeps : keepsModule t n with
          | true => simp [keeps] at left_out
          | false =>
              have same_name : n.name = m.name := by simpa [keeps] using left_out
              rw [← h.own.inj (perm.mem_iff.mp member) listed same_name]
              exact keeps
        · intro unkept
          exact ⟨(m.name, none), List.mem_map.mpr ⟨m, perm.mem_iff.mpr listed, by simp [unkept]⟩, by simp⟩
      have same : (r.modules.filter fun name _ => decide (name ∉ gone)) =
          r.modules.filter fun _ m => keepsModule t m := by
        apply OrdMap.ext_get?
        intro name
        rw [OrdMap.get?_filter, OrdMap.get?_filter]
        cases here : r.modules.get? name with
        | none => rfl
        | some m =>
            obtain rfl := h.own name m here
            have iff := mem_gone m (OrdMap.mem_values.mpr ⟨_, here⟩)
            cases keeps : keepsModule t m <;> simp [Option.filter, iff, keeps]
      rw [same] at held
      exact held

end Store

end QmlIndex
