import QmlIndex.Proofs.Resolution

/-! # Modules of a workspace among the builtin ones

All modules are listed by their names, and a builtin module gives way to a module that has its name. A name is looked
up among the modules of the workspace first, by its last segments too, and only then among the builtin ones. So every
module of the workspace is found under its own name, but a builtin module is not if a module of the workspace has a
name that ends in its name.
-/

namespace QmlIndex

namespace Registry

variable {r : Registry} {m n : ModuleEntry}

/-! ## The listing -/

theorem builtins_keyed : Builtins.registry.modules.KeyedBy ModuleEntry.name := by
  obtain ⟨operations, same⟩ := builtins_run
  rw [← same]
  exact run_keyed operations

theorem builtins_named : ∀ m ∈ Builtins.registry.toList, m.name ≠ "" := by decide

theorem withBuiltins_keyed (own : r.modules.KeyedBy ModuleEntry.name) :
    (Builtins.registry.modules.insertAll r.modules.entries).KeyedBy ModuleEntry.name :=
  builtins_keyed.insertAll_entries own

theorem withBuiltins_sorted (own : r.modules.KeyedBy ModuleEntry.name) :
    r.withBuiltins.Pairwise fun m n => m.name < n.name := by
  have names := (withBuiltins_keyed own).map_values
  rw [← List.pairwise_map (R := fun a b : String => a < b), withBuiltins, names, OrdMap.keys, List.pairwise_map]
  refine (OrdMap.sorted _).imp fun before => ?_
  exact compareOfLessAndEq_eq_lt.mp before

/-- A builtin module that no module of the workspace has the name of. -/
def Unreplaced (r : Registry) (m : ModuleEntry) : Prop :=
  m ∈ Builtins.registry.toList ∧ ∀ n ∈ r.toList, n.name ≠ m.name

theorem get?_eq_none_iff (own : r.modules.KeyedBy ModuleEntry.name) {name : String} :
    r.get? name = none ↔ ∀ n ∈ r.toList, n.name ≠ name := by
  constructor
  · exact fun absent n member => ne_of_absent own absent member
  · intro other
    cases found : r.get? name with
    | none => rfl
    | some n =>
        have same := own name n found
        have found : r.get? n.name = some n := by rwa [same]
        exact absurd same (other n ((mem_toList own).mpr found))

theorem mem_withBuiltins (own : r.modules.KeyedBy ModuleEntry.name) :
    m ∈ r.withBuiltins ↔ m ∈ r.toList ∨ r.Unreplaced m := by
  rw [withBuiltins, (withBuiltins_keyed own).mem_values, OrdMap.get?_insertAll_entries, Option.or_eq_some_iff,
    Unreplaced, mem_toList own, mem_toList builtins_keyed, ← get?_eq_none_iff own]
  exact or_congr_right and_comm

/-! ## What a listed name leads to -/

theorem lookup?_of_resident (own : r.modules.KeyedBy ModuleEntry.name) (named : m.name ≠ "") (member : m ∈ r.toList) :
    r.lookup? m.name = some m :=
  lookup?_eq_some.mpr (.inl (resolve?_of_get? named ((mem_toList own).mp member)))

theorem lookup?_of_meant (own : r.modules.KeyedBy ModuleEntry.name) (builtin : r.Unreplaced m)
    (meant : r.Meant m.name n) : r.lookup? m.name = some n := by
  have absent := (get?_eq_none_iff own).mpr builtin.2
  exact lookup?_eq_some.mpr (.inl ((resolve?_eq_some own (builtins_named m builtin.1) absent).mpr meant))

/-- A builtin module is found under its name if and only if that is not the end of another name. -/
theorem lookup?_of_unreplaced (own : r.modules.KeyedBy ModuleEntry.name) (builtin : r.Unreplaced m) :
    r.lookup? m.name = some m ↔ ∀ n ∈ r.toList, ¬EndsIn n.name m.name := by
  obtain ⟨member, other⟩ := builtin
  have named := builtins_named m member
  have absent := (get?_eq_none_iff own).mpr other
  have found : Builtins.registry.resolve? m.name = some m :=
    resolve?_of_get? named ((mem_toList builtins_keyed).mp member)
  rw [← resolve?_eq_none own named absent, lookup?_eq_some]
  constructor
  · rintro (here | ⟨nowhere, _⟩)
    · -- What a workspace module is meant by is its own name or another one's end.
      have resident := ((resolve?_eq_some own named absent).mp here).resident
      exact absurd rfl (other m resident)
    · exact nowhere
  · exact fun nowhere => .inr ⟨nowhere, found⟩

/-! ## What the listing promises -/

/-- The modules are listed in order of their names: those of the workspace, and the builtin ones that none of them has
    the name of. The name of a listed module leads to that module if and only if it is not empty and the module is one
    of the workspace or no name of a module of the workspace ends in it; else it leads from a builtin module to the one
    of the workspace that is meant. -/
theorem listing_resolves (operations : List Operation) :
    ((run operations).withBuiltins.Pairwise fun m n => m.name < n.name) ∧
      (∀ m, m ∈ (run operations).withBuiltins ↔ m ∈ (run operations).toList ∨
        m ∈ Builtins.registry.toList ∧ ∀ n ∈ (run operations).toList, n.name ≠ m.name) ∧
      (∀ m ∈ (run operations).withBuiltins, (run operations).lookup? m.name = some m ↔
        m.name ≠ "" ∧ (m ∈ (run operations).toList ∨ ∀ n ∈ (run operations).toList, ¬EndsIn n.name m.name)) ∧
      ∀ m n, (run operations).Unreplaced m → (run operations).Meant m.name n →
        (run operations).lookup? m.name = some n := by
  have own := run_keyed operations
  refine ⟨withBuiltins_sorted own, fun m => mem_withBuiltins own, fun m listed => ?_, fun m n => lookup?_of_meant own⟩
  rcases (mem_withBuiltins own).mp listed with resident | builtin
  · constructor
    · intro found
      refine ⟨fun nameless => ?_, .inl resident⟩
      rw [nameless] at found
      cases found
    · exact fun ⟨named, _⟩ => lookup?_of_resident own named resident
  · have foreign : m ∉ (run operations).toList := fun resident => builtin.2 m resident rfl
    rw [lookup?_of_unreplaced own builtin, or_iff_right foreign]
    exact (and_iff_right (builtins_named m builtin.1)).symm

/-- A module that takes the name of a builtin one, and one whose name ends in the name of another. -/
def overlapping : List Operation := ["QtQml", "Foo.QtQuick"].map fun name => .insert (gauges name)

theorem unreplaced_overlapping : ∃ m, (run overlapping).Unreplaced m ∧ m.name = "QtQuick" := by
  have builtin : ∃ m ∈ Builtins.registry.toList, m.name = "QtQuick" := by decide
  have free : ∀ n ∈ (run overlapping).toList, n.name ≠ "QtQuick" := by decide
  obtain ⟨m, member, named⟩ := builtin
  exact ⟨m, ⟨member, named ▸ free⟩, named⟩

theorem meant_overlapping : (run overlapping).Meant "QtQuick" (gauges "Foo.QtQuick") := by
  rw [← resolve?_eq_some (run_keyed overlapping) (by decide) (by decide)]
  decide

theorem listing_resolves_overlapping :
    gauges "QtQml" ∈ (run overlapping).withBuiltins ∧ (run overlapping).lookup? "QtQml" = some (gauges "QtQml") ∧
      ∃ m ∈ (run overlapping).withBuiltins, m.name = "QtQuick" ∧
        (run overlapping).lookup? m.name = some (gauges "Foo.QtQuick") := by
  obtain ⟨_, mem, found, instead⟩ := listing_resolves overlapping
  have replaced : gauges "QtQml" ∈ (run overlapping).toList := by decide
  have listed := (mem (gauges "QtQml")).mpr (.inl replaced)
  refine ⟨listed, (found _ listed).mpr ⟨by decide, .inl replaced⟩, ?_⟩
  obtain ⟨m, builtin, named⟩ := unreplaced_overlapping
  exact ⟨m, (mem m).mpr (.inr builtin), named, instead m _ builtin (named ▸ meant_overlapping)⟩

/-- A builtin module is listed, but its name leads to another module, which has a longer name. -/
theorem listed_but_not_found :
    ¬∀ operations : List Operation,
      ((run operations).withBuiltins.Pairwise fun m n => m.name < n.name) ∧
        (∀ m, (m ∈ (run operations).toList ∨
          m ∈ Builtins.registry.toList ∧ ∀ n ∈ (run operations).toList, n.name ≠ m.name) →
            m ∈ (run operations).withBuiltins) ∧
        ∀ m ∈ (run operations).withBuiltins, (run operations).lookup? m.name = some m := by
  intro claimed
  obtain ⟨_, listed, found⟩ := claimed overlapping
  obtain ⟨m, builtin, named⟩ := unreplaced_overlapping
  have other := lookup?_of_meant (run_keyed overlapping) builtin (named ▸ meant_overlapping)
  rw [found m (listed m (.inr builtin))] at other
  rw [Option.some.inj other] at named
  exact absurd named (by decide)

end Registry

end QmlIndex
