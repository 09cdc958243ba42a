import Mathlib.Algebra.Notation.Pi.Defs
import QmlIndex.Store
import QmlIndex.Proofs.FileTree

/-! # What is refused of a transaction

A refusal lets the first few rows of a transaction pass. What the statements of a transaction write adds up, so that the
transaction is refused as soon as it comes to a row too many, and whether that happens depends only on how many rows it
writes to each table in all.
-/

namespace QmlIndex

namespace Store

namespace Writes

variable (table : Table) (event : Event)

theorem of_zero : of table event 0 = fun _ _ => 0 := by
  funext t e
  exact ite_self 0

theorem of_add (m n : Nat) : of table event m + of table event n = of table event (m + n) := by
  funext t e
  by_cases here : t = table ∧ e = event <;> simp [of, here]

end Writes

variable {s after : Store} {w v : Writes} {table : Table} {event : Event} {rows more : Nat}

/-- Some refusal lets fewer rows pass. -/
def Refuses (s : Store) (w : Writes) : Prop := ∃ r ∈ s.refusals, r.passes < w r.table r.event

instance : Decidable (s.Refuses w) := inferInstanceAs (Decidable (∃ r ∈ s.refusals, _))

theorem refuses_of_iff : s.Refuses (.of table event rows) ↔
    ∃ r ∈ s.refusals, r.table = table ∧ r.event = event ∧ r.passes < rows := by
  refine exists_congr fun r => and_congr_right fun _ => ?_
  by_cases here : r.table = table ∧ r.event = event
  · simp [Writes.of, here]
  · simp only [Writes.of, if_neg here, Nat.not_lt_zero, false_iff]
    exact fun ⟨t, e, _⟩ => here ⟨t, e⟩

theorem not_refuses_zero : ¬ s.Refuses (.of table event 0) := by
  rw [refuses_of_iff]
  rintro ⟨r, _, _, _, less⟩
  exact Nat.not_lt_zero _ less

theorem Refuses.mono (h : s.Refuses (.of table event rows)) (le : rows ≤ more) : s.Refuses (.of table event more) := by
  obtain ⟨r, member, t, e, less⟩ := refuses_of_iff.mp h
  exact refuses_of_iff.mpr ⟨r, member, t, e, Nat.lt_of_lt_of_le less le⟩

/-- Of the rows of a kind one is refused if some of them are too many. -/
theorem refuses_countP_iff {ρ : Type} {p : ρ → Bool} {all : List ρ} : s.Refuses (.of table event (all.countP p)) ↔
    ∃ rows : List ρ, rows.Sublist all ∧ (∀ r ∈ rows, p r = true) ∧ s.Refuses (.of table event rows.length) := by
  constructor
  · intro refused
    rw [List.countP_eq_length_filter] at refused
    exact ⟨_, List.filter_sublist, fun r member => (List.mem_filter.mp member).2, refused⟩
  · rintro ⟨rows, sublist, kind, refused⟩
    rw [← List.countP_eq_length.mpr kind] at refused
    exact refused.mono sublist.countP_le

@[simp] theorem withRefusals_sources (s : Store) (l : List Refusal) : (s.withRefusals l).sources = s.sources := rfl

@[simp] theorem withRefusals_modules (s : Store) (l : List Refusal) : (s.withRefusals l).modules = s.modules := rfl

@[simp] theorem withRefusals_components (s : Store) (l : List Refusal) : (s.withRefusals l).components = s.components :=
  rfl

@[simp] theorem withRefusals_refusals (s : Store) (l : List Refusal) : (s.withRefusals l).refusals = l := rfl

@[simp] theorem spend_sources (s : Store) (w : Writes) : (s.spend w).sources = s.sources := rfl

@[simp] theorem spend_modules (s : Store) (w : Writes) : (s.spend w).modules = s.modules := rfl

@[simp] theorem spend_components (s : Store) (w : Writes) : (s.spend w).components = s.components := rfl

theorem spend_zero (s : Store) (table : Table) (event : Event) : s.spend (.of table event 0) = s := by
  rw [Writes.of_zero, spend]
  exact congrArg s.withRefusals (List.map_id s.refusals)

/-- What two statements write adds up. -/
theorem spend_spend (s : Store) (w v : Writes) : (s.spend w).spend v = s.spend (w + v) := by
  simp only [spend, withRefusals, List.map_map, Function.comp_def, Pi.add_apply, Nat.sub_sub]

/-- Either the first of two statements comes to a row too many, or the second one does after it. -/
theorem refuses_add : s.Refuses (w + v) ↔ s.Refuses w ∨ (s.spend w).Refuses v := by
  have split : ∀ r : Refusal, r.passes < (w + v) r.table r.event ↔
      r.passes < w r.table r.event ∨ r.passes - w r.table r.event < v r.table r.event := by
    intro r
    rw [Pi.add_apply, Pi.add_apply]
    omega
  simp only [Refuses, split, and_or_left, exists_or]
  refine or_congr_right ⟨?_, ?_⟩
  · rintro ⟨r, member, less⟩
    exact ⟨_, List.mem_map_of_mem member, less⟩
  · rintro ⟨_, member, less⟩
    obtain ⟨r, listed, rfl⟩ := List.mem_map.mp member
    exact ⟨r, listed, less⟩

theorem permit_eq (s : Store) (w : Writes) :
    s.permit w = if s.Refuses w then .error (.storage .refused) else .ok (s.spend w) := by
  have struck : (s.refusals.any fun r => r.passes < w r.table r.event) = true ↔ s.Refuses w := by
    simp [Refuses]
  simp only [permit, struck]

theorem permit_eq_ok : s.permit w = .ok after ↔ ¬ s.Refuses w ∧ after = s.spend w := by
  rw [permit_eq]
  split <;> simp_all [eq_comm]

/-- What is written to one table does not matter for another. -/
theorem refuses_spend_of_ne {other : Table} {kind : Event} (apart : (table, event) ≠ (other, kind)) :
    (s.spend (.of other kind more)).Refuses (.of table event rows) ↔ s.Refuses (.of table event rows) := by
  simp only [refuses_of_iff, spend, withRefusals, List.mem_map]
  constructor
  · rintro ⟨_, ⟨r, member, rfl⟩, rfl, rfl, less⟩
    have unspent : Writes.of other kind more r.table r.event = 0 :=
      if_neg fun same => apart (Prod.ext same.1 same.2)
    exact ⟨r, member, rfl, rfl, by simpa only [unspent, Nat.sub_zero] using less⟩
  · rintro ⟨r, member, rfl, rfl, less⟩
    exact ⟨_, ⟨r, member, rfl⟩, rfl, rfl, Nat.lt_of_le_of_lt (Nat.sub_le _ _) less⟩

/-! ## Statements that are never refused -/

/-- No row of the kind is refused. -/
def Grants (s : Store) (table : Table) (event : Event) : Prop := ∀ r ∈ s.refusals, ¬ (r.table = table ∧ r.event = event)

theorem Grants.spend (h : s.Grants table event) (w : Writes) : (s.spend w).Grants table event := by
  intro r member
  obtain ⟨before, listed, rfl⟩ := List.mem_map.mp member
  exact h before listed

theorem Grants.not_refuses (h : s.Grants table event) : ¬ s.Refuses (.of table event rows) := by
  rw [refuses_of_iff]
  rintro ⟨r, member, same, kind, _⟩
  exact h r member ⟨same, kind⟩

/-- Nothing of a table is refused. -/
def Yields (s : Store) (table : Table) : Prop := ∀ event, s.Grants table event

theorem yields_of_refusals (none : s.refusals = []) (table : Table) : s.Yields table := by
  simp [Yields, Grants, none]

theorem Yields.spend (h : s.Yields table) (w : Writes) : (s.spend w).Yields table := fun event => (h event).spend w

/-! ## Transactions -/

/-- A transaction that fails changes nothing. -/
theorem transact_cases {α : Type} (s : Store) (body : Result (α × Store)) :
    (∃ fault, s.transact body = (.error fault, s)) ∨
      ∃ a after, body = .ok (a, after) ∧ s.transact body = (.ok a, after.withRefusals s.refusals) := by
  cases body with
  | error fault => exact .inl ⟨fault, rfl⟩
  | ok done => exact .inr ⟨done.1, done.2, rfl, rfl⟩

theorem run_cases (s : Store) (body : Result Store) :
    (∃ fault, s.run body = (.error fault, s)) ∨
      ∃ after, body = .ok after ∧ s.run body = (.ok (), after.withRefusals s.refusals) := by
  cases body with
  | error fault => exact .inl ⟨fault, rfl⟩
  | ok after => exact .inr ⟨after, rfl, rfl⟩

/-! ## Statements -/

/-- A statement that does not look at its rows goes through unless one of them is refused. -/
theorem permit_bind_eq_ok {f : Store → Store} :
    (s.permit w >>= fun granted => .ok (f granted)) = .ok after ↔ ¬ s.Refuses w ∧ after = f (s.spend w) := by
  simp only [bind_eq_ok, permit_eq_ok]
  constructor
  · rintro ⟨_, ⟨granted, rfl⟩, same⟩
    exact ⟨granted, (Except.ok.inj same).symm⟩
  · rintro ⟨granted, rfl⟩
    exact ⟨_, ⟨granted, rfl⟩, rfl⟩

theorem deleteSources_eq_ok {p : SourceRow → Bool} : s.deleteSources p = .ok after ↔
    ¬ s.Refuses (.of .sources .delete (s.sources.countP p)) ∧
      after = { s.spend (.of .sources .delete (s.sources.countP p)) with sources := s.sources.filter (!p ·) } :=
  permit_bind_eq_ok

theorem deleteModules_eq_ok {p : ModuleRow → Bool} : s.deleteModules p = .ok after ↔
    ¬ s.Refuses (.of .modules .delete (s.modules.countP p)) ∧
      after = { s.spend (.of .modules .delete (s.modules.countP p)) with modules := s.modules.filter (!p ·) } :=
  permit_bind_eq_ok

theorem deleteComponents_eq_ok {p : ComponentRow → Bool} : s.deleteComponents p = .ok after ↔
    ¬ s.Refuses (.of .components .delete (s.components.countP p)) ∧
      after = { s.spend (.of .components .delete (s.components.countP p)) with
        components := s.components.filter (!p ·) } :=
  permit_bind_eq_ok

theorem putSource_eq_ok {row : SourceRow} : s.putSource (.ok row) = .ok after ↔
    ¬ s.Refuses (.of .sources .insert 1) ∧ row.check = .ok () ∧
      after = { s.spend (.of .sources .insert 1) with
        sources := s.sources.filter (fun r => r.path.isNone || r.path != row.path) ++ [row] } := by
  simp only [putSource, bind_eq_ok, permit_eq_ok]
  constructor
  · rintro ⟨_, ⟨granted, rfl⟩, r, same, ⟨⟩, checked, put⟩
    obtain rfl := Except.ok.inj same
    exact ⟨granted, checked, (Except.ok.inj put).symm⟩
  · rintro ⟨granted, checked, rfl⟩
    exact ⟨_, ⟨granted, rfl⟩, row, rfl, (), checked, rfl⟩

theorem putModule_eq_ok {row : ModuleRow} : s.putModule (.ok row) = .ok after ↔
    ¬ s.Refuses (.of .modules .insert 1) ∧ row.check = .ok () ∧
      after = { s.spend (.of .modules .insert 1) with
        modules := s.modules.filter (fun r => r.name.isNone || r.name != row.name) ++ [row] } := by
  simp only [putModule, bind_eq_ok, permit_eq_ok]
  constructor
  · rintro ⟨_, ⟨granted, rfl⟩, r, same, ⟨⟩, checked, put⟩
    obtain rfl := Except.ok.inj same
    exact ⟨granted, checked, (Except.ok.inj put).symm⟩
  · rintro ⟨granted, checked, rfl⟩
    exact ⟨_, ⟨granted, rfl⟩, row, rfl, (), checked, rfl⟩

theorem addComponent_eq_ok {row : ComponentRow} : s.addComponent row = .ok after ↔
    ¬ s.Refuses (.of .components .insert 1) ∧ row.check = .ok () ∧ s.components.any (sameComponent · row) = false ∧
      after = { s.spend (.of .components .insert 1) with components := s.components ++ [row] } := by
  simp only [addComponent, bind_eq_ok, permit_eq_ok]
  constructor
  · rintro ⟨_, ⟨granted, rfl⟩, ⟨⟩, checked, added⟩
    split at added
    · simp at added
    · rename_i unlike
      exact ⟨granted, checked, Bool.eq_false_iff.mpr unlike, (Except.ok.inj added).symm⟩
  · rintro ⟨granted, checked, unlike, rfl⟩
    exact ⟨_, ⟨granted, rfl⟩, (), checked, by rw [spend_components, unlike]; rfl⟩

end Store

end QmlIndex
