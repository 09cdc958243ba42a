import QmlIndex.Proofs.Graph.Transpose

/-! # What invalidation removes

Invalidation works down a stack and reads lists of dependents that its own removals keep changing. It
nevertheless removes exactly the live entries from which a chain of dependences through live entries leads
to the path it started with: an entry is taken off those lists only when it is removed itself, so a chain
that a removal breaks has its nearer part pushed on the stack.
-/

namespace QmlIndex.Graph

/-- A chain of dependences through live entries, which are the entries of `g`, leads to `target`. -/
inductive Reaches (g : Graph) (target : FileUri) : FileUri → Prop where
  /-- A live path reaches itself. -/
  | here (live : g.contains target = true) : Reaches g target target
  /-- The chain starts with a direct dependence. -/
  | step {source next : FileUri} (edge : g.DependsOn source next) (rest : Reaches g target next) :
      Reaches g target source

theorem contains_eq (g : Graph) (u : FileUri) : g.contains u = (g.get? u).isSome := rfl

theorem contains_iff {g : Graph} {u : FileUri} : g.contains u = true ↔ ∃ e, g.get? u = some e :=
  Option.isSome_iff_exists

theorem contains_insert {g : Graph} (t : g.Transposed) (e : SourceEntry) (u : FileUri) :
    (g.insert e).contains u = true ↔ u = e.uri ∨ g.contains u = true := by
  have forward : ∀ h : Graph, h.contains u = (h.forward? u).isSome := by simp [contains_eq, forward?]
  rw [forward, forward, forward?_insert t]
  by_cases here : u = e.uri <;> simp [here]

theorem Reaches.live {g : Graph} {target u : FileUri} (h : g.Reaches target u) : g.contains u = true := by
  cases h with
  | here live => exact live
  | step edge rest =>
      obtain ⟨e, live, _⟩ := edge
      exact contains_iff.mpr ⟨e, live⟩

theorem Reaches.target_live {g : Graph} {target u : FileUri} (h : g.Reaches target u) :
    g.contains target = true := by
  induction h with
  | here live => exact live
  | step _ _ ih => exact ih

theorem Reaches.trans {g : Graph} {target middle u : FileUri} (first : g.Reaches middle u)
    (second : g.Reaches target middle) : g.Reaches target u := by
  induction first with
  | here _ => exact second
  | step edge _ ih => exact .step edge ih

section Removal

variable {g : Graph} (t : g.Transposed)
include t

theorem contains_remove (v u : FileUri) : (g.remove v).contains u = true ↔ u ≠ v ∧ g.contains u = true := by
  rw [contains_eq, contains_eq, get?_remove t]
  by_cases same : u = v <;> simp [same]

theorem Reaches.of_remove {v target u : FileUri} (h : (g.remove v).Reaches target u) :
    u ≠ v ∧ g.Reaches target u := by
  induction h with
  | here live =>
      obtain ⟨other, live⟩ := (contains_remove t v _).mp live
      exact ⟨other, .here live⟩
  | step edge rest ih =>
      obtain ⟨other, edge⟩ := (dependsOn_remove t v _ _).mp edge
      exact ⟨other, .step edge ih.2⟩

/-- A chain from another entry survives the removal, or its part before the removed entry does. -/
theorem Reaches.remove {v target u : FileUri} (h : g.Reaches target u) (other : u ≠ v) :
    (g.remove v).Reaches target u ∨
      ∃ w, w ≠ v ∧ g.DependsOn w v ∧ (g.remove v).Reaches w u := by
  induction h with
  | here live => exact .inl (.here ((contains_remove t v _).mpr ⟨other, live⟩))
  | @step source next edge rest ih =>
      have kept : (g.remove v).DependsOn source next := (dependsOn_remove t v _ _).mpr ⟨other, edge⟩
      by_cases broken : next = v
      · have live := (Reaches.step edge rest).live
        exact .inr ⟨source, other, broken ▸ edge, .here ((contains_remove t v _).mpr ⟨other, live⟩)⟩
      · rcases ih broken with whole | ⟨w, different, into, part⟩
        · exact .inl (.step kept whole)
        · exact .inr ⟨w, different, into, .step kept part⟩

end Removal

/-- `after` and `removed` are what removing everything that reaches one of the roots leaves and removes,
    each entry after one that it depends on. -/
structure Cleared (g : Graph) (roots : List FileUri) (after : Graph) (removed : List FileUri) : Prop where
  transposed : after.Transposed
  forward : ∀ u, after.forward? u = if u ∈ removed then none else g.forward? u
  nodup : removed.Nodup
  mem_removed : ∀ v, v ∈ removed ↔ ∃ root ∈ roots, g.Reaches root v
  caused : ∀ before v rest, removed = before ++ v :: rest → v ∈ roots ∨ ∃ w ∈ before, g.DependsOn v w

namespace Cleared

variable {g after : Graph} {roots removed : List FileUri}

theorem nil (t : g.Transposed) : g.Cleared [] g [] where
  transposed := t
  forward := by simp
  nodup := List.nodup_nil
  mem_removed := by simp
  caused := by
    intro before v rest split
    simp at split

/-- A root that is not live adds nothing. -/
theorem skip {u : FileUri} (gone : g.get? u = none) (h : g.Cleared roots after removed) :
    g.Cleared (u :: roots) after removed where
  transposed := h.transposed
  forward := h.forward
  nodup := h.nodup
  mem_removed := by
    intro v
    have unreached : ¬ g.Reaches u v := by
      intro reaches
      obtain ⟨e, live⟩ := contains_iff.mp reaches.target_live
      simp [gone] at live
    simp [h.mem_removed, unreached]
  caused := by
    intro before v rest split
    rcases h.caused before v rest split with root | cause
    · exact .inl (List.mem_cons_of_mem u root)
    · exact .inr cause

/-- A live root goes first, then what reaches its other dependents or a further root without it. -/
theorem step {u : FileUri} {next : List FileUri} (t : g.Transposed) (live : g.contains u = true)
    (mem_next : ∀ w, w ∈ next ↔ w ≠ u ∧ g.DependsOn w u)
    (h : (g.remove u).Cleared (next ++ roots) after removed) : g.Cleared (u :: roots) after (u :: removed) where
  transposed := h.transposed
  forward := by
    intro v
    rw [h.forward, forward?_remove t]
    by_cases same : v = u <;> simp [same]
  nodup := by
    refine List.nodup_cons.mpr ⟨?_, h.nodup⟩
    intro again
    obtain ⟨root, _, reaches⟩ := (h.mem_removed u).mp again
    exact (reaches.of_remove t).1 rfl
  mem_removed := by
    intro v
    rw [List.mem_cons, h.mem_removed]
    constructor
    · rintro (rfl | ⟨root, chosen, reaches⟩)
      · exact ⟨v, List.mem_cons_self, .here live⟩
      · have before := (reaches.of_remove t).2
        rcases List.mem_append.mp chosen with dependent | root_mem
        · have edge := ((mem_next root).mp dependent).2
          exact ⟨u, List.mem_cons_self, before.trans (.step edge (.here live))⟩
        · exact ⟨root, List.mem_cons_of_mem u root_mem, before⟩
    · rintro ⟨root, chosen, reaches⟩
      by_cases same : v = u
      · exact .inl same
      · right
        rcases reaches.remove t same with whole | ⟨w, different, edge, part⟩
        · have alive := ((contains_remove t u root).mp whole.target_live).1
          refine ⟨root, List.mem_append_right next ?_, whole⟩
          exact (List.mem_cons.mp chosen).resolve_left alive
        · exact ⟨w, List.mem_append_left roots ((mem_next w).mpr ⟨different, edge⟩), part⟩
  caused := by
    intro before v rest split
    cases before with
    | nil =>
        obtain ⟨rfl, _⟩ := List.cons.inj split
        exact .inl List.mem_cons_self
    | cons first before =>
        obtain ⟨rfl, tail⟩ := List.cons.inj split
        rcases h.caused before v rest tail with root | ⟨w, earlier, edge⟩
        · rcases List.mem_append.mp root with dependent | root
          · exact .inr ⟨u, List.mem_cons_self, ((mem_next v).mp dependent).2⟩
          · exact .inl (List.mem_cons_of_mem u root)
        · exact .inr ⟨w, List.mem_cons_of_mem u earlier, ((dependsOn_remove t u v w).mp edge).2⟩

end Cleared

/-- What is on the list of visited paths has been removed or never was live. -/
theorem invalidateFrom_cleared {g : Graph} (t : g.Transposed) {visited : List FileUri}
    (gone : ∀ v ∈ visited, g.get? v = none) (stack : List FileUri) :
    g.Cleared stack (g.invalidateFrom visited stack).1 (g.invalidateFrom visited stack).2 := by
  fun_induction invalidateFrom g visited stack with
  | case1 => exact .nil t
  | case2 g visited u stack seen ih => exact (ih t gone).skip (gone u seen)
  | case3 g visited u stack fresh absent ih =>
      apply (ih t _).skip absent
      intro v member
      rcases List.mem_cons.mp member with rfl | member
      · exact absent
      · exact gone v member
  | case4 g visited u stack fresh e live next after removed rest ih =>
      have still_gone : ∀ v ∈ u :: visited, (g.remove u).get? v = none := by
        intro v member
        rw [get?_remove t]
        rcases List.mem_cons.mp member with rfl | member
        · simp
        · simp [gone v member]
      have mem_next : ∀ w, w ∈ next ↔ w ≠ u ∧ g.DependsOn w u := by
        intro w
        simp only [next, List.mem_reverse, List.mem_filter, t.mem_dependedBy live, decide_eq_true_eq]
        constructor
        · rintro ⟨edge, unseen⟩
          exact ⟨fun same => unseen (same ▸ List.mem_cons_self), edge⟩
        · rintro ⟨other, edge⟩
          refine ⟨edge, ?_⟩
          intro member
          obtain ⟨d, alive, _⟩ := edge
          simp [gone w ((List.mem_cons.mp member).resolve_left other)] at alive
      have cleared := ih (t.remove u) still_gone
      rw [rest] at cleared
      exact cleared.step t (contains_iff.mpr ⟨e, live⟩) mem_next

theorem invalidate_cleared {g : Graph} (t : g.Transposed) (u : FileUri) :
    g.Cleared [u] (g.invalidate u).1 (g.invalidate u).2 :=
  invalidateFrom_cleared t (by simp) [u]

theorem invalidate_of_absent {g : Graph} {u : FileUri} (absent : g.get? u = none) :
    g.invalidate u = (g, []) := by
  rw [invalidate, invalidateFrom, if_neg List.not_mem_nil]
  split
  · rw [invalidateFrom]
  · rename_i e live
    simp [absent] at live

theorem invalidate_of_live {g : Graph} {u : FileUri} {e : SourceEntry} (live : g.get? u = some e) :
    ∃ removed, (g.invalidate u).2 = u :: removed := by
  rw [invalidate, invalidateFrom, if_neg List.not_mem_nil]
  split
  · rename_i absent
    simp [live] at absent
  · exact ⟨_, rfl⟩

/-! ## What is left -/

namespace Cleared

variable {g after : Graph} {roots removed : List FileUri}

/-- The lists of dependents lose precisely the entries that were removed. -/
theorem dependentsOf_eq (h : g.Cleared roots after removed) (t : g.Transposed) (target : FileUri) :
    after.dependentsOf target = (g.dependentsOf target).filter (· ∉ removed) := by
  refine (h.transposed.increasing target).ext ((t.increasing target).filter _) ?_
  intro source
  rw [h.transposed.mem_dependentsOf, List.mem_filter, t.mem_dependentsOf, dependsOn_iff, dependsOn_iff,
    h.forward]
  by_cases gone : source ∈ removed <;> simp [gone]

/-- The other entries change only in their dependents. -/
theorem get?_eq (h : g.Cleared roots after removed) (t : g.Transposed) (u : FileUri) :
    after.get? u =
      if u ∈ removed then none
      else (g.get? u).map fun e => { e with dependedBy := e.dependedBy.filter (· ∉ removed) } := by
  rw [h.transposed.get?_eq, h.forward, h.dependentsOf_eq t]
  split
  · rfl
  · cases live : g.get? u with
    | none => simp [forward?, live]
    | some e => simp [forward?, live, SourceEntry.forward, t.dependedBy_eq live]

end Cleared

/-- Loading some of the entries of a graph. -/
theorem forward?_load_filter {g : Graph} (t : g.Transposed) (p : FileUri → Bool) (u : FileUri) :
    (load (g.toList.filter fun e => p e.uri)).forward? u = if p u then g.forward? u else none := by
  rw [forward?_load, forward?]
  cases found : (g.toList.filter fun e => p e.uri).reverse.find? fun e => e.uri = u with
  | some e =>
      obtain rfl : e.uri = u := by simpa using List.find?_some found
      have chosen := List.mem_of_find?_eq_some found
      rw [List.mem_reverse, List.mem_filter, t.mem_toList] at chosen
      rw [if_pos chosen.2, chosen.1]
  | none =>
      split
      · rename_i wanted
        cases live : g.get? u with
        | none => rfl
        | some e =>
            obtain rfl : e.uri = u := t.own live
            have missing := List.find?_eq_none.mp found e
            rw [List.mem_reverse, List.mem_filter, t.mem_toList] at missing
            simpa using missing ⟨live, wanted⟩
      · rfl

/-- What is left is the graph of the other entries. -/
theorem Cleared.eq_load {g after : Graph} {roots removed : List FileUri} (h : g.Cleared roots after removed)
    (t : g.Transposed) : after = load (g.toList.filter fun e => e.uri ∉ removed) := by
  apply h.transposed.ext (load_transposed _)
  intro u
  rw [h.forward, forward?_load_filter t fun v => v ∉ removed]
  by_cases gone : u ∈ removed <;> simp [gone]

/-! ## Several paths one after the other

The later paths are invalidated in a graph from which entries are missing, so chains to them may be broken. But a
chain is broken only if the entry that it starts with is missing too.
-/

/-- Invalidate one path after the other. The answer lists what was removed, in order. -/
def invalidateAll (g : Graph) : List FileUri → Graph × List FileUri
  | [] => (g, [])
  | u :: rest =>
    let (next, removed) := g.invalidate u
    let (after, more) := next.invalidateAll rest
    (after, removed ++ more)

namespace Cleared

variable {g middle after other : Graph} {roots others removed more : List FileUri}

theorem contains_iff (h : g.Cleared roots after removed) (t : g.Transposed) (u : FileUri) :
    after.contains u = true ↔ u ∉ removed ∧ g.contains u = true := by
  rw [contains_eq, contains_eq, h.get?_eq t]
  by_cases gone : u ∈ removed <;> simp [gone]

theorem dependsOn_iff (h : g.Cleared roots after removed) (source target : FileUri) :
    after.DependsOn source target ↔ source ∉ removed ∧ g.DependsOn source target := by
  rw [Graph.dependsOn_iff, Graph.dependsOn_iff, h.forward]
  by_cases gone : source ∈ removed <;> simp [gone]

theorem live (h : g.Cleared roots after removed) {u : FileUri} (gone : u ∈ removed) : g.contains u = true := by
  obtain ⟨_, _, reaches⟩ := (h.mem_removed u).mp gone
  exact reaches.live

/-- What reaches a removed entry is removed with it. -/
theorem closed (h : g.Cleared roots after removed) {u v : FileUri} (gone : u ∈ removed) (reaches : g.Reaches u v) :
    v ∈ removed := by
  obtain ⟨root, chosen, chain⟩ := (h.mem_removed u).mp gone
  exact (h.mem_removed v).mpr ⟨root, chosen, reaches.trans chain⟩

/-- The chains that are left are those from the entries that are left. -/
theorem reaches_iff (h : g.Cleared roots after removed) (t : g.Transposed) (target u : FileUri) :
    after.Reaches target u ↔ u ∉ removed ∧ g.Reaches target u := by
  constructor
  · intro reaches
    induction reaches with
    | here live =>
        obtain ⟨kept, live⟩ := (h.contains_iff t _).mp live
        exact ⟨kept, .here live⟩
    | step edge _ ih =>
        obtain ⟨kept, edge⟩ := (h.dependsOn_iff _ _).mp edge
        exact ⟨kept, .step edge ih.2⟩
  · rintro ⟨kept, reaches⟩
    induction reaches with
    | here live => exact .here ((h.contains_iff t _).mpr ⟨kept, live⟩)
    | @step source next edge rest ih =>
        have next_kept : next ∉ removed := fun gone => kept (h.closed gone (.step edge (.here rest.live)))
        exact .step ((h.dependsOn_iff _ _).mpr ⟨kept, edge⟩) (ih next_kept)

/-- Removing what reaches some roots, and then what still reaches others, removes what reaches any of them. -/
theorem append (first : g.Cleared roots middle removed) (t : g.Transposed) (second : middle.Cleared others after more) :
    g.Cleared (roots ++ others) after (removed ++ more) where
  transposed := second.transposed
  forward := by
    intro u
    rw [second.forward, first.forward]
    by_cases later : u ∈ more <;> by_cases sooner : u ∈ removed <;> simp [later, sooner]
  nodup := by
    refine List.nodup_append.mpr ⟨first.nodup, second.nodup, ?_⟩
    rintro u gone _ again rfl
    obtain ⟨_, _, reaches⟩ := (second.mem_removed u).mp again
    exact ((first.reaches_iff t _ u).mp reaches).1 gone
  mem_removed := by
    intro v
    simp only [List.mem_append, first.mem_removed, second.mem_removed, first.reaches_iff t]
    constructor
    · rintro (⟨root, chosen, reaches⟩ | ⟨root, chosen, _, reaches⟩)
      · exact ⟨root, .inl chosen, reaches⟩
      · exact ⟨root, .inr chosen, reaches⟩
    · rintro ⟨root, chosen | chosen, reaches⟩
      · exact .inl ⟨root, chosen, reaches⟩
      · by_cases gone : ∃ root ∈ roots, g.Reaches root v
        · exact .inl gone
        · exact .inr ⟨root, chosen, gone, reaches⟩
  caused := by
    intro before v rest split
    rcases List.append_eq_append_iff.mp split with ⟨between, rfl, tail⟩ | ⟨between, head, tail⟩
    · rcases second.caused between v rest tail with root | ⟨w, earlier, edge⟩
      · exact .inl (List.mem_append_right roots root)
      · exact .inr ⟨w, List.mem_append_right removed earlier, ((first.dependsOn_iff v w).mp edge).2⟩
    · cases between with
      | nil =>
          rcases second.caused [] v rest tail.symm with root | ⟨_, nothing, _⟩
          · exact .inl (List.mem_append_right roots root)
          · simp at nothing
      | cons first_left between =>
          obtain ⟨rfl, _⟩ := List.cons.inj tail
          rcases first.caused before v between head with root | cause
          · exact .inl (List.mem_append_left others root)
          · exact .inr cause

/-- What is left and what is removed depend on which the roots are, and not on their order. -/
theorem unique (h : g.Cleared roots after removed) (again : g.Cleared others other more)
    (same : ∀ u, u ∈ roots ↔ u ∈ others) : after = other ∧ removed.Perm more := by
  have members : ∀ v, v ∈ removed ↔ v ∈ more := by
    intro v
    simp only [h.mem_removed, again.mem_removed, same]
  refine ⟨h.transposed.ext again.transposed fun u => ?_, (List.perm_ext_iff_of_nodup h.nodup again.nodup).mpr members⟩
  simp only [h.forward, again.forward, members]

end Cleared

theorem invalidateAll_cleared {g : Graph} (t : g.Transposed) (uris : List FileUri) :
    g.Cleared uris (g.invalidateAll uris).1 (g.invalidateAll uris).2 := by
  induction uris generalizing g with
  | nil => exact .nil t
  | cons u rest ih =>
      have first := invalidate_cleared t u
      exact first.append t (ih first.transposed)

end QmlIndex.Graph
