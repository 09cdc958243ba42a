import QmlIndex.Graph
import QmlIndex.Proofs.Increasing

/-! # What linking does to edges

Linking a source notes it under each of its targets, and unlinking forgets it there. Both are said here by
what they do to the look-ups of entries and to the lists of dependents, target by target; how often and
in what order the targets are given makes no difference.
-/

namespace QmlIndex

namespace Graph

/-- Who an index of dependents lists under a path. -/
def sources (m : OrdMap FileUri (List FileUri)) (target : FileUri) : List FileUri := (m.get? target).getD []

/-- No path is kept in the index for nobody. -/
def Occupied (m : OrdMap FileUri (List FileUri)) : Prop := ∀ target, m.get? target ≠ some []

/-- List a source under a target. -/
def note (source : FileUri) (m : OrdMap FileUri (List FileUri)) (target : FileUri) :
    OrdMap FileUri (List FileUri) :=
  m.insert target (insertPath source (sources m target))

/-- Take a source off the list of a target. -/
def forget (source : FileUri) (m : OrdMap FileUri (List FileUri)) (target : FileUri) :
    OrdMap FileUri (List FileUri) :=
  match (sources m target).filter (· != source) with
  | [] => m.erase target
  | rest => m.insert target rest

theorem sources_note (source : FileUri) (m : OrdMap FileUri (List FileUri)) (target t : FileUri) :
    sources (note source m target) t = if t = target then insertPath source (sources m t) else sources m t := by
  rw [sources, note, OrdMap.get?_insert]
  split
  · rename_i same
    rw [same]
    rfl
  · rfl

theorem occupied_note (source : FileUri) (m : OrdMap FileUri (List FileUri)) (target : FileUri)
    (h : Occupied m) : Occupied (note source m target) := by
  intro t
  rw [note, OrdMap.get?_insert]
  split
  · simpa using insertPath_ne_nil source _
  · exact h t

theorem sources_forget (source : FileUri) (m : OrdMap FileUri (List FileUri)) (target t : FileUri) :
    sources (forget source m target) t =
      if t = target then (sources m t).filter (· != source) else sources m t := by
  simp only [sources, forget]
  split
  · rename_i nobody
    rw [OrdMap.get?_erase]
    split
    · rename_i same
      rw [same, nobody]
      rfl
    · rfl
  · rw [OrdMap.get?_insert]
    split
    · rename_i same
      rw [same]
      rfl
    · rfl

theorem occupied_forget (source : FileUri) (m : OrdMap FileUri (List FileUri)) (target : FileUri)
    (h : Occupied m) : Occupied (forget source m target) := by
  intro t
  simp only [forget]
  split
  · rw [OrdMap.get?_erase]
    split
    · simp
    · exact h t
  · rename_i rest somebody
    rw [OrdMap.get?_insert]
    split
    · simpa using somebody
    · exact h t

/-! ## Many targets -/

/-- Patching one target after the other with a function that does nothing the second time. -/
theorem sources_patches {patch : OrdMap FileUri (List FileUri) → FileUri → OrdMap FileUri (List FileUri)}
    {f : List FileUri → List FileUri}
    (one : ∀ m target t, sources (patch m target) t = if t = target then f (sources m t) else sources m t)
    (again : ∀ l, f (f l) = f l) (targets : List FileUri) (m : OrdMap FileUri (List FileUri)) (t : FileUri) :
    sources (targets.foldl patch m) t = if t ∈ targets then f (sources m t) else sources m t := by
  induction targets generalizing m with
  | nil => simp
  | cons target rest ih =>
      rw [List.foldl_cons, ih, one]
      by_cases here : t = target <;> by_cases later : t ∈ rest <;> simp [here, later, again]

theorem occupied_patches {patch : OrdMap FileUri (List FileUri) → FileUri → OrdMap FileUri (List FileUri)}
    (one : ∀ m target, Occupied m → Occupied (patch m target)) (targets : List FileUri)
    {m : OrdMap FileUri (List FileUri)} (h : Occupied m) : Occupied (targets.foldl patch m) := by
  induction targets generalizing m with
  | nil => exact h
  | cons target rest ih => exact ih (one m target h)

theorem sources_notes (source : FileUri) (targets : List FileUri) (m : OrdMap FileUri (List FileUri))
    (t : FileUri) :
    sources (targets.foldl (note source) m) t =
      if t ∈ targets then insertPath source (sources m t) else sources m t :=
  sources_patches (sources_note source) (insertPath_insertPath source) targets m t

theorem sources_forgets (source : FileUri) (targets : List FileUri) (m : OrdMap FileUri (List FileUri))
    (t : FileUri) :
    sources (targets.foldl (forget source) m) t =
      if t ∈ targets then (sources m t).filter (· != source) else sources m t :=
  sources_patches (sources_forget source) (by simp) targets m t

/-! ## The two halves of a graph -/

theorem dependents_link (source : FileUri) (targets : List FileUri) (g : Graph) :
    (g.link source targets).dependents = targets.foldl (note source) g.dependents := by
  induction targets generalizing g with
  | nil => rfl
  | cons target rest ih => exact ih (linkOne source g target)

theorem dependents_unlink (source : FileUri) (targets : List FileUri) (g : Graph) :
    (g.unlink source targets).dependents = targets.foldl (forget source) g.dependents := by
  induction targets generalizing g with
  | nil => rfl
  | cons target rest ih => exact ih (unlinkOne source g target)

theorem get?_modify (m : OrdMap FileUri SourceEntry) (target : FileUri) (f : SourceEntry → SourceEntry)
    (u : FileUri) : (modify m target f).get? u = (m.get? u).map fun e => if u = target then f e else e :=
  OrdMap.get?_map m _ u

/-- Patching one target after the other with a function that does nothing the second time. -/
theorem get?_patches {patch : Graph → FileUri → Graph} {f : SourceEntry → SourceEntry}
    (one : ∀ g target, (patch g target).entries = modify g.entries target f) (again : ∀ e, f (f e) = f e)
    (targets : List FileUri) (g : Graph) (u : FileUri) :
    (targets.foldl patch g).get? u = (g.get? u).map fun e => if u ∈ targets then f e else e := by
  induction targets generalizing g with
  | nil => simp
  | cons target rest ih =>
      rw [List.foldl_cons, ih, get?, one, get?_modify, Option.map_map, get?]
      congr 1
      funext e
      by_cases here : u = target <;> by_cases later : u ∈ rest <;> simp [here, later, again]

/-- The entry with one more dependent. -/
def gain (source : FileUri) (e : SourceEntry) : SourceEntry :=
  { e with dependedBy := insertPath source e.dependedBy }

/-- The entry without a dependent. -/
def lose (source : FileUri) (e : SourceEntry) : SourceEntry :=
  { e with dependedBy := e.dependedBy.filter (· != source) }

theorem get?_link (source : FileUri) (targets : List FileUri) (g : Graph) (u : FileUri) :
    (g.link source targets).get? u = (g.get? u).map fun e => if u ∈ targets then gain source e else e :=
  get?_patches (fun _ _ => rfl) (by simp [gain]) targets g u

theorem get?_unlink (source : FileUri) (targets : List FileUri) (g : Graph) (u : FileUri) :
    (g.unlink source targets).get? u = (g.get? u).map fun e => if u ∈ targets then lose source e else e :=
  get?_patches (fun _ _ => rfl) (by simp [lose]) targets g u

end Graph

end QmlIndex
