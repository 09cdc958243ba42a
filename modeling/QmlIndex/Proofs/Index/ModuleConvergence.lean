import QmlIndex.Proofs.Index.Convergence
import QmlIndex.Proofs.Index.ModuleMirror

/-! # The index of modules converges

Several manifests may name one module, and only one of them has it. Which one that is depends on what happened
before, but not after a scan: a scan comes to the manifests in order, leaves alone those whose modules are resident,
and every other one takes its name for itself, also from a manifest that the scan has come to already. Each name
therefore ends with the last manifest of the listing that makes it, as if the index had been fresh.
-/

namespace QmlIndex

open FileTree

/-- A scan comes to what it should if all that it lists is accepted and there, and it lists all files. -/
theorem Matcher.walksAccepted_of_files {m : Matcher} {t : FileTree}
    (sound : ∀ u ∈ m.walk t, m.Accepted u ∧ t.isFile u = true)
    (complete : ∀ e ∈ t.nodes.entries, t.isFile e.1 = true → e.1 ∈ m.walk t) : m.WalksAccepted t := by
  refine fun u => ⟨sound u, ?_⟩
  rintro ⟨accepted, there⟩
  obtain ⟨f, found⟩ := get?_of_isFile accepted.canonical.plain there
  rw [at?] at found
  split at found
  · simp at found
  · exact complete (u, .file f) (OrdMap.get?_eq_some.mp found) there

namespace ModuleIndex

variable {m : Matcher} {t after : FileTree} {naming : Naming} {x : ModuleIndex} {u : FileUri} {name : String}

/-- The module that a manifest makes of a name, as the manifest is now. -/
def maker (t : FileTree) (naming : Naming) (name : String) (u : FileUri) : Option ModuleEntry :=
  match examine t naming u with
  | .ok made => made.filter (·.name = name)
  | .error _ => none

theorem maker_eq_some {mod : ModuleEntry} :
    maker t naming name u = some mod ↔ examine t naming u = .ok (some mod) ∧ mod.name = name := by
  rw [maker]
  split
  · rename_i made examined
    simp [examined, Option.filter_eq_some_iff]
  · rename_i fault examined
    simp [examined]

theorem maker_of_examine {mod : ModuleEntry} (examined : examine t naming u = .ok (some mod)) (name : String) :
    maker t naming name u = if name = mod.name then some mod else none := by
  by_cases here : name = mod.name
  · simp [maker, examined, here]
  · simp [maker, examined, Option.filter, Ne.symm here, here]

/-- The last manifest of a list that makes a name. -/
theorem last_maker_eq_some {paths : List Path} {mod : ModuleEntry} :
    paths.reverse.findSome? (maker t naming name) = some mod ↔
      ∃ earlier p later, paths = earlier ++ p :: later ∧ examine t naming p = .ok (some mod) ∧ mod.name = name ∧
        ∀ q ∈ later, ∀ other, examine t naming q = .ok (some other) → other.name ≠ name := by
  have unmade : ∀ q, maker t naming name q = none ↔
      ∀ other, examine t naming q = .ok (some other) → other.name ≠ name := by
    intro q
    simp [Option.eq_none_iff_forall_ne_some, maker_eq_some]
  rw [List.findSome?_eq_some_iff]
  constructor
  · rintro ⟨later, p, earlier, split, makes, none_later⟩
    obtain ⟨examined, named⟩ := maker_eq_some.mp makes
    refine ⟨earlier.reverse, p, later.reverse, ?_, examined, named, fun q member => ?_⟩
    · simpa using congrArg List.reverse split
    · exact (unmade q).mp (none_later q (List.mem_reverse.mp member))
  · rintro ⟨earlier, p, later, rfl, examined, named, none_later⟩
    refine ⟨later.reverse, p, earlier.reverse, by simp, maker_eq_some.mpr ⟨examined, named⟩, fun q member => ?_⟩
    exact (unmade q).mpr (none_later q (List.mem_reverse.mp member))

/-- Every resident module is what an accepted manifest makes now. -/
structure Faithful (m : Matcher) (t : FileTree) (naming : Naming) (x : ModuleIndex) : Prop where
  own : x.registry.modules.KeyedBy ModuleEntry.name
  current : ∀ mod ∈ x.registry.toList, ∃ u, m.Accepted u ∧ examine t naming u = .ok (some mod)

theorem faithful_of_empty (nothing : x.registry = .empty) (t : FileTree) (naming : Naming) (m : Matcher) :
    x.Faithful m t naming where
  own := by
    rw [nothing]
    exact OrdMap.keyedBy_empty
  current := by
    intro mod member
    simp [nothing] at member

namespace Faithful

/-- A resident module is what its own manifest makes. -/
theorem examined (h : x.Faithful m t naming) {mod : ModuleEntry} (member : mod ∈ x.registry.toList)
    (manifest : mod.manifest = some u) : examine t naming u = .ok (some mod) := by
  obtain ⟨v, _, examined⟩ := h.current mod member
  obtain rfl : v = u := Option.some.inj ((manifest_of_examine examined).symm.trans manifest)
  exact examined

theorem indexManifest (h : x.Faithful m t naming) (accepted : m.Accepted u) :
    (x.indexManifest t naming u).2.Faithful m t naming := by
  rcases indexManifest_cases x t naming u with ⟨_, _, same⟩ | ⟨_, _, same, _⟩ | ⟨made, _, examined, same⟩
  · rw [same]
    exact h
  · rw [same]
    exact h
  · rw [same]
    refine ⟨h.own.insert made, fun mod member => ?_⟩
    rcases Registry.mem_toList_insert member with rfl | before
    · exact ⟨u, accepted, examined⟩
    · exact h.current mod before

/-- After a manifest is indexed, the name it makes is its own. -/
theorem get?_indexManifest (h : x.Faithful m t naming) (u : FileUri) (name : String) :
    (x.indexManifest t naming u).2.registry.get? name = (maker t naming name u).or (x.registry.get? name) := by
  rcases indexManifest_cases x t naming u with ⟨mod, found, same⟩ | ⟨_, nothing, same, _⟩ | ⟨made, _, examined, same⟩
  · -- A resident module has its name already.
    obtain ⟨member, manifest⟩ := Registry.findByManifest?_eq_some found
    have live := (Registry.mem_toList h.own).mp member
    rw [same, maker_of_examine (h.examined member manifest)]
    split
    · rename_i here
      rw [here, live, Option.some_or]
    · rw [Option.none_or]
  · have none_made : maker t naming name u = none := by
      rw [Option.eq_none_iff_forall_ne_some]
      intro mod made
      exact nothing mod (maker_eq_some.mp made).1
    rw [same, none_made, Option.none_or]
  · rw [same, maker_of_examine examined]
    change (x.registry.modules.insert made.name made).get? name = _
    rw [OrdMap.get?_insert]
    split
    · rw [Option.some_or]
    · rw [Option.none_or]
      rfl

/-- After manifests are indexed one after the other, a name belongs to the last of them that makes it. -/
theorem indexEach (h : x.Faithful m t naming) {paths : List Path} (accepted : ∀ p ∈ paths, m.Accepted p) :
    (x.indexEach t naming paths).Faithful m t naming ∧
      ∀ name, (x.indexEach t naming paths).registry.get? name =
        (paths.reverse.findSome? (maker t naming name)).or (x.registry.get? name) := by
  induction paths generalizing x with
  | nil => exact ⟨h, fun _ => rfl⟩
  | cons path rest ih =>
      have here := accepted path List.mem_cons_self
      have plain : path.normalize = path := here.canonical.plain.normalize_eq
      obtain ⟨faithful, owner⟩ := ih (h.indexManifest here) fun p member => accepted p (List.mem_cons_of_mem path member)
      have step : x.indexEach t naming (path :: rest) = (x.indexManifest t naming path).2.indexEach t naming rest := by
        rw [ModuleIndex.indexEach, List.foldl_cons, plain]
        rfl
      rw [step]
      refine ⟨faithful, fun name => ?_⟩
      rw [owner, h.get?_indexManifest, List.reverse_cons, List.findSome?_append, Option.or_assoc]
      simp

/-- A scan leaves each name to the last manifest of the listing that makes it. -/
theorem scan (h : x.Faithful m t naming) (walks : m.WalksAccepted t) :
    (x.scan t naming m).2.Faithful m t naming ∧
      ∀ name, (x.scan t naming m).2.registry.get? name = (m.walk t).reverse.findSome? (maker t naming name) := by
  obtain ⟨faithful, owner⟩ := h.indexEach fun p listed => ((walks p).mp listed).1
  rw [ModuleIndex.scan, scanAll_index]
  refine ⟨faithful, fun name => ?_⟩
  rw [owner]
  cases live : x.registry.get? name with
  | none => rw [Option.or_none]
  | some mod =>
      -- The manifest of a resident module is there and accepted, so the scan comes to it and some manifest makes the name.
      obtain ⟨u, accepted, examined⟩ := h.current mod (OrdMap.mem_values.mpr ⟨name, live⟩)
      obtain ⟨f, _, found, _⟩ := examine_eq_ok.mp examined
      have listed := (walks u).mpr ⟨accepted, isFile_iff.mpr ⟨f, found⟩⟩
      have makes : maker t naming name u = some mod := maker_eq_some.mpr ⟨examined, h.own name mod live⟩
      cases owner : (m.walk t).reverse.findSome? (maker t naming name) with
      | some _ => rfl
      | none => simp [List.findSome?_eq_none_iff.mp owner u (List.mem_reverse.mpr listed)] at makes

/-- The removal of a manifest leaves no module of it. -/
theorem mem_removeManifest (h : x.Faithful m t naming) {mod : ModuleEntry}
    (member : mod ∈ (x.removeManifest u).2.registry.toList) : mod ∈ x.registry.toList ∧ mod.manifest ≠ some u := by
  rw [ModuleIndex.removeManifest, nameOfManifest?] at member
  cases found : x.registry.findByManifest? u with
  | none =>
      simp only [found, Option.map_none] at member
      exact ⟨member, Registry.findByManifest?_eq_none found mod member⟩
  | some other =>
      simp only [found, Option.map_some] at member
      obtain ⟨before, named⟩ := (Registry.mem_toList_remove h.own).mp member
      refine ⟨before, fun manifest => named ?_⟩
      obtain ⟨listed, manifest_other⟩ := Registry.findByManifest?_eq_some found
      have same := (h.examined before manifest).symm.trans (h.examined listed manifest_other)
      rw [Option.some.inj (Except.ok.inj same)]

/-- A change of one accepted manifest, followed by its event. -/
theorem handle (h : x.Faithful m t naming) (accepted : m.Accepted u)
    (kept : KeepsBut u t after ∧ ¬ t.HasDirectory u) (event : FileEvent) :
    (x.handle after naming event u).2.Faithful m after naming := by
  have removed : (x.removeManifest u).2.Faithful m after naming := by
    refine ⟨?_, fun mod member => ?_⟩
    · rw [ModuleIndex.removeManifest]
      split
      · exact h.own.erase _
      · exact h.own
    · obtain ⟨before, other⟩ := h.mem_removeManifest member
      obtain ⟨v, accepted, examined⟩ := h.current mod before
      have different : v ≠ u := by
        rintro rfl
        exact other (manifest_of_examine examined)
      obtain ⟨f, text, found, rest⟩ := examine_eq_ok.mp examined
      have still := file_of_keepsBut kept.1 kept.2 accepted.canonical.plain different found
      exact ⟨v, accepted, examine_eq_ok.mpr ⟨f, text, still, rest⟩⟩
  cases event with
  | deleted => exact removed
  | created | changed => exact removed.indexManifest accepted

end Faithful

end ModuleIndex

namespace Workspace

/-- The states that a workspace and its files can come to from `w₀` and `t₀` by changes of manifests and scans of
    them, if no call of the store fails. -/
inductive ManifestSession (w₀ : Workspace) (t₀ : FileTree) : Workspace → FileTree → Prop where
  | start : ManifestSession w₀ t₀ w₀ t₀
  /-- A manifest is written, and its event passed on. -/
  | write {w : Workspace} {t after : FileTree} {u : FileUri} {f : File} {event : FileEvent}
      {done : Option (Result Unit) × Workspace}
      (before : ManifestSession w₀ t₀ w t) (accepted : w.manifestMatcher.Accepted u) (written : t.put u f = .ok after)
      (granted : w.modules.Granted after w.naming w.manifestMatcher (.handle event u))
      (returns : w.dispatch after .modules event u.toString = some done) : ManifestSession w₀ t₀ done.2 after
  /-- A manifest is removed, and its event passed on. -/
  | delete {w : Workspace} {t after : FileTree} {u : FileUri} {event : FileEvent}
      {done : Option (Result Unit) × Workspace}
      (before : ManifestSession w₀ t₀ w t) (accepted : w.manifestMatcher.Accepted u)
      (removed : t.removeFile u = .ok after)
      (granted : w.modules.Granted after w.naming w.manifestMatcher (.handle event u))
      (returns : w.dispatch after .modules event u.toString = some done) : ManifestSession w₀ t₀ done.2 after
  | index {w : Workspace} {t : FileTree} {u : FileUri} (before : ManifestSession w₀ t₀ w t)
      (accepted : w.manifestMatcher.Accepted u)
      (granted : w.modules.Granted t w.naming w.manifestMatcher (.indexManifest u)) :
      ManifestSession w₀ t₀ (w.indexManifest t u).2 t
  | scan {w : Workspace} {t : FileTree} (before : ManifestSession w₀ t₀ w t)
      (walks : w.manifestMatcher.WalksAccepted t) (granted : w.modules.Granted t w.naming w.manifestMatcher .scan) :
      ManifestSession w₀ t₀ (w.scanModules t).2 t

/-- What holds at every point of such a session. -/
structure ModulesFaithful (m : Matcher) (naming : Naming) (t : FileTree) (w : Workspace) : Prop where
  matcher : w.manifestMatcher = m
  rules : w.naming = naming
  faithful : w.modules.Faithful m t naming
  mirrors : w.modules.Mirrors

variable {m : Matcher} {naming : Naming} {w : Workspace} {t after : FileTree} {u : FileUri}

/-- Passing on an event of an accepted manifest is the reaction of the index of modules, which always returns. -/
theorem dispatch_manifest (accepted : w.manifestMatcher.Accepted u) (event : FileEvent) :
    w.dispatch after .modules event u.toString =
      some (some (w.onModules (·.handle after w.naming event u)).1,
        (w.onModules (·.handle after w.naming event u)).2) := by
  have accepts : (w.matcherOf .modules).accepts u.toString = true := accepted.accepts
  have handled : w.handle after .modules event u.toString = some (w.onModules (·.handle after w.naming event u)) := by
    rw [handle, accepted.canonical.ofPath_toString]
  rw [dispatch, if_pos accepts, handled, Option.map_some]

namespace ModulesFaithful

theorem change (h : w.ModulesFaithful m naming t) (accepted : w.manifestMatcher.Accepted u)
    (kept : KeepsBut u t after ∧ ¬ t.HasDirectory u) {event : FileEvent}
    (granted : w.modules.Granted after w.naming w.manifestMatcher (.handle event u))
    {done : Option (Result Unit) × Workspace} (returns : w.dispatch after .modules event u.toString = some done) :
    done.2.ModulesFaithful m naming after := by
  rw [dispatch_manifest accepted] at returns
  obtain rfl := Option.some.inj returns
  obtain ⟨rfl, rfl, faithful, mirrors⟩ := h
  exact ⟨rfl, rfl, faithful.handle accepted kept event, mirrors.handle accepted.canonical granted.1 granted.2⟩

theorem index (h : w.ModulesFaithful m naming t) (accepted : w.manifestMatcher.Accepted u)
    (granted : w.modules.Granted t w.naming w.manifestMatcher (.indexManifest u)) :
    (w.indexManifest t u).2.ModulesFaithful m naming t := by
  obtain ⟨rfl, rfl, faithful, mirrors⟩ := h
  exact ⟨rfl, rfl, faithful.indexManifest accepted, mirrors.indexManifest accepted.canonical granted⟩

theorem scan (h : w.ModulesFaithful m naming t) (walks : m.WalksAccepted t)
    (granted : w.modules.Granted t w.naming w.manifestMatcher .scan) :
    (w.scanModules t).2.ModulesFaithful m naming t := by
  obtain ⟨rfl, rfl, faithful, mirrors⟩ := h
  have canonical : ∀ p ∈ w.manifestMatcher.walk t, FileUri.Canonical p.normalize := by
    intro p listed
    have accepted := ((walks p).mp listed).1
    rw [accepted.canonical.plain.normalize_eq]
    exact accepted.canonical
  exact ⟨rfl, rfl, (faithful.scan walks).1, mirrors.scanAll canonical granted⟩

theorem get?_scan (h : w.ModulesFaithful m naming t) (walks : m.WalksAccepted t) (name : String) :
    (w.scanModules t).2.registry.get? name = (m.walk t).reverse.findSome? (ModuleIndex.maker t naming name) := by
  obtain ⟨rfl, rfl, faithful, _⟩ := h
  exact (faithful.scan walks).2 name

end ModulesFaithful

/-- Nothing is known of modules, here and in the store. -/
structure NoModules (w : Workspace) : Prop where
  registry : w.registry = .empty
  modules : w.store.modules = []
  components : w.store.components = []

theorem NoModules.faithful (start : w.NoModules) (t : FileTree) : w.ModulesFaithful w.manifestMatcher w.naming t where
  matcher := rfl
  rules := rfl
  faithful := ModuleIndex.faithful_of_empty start.registry t _ _
  mirrors := by
    change w.store.HoldsModules w.registry
    rw [start.registry]
    exact Store.holdsModules_empty start.modules start.components

theorem ManifestSession.faithful {w₀ : Workspace} {t₀ : FileTree} (start : w₀.NoModules)
    (session : ManifestSession w₀ t₀ w t) : w.ModulesFaithful w₀.manifestMatcher w₀.naming t := by
  induction session with
  | start => exact start.faithful t₀
  | write _ accepted written granted returns ih =>
      exact ih.change accepted (put_keepsBut accepted.canonical.plain written) granted returns
  | delete _ accepted removed granted returns ih =>
      exact ih.change accepted (removeFile_keepsBut accepted.canonical.plain removed) granted returns
  | index _ accepted granted ih => exact ih.index accepted granted
  | scan _ walks granted ih => exact ih.scan (ih.matcher ▸ walks) granted

/-- Whatever a session that starts with nothing did to the manifests, one more scan leaves the very registry, and up
    to the order of rows the very tables, that the first scan of a fresh index gets from the files: each name belongs
    to the last manifest of the listing that makes a module of this name, with the module that this manifest makes of
    its current text and time. -/
theorem manifest_session_converges {w₀ fresh : Workspace} {t₀ : FileTree} (start : w₀.NoModules)
    (session : ManifestSession w₀ t₀ w t) (walks : w₀.manifestMatcher.WalksAccepted t)
    (granted : w.modules.Granted t w.naming w.manifestMatcher .scan) (fresh_start : fresh.NoModules)
    (same_matcher : fresh.manifestMatcher = w₀.manifestMatcher) (same_naming : fresh.naming = w₀.naming)
    (fresh_granted : fresh.modules.Granted t fresh.naming fresh.manifestMatcher .scan) :
    (w.scanModules t).2.registry = (fresh.scanModules t).2.registry ∧
    (w.scanModules t).2.store.modules.Perm (fresh.scanModules t).2.store.modules ∧
    (w.scanModules t).2.store.components.Perm (fresh.scanModules t).2.store.components ∧
    ∀ name mod, (w.scanModules t).2.registry.get? name = some mod ↔
      ∃ earlier p later f text, w₀.manifestMatcher.walk t = earlier ++ p :: later ∧
        t.file p = .ok f ∧ String.fromUTF8? f.content = some text ∧
        ModuleEntry.ofManifest p (some f.time) (Manifest.parse text.toList) w₀.naming.root w₀.naming.markers = some mod ∧
        mod.name = name ∧
        ∀ q ∈ later, ∀ other, ModuleIndex.examine t w₀.naming q = .ok (some other) → other.name ≠ name := by
  have h := session.faithful start
  have h_fresh : fresh.ModulesFaithful w₀.manifestMatcher w₀.naming t :=
    same_matcher ▸ same_naming ▸ fresh_start.faithful t
  have registry : (w.scanModules t).2.registry = (fresh.scanModules t).2.registry := by
    apply congrArg Registry.mk
    apply OrdMap.ext_get?
    intro name
    exact (h.get?_scan walks name).trans (h_fresh.get?_scan walks name).symm
  have mirrors : (w.scanModules t).2.store.HoldsModules (w.scanModules t).2.registry := (h.scan walks granted).mirrors
  have fresh_mirrors : (fresh.scanModules t).2.store.HoldsModules (fresh.scanModules t).2.registry :=
    (h_fresh.scan walks fresh_granted).mirrors
  rw [← registry] at fresh_mirrors
  refine ⟨registry, mirrors.rows.trans fresh_mirrors.rows.symm, mirrors.components.trans fresh_mirrors.components.symm, ?_⟩
  intro name mod
  rw [h.get?_scan walks, ModuleIndex.last_maker_eq_some]
  constructor
  · rintro ⟨earlier, p, later, listing, examined, named, last⟩
    obtain ⟨f, text, found, decoded, made⟩ := ModuleIndex.examine_eq_ok.mp examined
    exact ⟨earlier, p, later, f, text, listing, found, decoded, made.symm, named, last⟩
  · rintro ⟨earlier, p, later, f, text, listing, found, decoded, made, named, last⟩
    exact ⟨earlier, p, later, listing, ModuleIndex.examine_eq_ok.mpr ⟨f, text, found, decoded, made.symm⟩, named, last⟩

/-! ## Two manifests of one module

`/w/b/qmldir` is written before `/w/a/qmldir`, and both name the module `M`. The one written last has it until the
scan. -/

namespace Collision

open Sample

def a : FileUri := (Sample.root.child "a").child "qmldir"

def b : FileUri := (Sample.root.child "b").child "qmldir"

def bare : FileTree where
  nodes := OrdMap.empty.insert Sample.root (.directory 1)

def declaring : File := ⟨"module M\nT 1.0 T.qml\n".toUTF8, 5⟩

def onlyB : FileTree where
  nodes := (bare.nodes.insert (Sample.root.child "b") (.directory declaring.modified)).insert b (.file declaring)

def both : FileTree where
  nodes := (onlyB.nodes.insert (Sample.root.child "a") (.directory declaring.modified)).insert a (.file declaring)

def afterB : Workspace := (workspace.onModules (·.handle onlyB workspace.naming .created b)).2

def afterBoth : Workspace := (afterB.onModules (·.handle both afterB.naming .created a)).2

theorem accepted_a : workspace.manifestMatcher.Accepted a := ⟨rfl, by decide⟩

theorem accepted_b : workspace.manifestMatcher.Accepted b := ⟨rfl, by decide⟩

theorem session : ManifestSession workspace bare afterBoth both := by
  have granted_b : workspace.modules.Granted onlyB workspace.naming workspace.manifestMatcher (.handle .created b) := by
    decide
  have first : ManifestSession workspace bare afterB onlyB :=
    .write .start accepted_b rfl granted_b (dispatch_manifest accepted_b .created)
  have accepted : afterB.manifestMatcher.Accepted a := accepted_a
  have granted_a : afterB.modules.Granted both afterB.naming afterB.manifestMatcher (.handle .created a) := by
    decide
  exact .write first accepted rfl granted_a (dispatch_manifest accepted .created)

theorem walks : workspace.manifestMatcher.WalksAccepted both := by
  have listing : workspace.manifestMatcher.walk both = [a, b] := by decide
  apply Matcher.walksAccepted_of_files
  · rw [listing]
    intro u listed
    simp only [List.mem_cons, List.not_mem_nil, or_false] at listed
    rcases listed with rfl | rfl
    · exact ⟨accepted_a, by decide⟩
    · exact ⟨accepted_b, by decide⟩
  · rw [listing]
    decide

end Collision

open Sample Collision in
theorem manifest_session_converges_collision :
    (afterBoth.registry.get? "M").bind ModuleEntry.manifest = some a ∧
      ((afterBoth.scanModules both).2.registry.get? "M").bind ModuleEntry.manifest = some b ∧
      (afterBoth.scanModules both).2.registry = (workspace.scanModules both).2.registry :=
  ⟨by decide, by decide,
    (manifest_session_converges ⟨rfl, rfl, rfl⟩ session walks (by decide) ⟨rfl, rfl, rfl⟩ rfl rfl
      (by decide)).1⟩

end Workspace

end QmlIndex
