import Mathlib.Data.List.Induction
import QmlIndex.Module.OfManifest
import QmlIndex.Proofs.Keyed
import QmlIndex.Proofs.Lists
import QmlIndex.Proofs.Manifest.Lines

/-! # The module that a manifest makes

For each type the first declaration among those of the highest version counts, and the module has the highest
version of them all. So the module depends on the declarations and the name alone.
-/

namespace QmlIndex

namespace Version

/-- The version is no higher than the other one: by the major number first and the minor number second, and
    whatever is no version comes before all versions. -/
def AtMost (a b : Option String) : Prop :=
  ∀ v, a.bind parse? = some v →
    ∃ w, b.bind parse? = some w ∧ (v.major < w.major ∨ v.major = w.major ∧ v.minor ≤ w.minor)

variable {a b c : Option String}

theorem AtMost.refl (a : Option String) : AtMost a a := fun v read => ⟨v, read, .inr ⟨rfl, Nat.le_refl _⟩⟩

theorem AtMost.trans (first : AtMost a b) (second : AtMost b c) : AtMost a c := by
  intro v read
  obtain ⟨w, read, le⟩ := first v read
  obtain ⟨x, read, le'⟩ := second w read
  exact ⟨x, read, by omega⟩

theorem compareOptional_eq_gt : compareOptional a b = .gt ↔ ¬AtMost a b := by
  rw [compareOptional, AtMost]
  cases a.bind parse? with
  | none => cases b.bind parse? <;> simp [compare]
  | some v =>
      cases b.bind parse? with
      | none => simp [compare]
      | some w =>
          have pair : compare (some v) (some w) = (compare v.major w.major).then (compare v.minor w.minor) := rfl
          rw [pair, Ordering.then_eq_gt, Nat.compare_eq_gt, Nat.compare_eq_gt, Nat.compare_eq_eq]
          simp only [Option.some.injEq, forall_eq', exists_eq_left', not_or, not_and]
          omega

theorem atMost_total (a b : Option String) : AtMost a b ∨ AtMost b a := by
  simp only [AtMost]
  cases a.bind parse? <;> cases b.bind parse? <;> simp
  omega

instance : Std.OrientedOrd Version :=
  inferInstanceAs (Std.OrientedCmp (compareLex (compareOn Version.major) (compareOn Version.minor)))

theorem compareOptional_eq_lt : compareOptional a b = .lt ↔ ¬AtMost b a := by
  rw [← compareOptional_eq_gt, compareOptional, compareOptional]
  exact Std.OrientedCmp.gt_iff_lt.symm

end Version

open Version

/-! ## Declarations -/

/-- A type that a manifest declares, with the document that defines it. -/
structure Declared where
  name : String
  version : Option String
  path : String
  isSingleton : Bool
  deriving DecidableEq, Repr

/-- The component that is declared by a manifest. -/
def Declared.component (manifest : FileUri) (d : Declared) : Component where
  name := d.name
  file := some (FileUri.resolve manifest d.path)
  isBuiltin := false
  isSingleton := d.isSingleton
  version := d.version

def Directive.declared? : Directive → Option Declared
  | .component name version path => some ⟨name, version, path, false⟩
  | .singleton name version path => some ⟨name, version, path, true⟩
  | _ => none

/-- The components and singletons that a manifest declares, in the order of the lines. -/
def Manifest.declarations (m : Manifest) : List Declared := m.filterMap Directive.declared?

namespace Directive

theorem declaration?_readable {parts : List String} {name v path : String}
    (h : declaration? parts = some (name, some v, path)) : (parse? v).isSome := by
  unfold declaration? at h
  split at h
  · simp at h
  · split at h
    · rename_i readable
      simp only [Option.some.injEq, Prod.mk.injEq] at h
      exact h.2.1 ▸ readable
    · cases h
  · cases h

theorem declared?_of_plugin? {optional : Bool} {parts : List String} {directive : Directive}
    (told : plugin? optional parts = some directive) : directive.declared? = none := by
  unfold plugin? at told
  split at told <;> cases told <;> rfl

/-- A version that is declared in a text can be read. -/
theorem ofWords_readable {parts : List String} {directive : Directive} {d : Declared} {v : String}
    (told : ofWords parts = some directive) (declares : directive.declared? = some d) (version : d.version = some v) :
    (parse? v).isSome := by
  have declaration {parts : List String} {make : String × Option String × String → Directive}
      (made : ∀ name version path, (make (name, version, path)).declared?.map Declared.version = some version)
      (told : (declaration? parts).map make = some directive) : (parse? v).isSome := by
    obtain ⟨⟨name, declared, path⟩, read, rfl⟩ := Option.map_eq_some_iff.mp told
    have same := made name declared path
    rw [declares, Option.map_some, version] at same
    obtain rfl := Option.some.inj same
    exact declaration?_readable read
  unfold ofWords at told
  split at told
  case h_3 => exact declaration (fun _ _ _ => rfl) told
  case h_12 =>
    split at told
    · exact declaration (fun _ _ _ => rfl) told
    · cases told
  case h_5 | h_6 =>
    obtain ⟨_, _, rfl⟩ := Option.map_eq_some_iff.mp told
    cases declares
  all_goals grind [declared?, declared?_of_plugin?]

end Directive

namespace Manifest

theorem declarations_filter (m : Manifest) : declarations (m.filter fun d => !d.isMetadata) = declarations m := by
  rw [declarations, List.filterMap_filter]
  congr 1
  funext d
  cases d <;> rfl

theorem moduleName?_filter (m : Manifest) : moduleName? (m.filter fun d => !d.isMetadata) = moduleName? m := by
  induction m with
  | nil => rfl
  | cons d m ih => cases d <;> simp_all [moduleName?, Directive.isMetadata]

theorem declarations_readable (text : List Char) :
    ∀ d ∈ (parse text).declarations, ∀ v, d.version = some v → (parse? v).isSome := by
  intro d member v version
  obtain ⟨directive, told, declares⟩ := List.mem_filterMap.mp member
  obtain ⟨line, _, told⟩ := List.mem_filterMap.mp told
  rw [Directive.ofLine] at told
  split at told
  · cases told
  · exact Directive.ofWords_readable told declares version

end Manifest

/-- The first declaration of its name among those of the highest version. -/
structure Prevails (l : List Declared) (d : Declared) : Prop where
  highest : ∀ e ∈ l, e.name = d.name → AtMost e.version d.version
  first : ∃ before after, l = before ++ d :: after ∧ ∀ e ∈ before, e.name = d.name → ¬AtMost d.version e.version

namespace Prevails

variable {l : List Declared} {d e : Declared}

theorem mem (h : Prevails l d) : d ∈ l := by
  obtain ⟨before, after, rfl, _⟩ := h.first
  simp

/-- Only one declaration of a name prevails. -/
theorem unique (h : Prevails l d) (h' : Prevails l e) (same : d.name = e.name) : d = e := by
  obtain ⟨before, after, whole, lower⟩ := h.first
  obtain ⟨before', after', whole', lower'⟩ := h'.first
  refine (split_unique (whole.symm.trans whole') (fun between further => ?_) fun between further => ?_).2.1
  · exact lower' d (by simp [further]) same (h.highest e h'.mem same.symm)
  · exact lower e (by simp [further]) same.symm (h'.highest d h.mem same)

/-- One more declaration of another name changes nothing. -/
theorem concat_other (h : Prevails l d) (other : e.name ≠ d.name) : Prevails (l ++ [e]) d := by
  obtain ⟨before, after, rfl, lower⟩ := h.first
  refine ⟨fun f member same => ?_, before, after ++ [e], by simp, lower⟩
  rcases List.mem_append.mp member with member | last
  · exact h.highest f member same
  · obtain rfl := List.mem_singleton.mp last
    exact absurd same other

/-- A declaration that is no higher does not prevail over the earlier one. -/
theorem concat_lower (h : Prevails l d) (lower : AtMost e.version d.version) : Prevails (l ++ [e]) d := by
  obtain ⟨before, after, rfl, earlier⟩ := h.first
  refine ⟨fun f member same => ?_, before, after ++ [e], by simp, earlier⟩
  rcases List.mem_append.mp member with member | last
  · exact h.highest f member same
  · obtain rfl := List.mem_singleton.mp last
    exact lower

/-- A higher declaration prevails over all earlier ones. -/
theorem concat_higher (h : Prevails l d) (same : e.name = d.name) (higher : ¬AtMost e.version d.version) :
    Prevails (l ++ [e]) e := by
  have above : AtMost d.version e.version := (atMost_total _ _).resolve_right higher
  refine ⟨fun f member also => ?_, l, [], rfl, fun f member also le => ?_⟩
  · rcases List.mem_append.mp member with member | last
    · exact (h.highest f member (also.trans same)).trans above
    · obtain rfl := List.mem_singleton.mp last
      exact .refl _
  · exact higher (le.trans (h.highest f member (also.trans same)))

/-- The first declaration of a name prevails. -/
theorem concat_new (new : ∀ f ∈ l, f.name ≠ e.name) : Prevails (l ++ [e]) e := by
  refine ⟨fun f member also => ?_, l, [], rfl, fun f member also => absurd also (new f member)⟩
  rcases List.mem_append.mp member with member | last
  · exact absurd also (new f member)
  · obtain rfl := List.mem_singleton.mp last
    exact .refl _

end Prevails

namespace ModuleEntry

/-! ## Components -/

variable {manifest : FileUri} {l : List Declared}

/-- One more declaration enters the table. -/
def enter (manifest : FileUri) (table : OrdMap String Component) (d : Declared) : OrdMap String Component :=
  declare manifest table d.name d.version d.path d.isSingleton

theorem declaredComponents_eq (manifest : FileUri) (m : Manifest) :
    declaredComponents manifest m = m.declarations.foldl (enter manifest) .empty := by
  rw [declaredComponents, Manifest.declarations, List.foldl_filterMap]
  congr 1
  funext table d
  cases d <;> rfl

theorem get?_enter_of_ne {table : OrdMap String Component} {d : Declared} {n : String} (other : n ≠ d.name) :
    (enter manifest table d).get? n = table.get? n := by
  rw [enter, declare]
  split <;> split <;> first | rfl | rw [OrdMap.get?_insert, if_neg other]

theorem get?_enter_new {table : OrdMap String Component} {d : Declared} (new : table.get? d.name = none) :
    (enter manifest table d).get? d.name = some (d.component manifest) := by
  rw [enter, declare, new]
  simp [OrdMap.get?_insert, Declared.component]

theorem get?_enter_again {table : OrdMap String Component} {d : Declared} {c : Component}
    (found : table.get? d.name = some c) : (enter manifest table d).get? d.name =
      some (if Version.compareOptional d.version c.version = .gt then d.component manifest else c) := by
  rw [enter, declare, found]
  by_cases higher : Version.compareOptional d.version c.version = .gt
  · simp [higher, OrdMap.get?_insert, Declared.component]
  · simp [higher, found]

/-- What a table has for a name: the component of the declaration that prevails, or nothing if none is there. -/
inductive Recorded (manifest : FileUri) (l : List Declared) (n : String) : Option Component → Prop where
  | absent : (∀ d ∈ l, d.name ≠ n) → Recorded manifest l n none
  | prevailing {d : Declared} : Prevails l d → d.name = n → Recorded manifest l n (some (d.component manifest))

/-- One more declaration keeps every entry what it should be. -/
theorem recorded_enter {table : OrdMap String Component} (h : ∀ n, Recorded manifest l n (table.get? n)) (d : Declared)
    (n : String) : Recorded manifest (l ++ [d]) n ((enter manifest table d).get? n) := by
  have before := h n
  by_cases here : n = d.name
  · subst here
    cases found : table.get? d.name with
    | none =>
        rw [found] at before
        cases before with
        | absent new =>
            rw [get?_enter_new found]
            exact .prevailing (.concat_new new) rfl
    | some c =>
        rw [get?_enter_again found]
        rw [found] at before
        cases before with
        | @prevailing best top same =>
            by_cases higher : compareOptional d.version best.version = .gt
            · rw [if_pos (by exact higher)]
              exact .prevailing (top.concat_higher same.symm (compareOptional_eq_gt.mp higher)) rfl
            · rw [if_neg (by exact higher)]
              exact .prevailing (top.concat_lower (not_not.mp (mt compareOptional_eq_gt.mpr higher))) same
  · rw [get?_enter_of_ne here]
    generalize table.get? n = entry at before ⊢
    cases before with
    | absent new =>
        refine .absent fun e member same => ?_
        rcases List.mem_append.mp member with member | last
        · exact new e member same
        · exact here (same.symm.trans (congrArg Declared.name (List.mem_singleton.mp last)))
    | prevailing top same => exact .prevailing (top.concat_other fun also => here (same.symm.trans also.symm)) same

theorem recorded_declaredComponents (manifest : FileUri) (m : Manifest) (n : String) :
    Recorded manifest m.declarations n ((declaredComponents manifest m).get? n) := by
  rw [declaredComponents_eq]
  generalize m.declarations = l
  induction l using List.reverseRecOn generalizing n with
  | nil => exact .absent nofun
  | append_singleton l d ih =>
      rw [List.foldl_concat]
      exact recorded_enter ih d n

/-- Exactly the declarations that prevail are in the table. -/
theorem get?_declaredComponents {m : Manifest} {n : String} {c : Component} :
    (declaredComponents manifest m).get? n = some c ↔
      ∃ d, Prevails m.declarations d ∧ d.name = n ∧ c = d.component manifest := by
  have recorded := recorded_declaredComponents manifest m n
  generalize (declaredComponents manifest m).get? n = entry at recorded ⊢
  cases recorded with
  | absent none => simpa using fun d top same => absurd same (none d top.mem)
  | @prevailing d top same =>
      refine ⟨fun h => ⟨d, top, same, (Option.some.inj h).symm⟩, fun ⟨e, also, same', found⟩ => ?_⟩
      rw [found, also.unique top (same'.trans same.symm)]

theorem mem_keys_declaredComponents {m : Manifest} {n : String} :
    n ∈ (declaredComponents manifest m).keys ↔ ∃ d ∈ m.declarations, d.name = n := by
  rw [OrdMap.mem_keys]
  have recorded := recorded_declaredComponents manifest m n
  generalize (declaredComponents manifest m).get? n = entry at recorded ⊢
  cases recorded with
  | absent none => simpa using none
  | @prevailing d top same => exact ⟨fun _ => ⟨d, top.mem, same⟩, fun _ => ⟨_, rfl⟩⟩

theorem isEmpty_declaredComponents {m : Manifest} :
    (declaredComponents manifest m).isEmpty = true ↔ m.declarations = [] := by
  have keys : (declaredComponents manifest m).isEmpty = true ↔ (declaredComponents manifest m).keys = [] := by
    simp [OrdMap.isEmpty, OrdMap.keys]
  rw [keys, List.eq_nil_iff_forall_not_mem, List.eq_nil_iff_forall_not_mem]
  simp only [mem_keys_declaredComponents]
  constructor
  · exact fun none d member => none d.name ⟨d, member, rfl⟩
  · rintro none _ ⟨d, member, rfl⟩
    exact none d member

/-! ## The version of a module -/

theorem picks_higher : Picks (fun best v => AtMost (some v) (some best))
    fun best v => if compareOptional (some v) (some best) == .lt then best else v where
  refl v := .refl _
  trans h h' := h'.trans h
  left a b := by
    split
    · exact .refl _
    · rename_i above
      exact not_not.mp fun lower => above (beq_iff_eq.mpr (compareOptional_eq_lt.mpr lower))
  right a b := by
    split
    · rename_i lower
      exact (atMost_total _ _).resolve_left (compareOptional_eq_lt.mp (beq_iff_eq.mp lower))
    · exact .refl _
  either a b := by split <;> simp

theorem highest?_eq_some {l : List String} {v : String} (h : highest? l = some v) :
    v ∈ l ∧ ∀ w ∈ l, AtMost (some w) (some v) := by
  cases l with
  | nil => cases h
  | cons first rest =>
      obtain rfl := Option.some.inj h
      exact picks_higher.foldl first rest

theorem highest?_eq_none {l : List String} : highest? l = none ↔ l = [] := by
  cases l <;> simp [highest?]

/-- The version of a module with these declarations: a declared one that is as high as all, or the default one if
    none is declared. -/
inductive HighestOf (l : List Declared) : String → Prop where
  | declared {d : Declared} {v : String} :
      d ∈ l → d.version = some v → (∀ e ∈ l, AtMost e.version (some v)) → HighestOf l v
  | default : (∀ d ∈ l, d.version = none) → HighestOf l defaultVersion

/-- Taking the highest version among the declarations that prevail is as good as taking it among all. -/
theorem highestOf_values {m : Manifest}
    (readable : ∀ d ∈ m.declarations, ∀ v, d.version = some v → (parse? v).isSome) :
    HighestOf m.declarations
      ((highest? ((declaredComponents manifest m).values.filterMap Component.version)).getD defaultVersion) := by
  have shown {v : String} : v ∈ (declaredComponents manifest m).values.filterMap Component.version ↔
      ∃ d, Prevails m.declarations d ∧ d.version = some v := by
    simp only [List.mem_filterMap, OrdMap.mem_values, get?_declaredComponents]
    constructor
    · rintro ⟨_, ⟨_, d, top, _, rfl⟩, version⟩
      exact ⟨d, top, version⟩
    · rintro ⟨d, top, version⟩
      exact ⟨_, ⟨d.name, d, top, rfl, rfl⟩, version⟩
  have winner {d : Declared} (member : d ∈ m.declarations) : ∃ e, Prevails m.declarations e ∧ e.name = d.name := by
    have listed : d.name ∈ (declaredComponents manifest m).keys := mem_keys_declaredComponents.mpr ⟨d, member, rfl⟩
    obtain ⟨c, found⟩ := OrdMap.mem_keys.mp listed
    obtain ⟨e, top, same, _⟩ := get?_declaredComponents.mp found
    exact ⟨e, top, same⟩
  generalize highest : highest? _ = best
  cases best with
  | none =>
      rw [highest?_eq_none, List.eq_nil_iff_forall_not_mem] at highest
      refine .default fun d member => ?_
      obtain ⟨top, prevails, same⟩ := winner member
      cases version : d.version with
      | none => rfl
      | some v =>
          obtain ⟨read, parsed⟩ := Option.isSome_iff_exists.mp (readable d member v version)
          obtain ⟨_, found, _⟩ := prevails.highest d member same.symm read (by rw [version]; exact parsed)
          obtain ⟨w, shows, _⟩ := Option.bind_eq_some_iff.mp found
          exact absurd (shown.mpr ⟨top, prevails, shows⟩) (highest w)
  | some v =>
      obtain ⟨member, best⟩ := highest?_eq_some highest
      obtain ⟨d, top, version⟩ := shown.mp member
      refine .declared top.mem version fun e listed => ?_
      obtain ⟨f, prevails, same⟩ := winner listed
      refine (prevails.highest e listed same.symm).trans ?_
      cases other : f.version with
      | none => exact nofun
      | some w => exact best w (shown.mpr ⟨f, prevails, other⟩)

/-! ## The module -/

/-- The name that a manifest gives its module, or else the one inferred from its place. -/
def givenName (manifest : FileUri) (m : Manifest) (root : Path) (markers : List String) : String :=
  (m.moduleName? <|> manifest.parent?.map fun dir => inferName root dir markers).getD ""

theorem ofManifest_eq (manifest : FileUri) (time : Option Timestamp) (m : Manifest) (root : Path)
    (markers : List String) : ofManifest manifest time m root markers =
      if m.declarations = [] ∨ givenName manifest m root markers = "" then none
      else some {
        name := givenName manifest m root markers
        lastModified := time
        components := declaredComponents manifest m
        version := (highest? ((declaredComponents manifest m).values.filterMap Component.version)).getD defaultVersion
        manifest := some manifest } := by
  rw [ofManifest]
  by_cases bare : m.declarations = []
  · simp [bare, isEmpty_declaredComponents.mpr bare]
  · have filled : ¬(declaredComponents manifest m).isEmpty = true := mt isEmpty_declaredComponents.mp bare
    simp only [if_neg filled, bare, false_or, givenName]
    cases m.moduleName? with
    | some name => by_cases blank : name = "" <;> simp [blank]
    | none =>
        cases manifest.parent? with
        | none => simp
        | some dir => by_cases blank : inferName root dir markers = "" <;> simp [blank]

/-- A manifest without its metadata makes the same module. -/
theorem ofManifest_filter (manifest : FileUri) (time : Option Timestamp) (m : Manifest) (root : Path)
    (markers : List String) :
    ofManifest manifest time (m.filter fun d => !d.isMetadata) root markers =
      ofManifest manifest time m root markers := by
  rw [ofManifest_eq, ofManifest_eq, givenName, givenName, declaredComponents_eq, declaredComponents_eq,
    Manifest.declarations_filter, Manifest.moduleName?_filter]

/-- The module is made of the declarations: each name has the declaration of it that prevails. -/
structure MadeOf (manifest : FileUri) (time : Option Timestamp) (name : String) (l : List Declared)
    (m : ModuleEntry) : Prop where
  named : m.name = name
  source : m.manifest = some manifest
  stamped : m.lastModified = time
  keys : ∀ n, n ∈ m.components.keys ↔ ∃ d ∈ l, d.name = n
  records : ∀ n c, m.components.get? n = some c ↔ ∃ d, Prevails l d ∧ d.name = n ∧ c = d.component manifest
  version : HighestOf l m.version

/-- A manifest makes no module if it declares nothing or leaves the module without a name, and otherwise the module of
    its declarations. It says what its parts say one after the other, so what stands between the declarations does
    not matter. -/
theorem ofManifest_exact (text : List Char) (manifest : FileUri) (time : Option Timestamp) (root : Path)
    (markers : List String) :
    let made text := ofManifest manifest time (Manifest.parse text) root markers
    let declared := (Manifest.parse text).declarations
    let name := givenName manifest (Manifest.parse text) root markers
    (made text = none ↔ declared = [] ∨ name = "") ∧
      (∀ m, made text = some m → MadeOf manifest time name declared m) ∧
      (∀ a b, Manifest.parse (a ++ '\n' :: b) = Manifest.parse a ++ Manifest.parse b) ∧
      (∀ other, Manifest.Restyled Manifest.Unread text other → Manifest.parse other = Manifest.parse text) ∧
      ∀ other, Manifest.Restyled Manifest.Idle text other → made other = made text := by
  intro made declared name
  refine ⟨?_, ?_, Manifest.parse_append, fun _ restyled => restyled.parse_eq.symm, ?_⟩
  · simp only [made, ofManifest_eq, ite_eq_left_iff, reduceCtorEq, imp_false, not_not]
    rfl
  · intro m same
    simp only [made, ofManifest_eq] at same
    split at same
    · cases same
    · obtain rfl := Option.some.inj same
      exact {
        named := rfl
        source := rfl
        stamped := rfl
        keys := fun n => mem_keys_declaredComponents
        records := fun n c => get?_declaredComponents
        version := highestOf_values (Manifest.declarations_readable text) }
  · intro other restyled
    have same := restyled.filter_parse (p := fun d => !d.isMetadata) fun l idle d told => by
      rw [idle.isMetadata told]
      rfl
    simp only [made]
    rw [← ofManifest_filter, ← same, ofManifest_filter]

/-- Two types with the history of one of them. -/
def history : List Char :=
  "module Car.Gauges\nGauge 1.9 Old.qml\nDial Dial.qml\nsingleton Gauge 1.10 Gauge.qml\nGauge 1.10 Late.qml".toList

theorem ofManifest_exact_history :
    ∃ m d, ofManifest (Path.ofString "/car/qmldir") none (Manifest.parse history) .rootDir [] = some m ∧
      m.name = "Car.Gauges" ∧ m.version = "1.10" ∧ HighestOf (Manifest.parse history).declarations "1.10" ∧
      Prevails (Manifest.parse history).declarations d ∧ d.name = "Gauge" ∧ d.isSingleton = true ∧
      ofManifest (Path.ofString "/car/qmldir") none (Manifest.parse ("depends Car.Base".toList ++ '\n' :: history))
        .rootDir [] = some m := by
  obtain ⟨_, exact, _, _, restyled⟩ := ofManifest_exact history (Path.ofString "/car/qmldir") none .rootDir []
  have shown : (ofManifest (Path.ofString "/car/qmldir") none (Manifest.parse history) .rootDir []).map
      (fun m => (m.name, m.version, (m.components.get? "Gauge").map Component.isSingleton)) =
        some ("Car.Gauges", "1.10", some true) := by decide
  obtain ⟨m, made, values⟩ := Option.map_eq_some_iff.mp shown
  simp only [Prod.mk.injEq, Option.map_eq_some_iff] at values
  obtain ⟨named, version, c, found, singleton⟩ := values
  obtain ⟨d, prevails, same, rfl⟩ := ((exact m made).records "Gauge" c).mp found
  have idle : Manifest.Idle "depends Car.Base".toList :=
    .metadata (d := .depends "Car.Base" none) (by decide) rfl
  exact ⟨m, d, made, named, version, version ▸ (exact m made).version, prevails, same, singleton,
    (restyled _ (.rel _ _ (.firstLine (by decide) idle))).trans made⟩

end ModuleEntry

end QmlIndex
