import QmlIndex.Proofs.Index.ModuleProvenance
import QmlIndex.Proofs.Lists
import QmlIndex.Proofs.Text.Fields

/-! # What a module name means

The order of names is a strict order on distinct names, so of several modules that a request may mean exactly one
is the least, in whatever order the modules are listed. A change to a registry is seen only by the requests that
may mean the module that changed.
-/

namespace QmlIndex

open Text

namespace Registry

/-! ## Registries that are made step by step -/

/-- What changes a registry. -/
inductive Operation where
  | insert (m : ModuleEntry)
  | remove (name : String)
  | clear
  deriving DecidableEq, Repr

def apply (r : Registry) : Operation → Registry
  | .insert m => r.insert m
  | .remove name => r.remove name
  | .clear => .empty

def run (operations : List Operation) : Registry := operations.foldl apply .empty

theorem apply_keyed {r : Registry} (own : r.modules.KeyedBy ModuleEntry.name) (o : Operation) :
    (r.apply o).modules.KeyedBy ModuleEntry.name := by
  cases o with
  | insert m => exact own.insert m
  | remove name => exact own.erase name
  | clear => exact OrdMap.keyedBy_empty

/-- Every module is kept under its own name. -/
theorem run_keyed (operations : List Operation) : (run operations).modules.KeyedBy ModuleEntry.name :=
  List.foldlRecOn (motive := fun r : Registry => r.modules.KeyedBy ModuleEntry.name) operations apply
    OrdMap.keyedBy_empty fun _ own o _ => apply_keyed own o

/-! ## Names below others -/

/-- The full name ends in a dot and the requested name. -/
def EndsIn (full requested : String) : Prop := ∃ before, full.toList = before ++ '.' :: requested.toList

theorem hasSuffix_eq {full requested : String} :
    hasSuffix full requested = true ↔ segments requested <:+ segments full :=
  List.isSuffixOf_iff_suffix

theorem suffix_iff {full requested : String} :
    segments requested <:+ segments full ↔ full = requested ∨ EndsIn full requested := by
  rw [segments, segments, fields_suffix_iff, String.toList_inj, EndsIn]

theorem EndsIn.ne {full requested : String} (h : EndsIn full requested) : full ≠ requested := by
  rintro rfl
  obtain ⟨before, same⟩ := h
  have lengths := congrArg List.length same
  simp only [List.length_append, List.length_cons] at lengths
  omega

/-- The names that end in a requested one are the other names with its segments last. -/
theorem endsIn_iff {full requested : String} :
    EndsIn full requested ↔ full ≠ requested ∧ segments requested <:+ segments full := by
  rw [suffix_iff]
  constructor
  · exact fun ends => ⟨ends.ne, .inr ends⟩
  · rintro ⟨other, same | ends⟩
    · exact absurd same other
    · exact ends

/-! ## The order of names -/

/-- Fewer segments; or as many, and fewer bytes; or as many of both, and earlier in order. -/
def Shorter (a b : String) : Prop :=
  (segments a).length < (segments b).length ∨
    (segments a).length = (segments b).length ∧
      (a.utf8ByteSize < b.utf8ByteSize ∨ a.utf8ByteSize = b.utf8ByteSize ∧ a < b)

theorem compareNames_eq_lt {a b : String} : compareNames a b = .lt ↔ Shorter a b := by
  simp only [compareNames, Shorter, Ordering.then_eq_lt, Ordering.then_eq_eq, Nat.compare_eq_lt, Nat.compare_eq_eq,
    show compare a b = .lt ↔ a < b from compareOfLessAndEq_eq_lt]
  constructor
  · rintro ((fewer | ⟨same, smaller⟩) | ⟨⟨same, even⟩, earlier⟩)
    · exact .inl fewer
    · exact .inr ⟨same, .inl smaller⟩
    · exact .inr ⟨same, .inr ⟨even, earlier⟩⟩
  · rintro (fewer | ⟨same, smaller | ⟨even, earlier⟩⟩)
    · exact .inl (.inl fewer)
    · exact .inl (.inr ⟨same, smaller⟩)
    · exact .inr ⟨⟨same, even⟩, earlier⟩

instance : Std.TransCmp compareNames :=
  inferInstanceAs (Std.TransCmp (compareLex
    (compareLex (compareOn fun a : String => (segments a).length) (compareOn String.utf8ByteSize)) compare))

instance : Std.LawfulEqCmp compareNames where
  eq_of_compare h := Std.LawfulEqCmp.eq_of_compare (Ordering.then_eq_eq.mp h).2

/-! ## The least of several modules -/

section Shortest

variable {l l' : List ModuleEntry} {m : ModuleEntry}

/-- The better one of two modules, the first one if they are even. -/
def shorter (best n : ModuleEntry) : ModuleEntry := if compareNames n.name best.name == .lt then n else best

/-- The name of one module comes no later than the name of the other. -/
def NoLonger (m n : ModuleEntry) : Prop := (compareNames m.name n.name).isLE = true

theorem shorter_picks : Picks NoLonger shorter where
  refl _ := Std.ReflCmp.isLE_rfl
  trans := Std.TransCmp.isLE_trans
  left best n := by
    rw [shorter]
    split
    · rename_i less
      exact Ordering.isLE_of_eq_lt (by simpa using less)
    · exact Std.ReflCmp.isLE_rfl
  right best n := by
    rw [shorter]
    split
    · exact Std.ReflCmp.isLE_rfl
    · rename_i more
      by_contra longer
      exact more (by simpa using Std.OrientedCmp.lt_of_not_isLE longer)
  either best n := by
    rw [shorter]
    split
    · exact .inr rfl
    · exact .inl rfl

theorem shortest?_eq_none : shortest? l = none ↔ l = [] := by
  cases l <;> simp [shortest?]

/-- Among modules of different names the least one is the only one that is shorter than all others. -/
theorem shortest?_eq_some (distinct : (l.map ModuleEntry.name).Nodup) :
    shortest? l = some m ↔ m ∈ l ∧ ∀ n ∈ l, n ≠ m → Shorter m.name n.name := by
  have least : ∀ {m}, shortest? l = some m → m ∈ l ∧ ∀ n ∈ l, n ≠ m → Shorter m.name n.name := by
    intro m found
    cases l with
    | nil => cases found
    | cons a l =>
        obtain rfl : l.foldl shorter a = m := Option.some.inj found
        obtain ⟨member, least⟩ := shorter_picks.foldl a l
        refine ⟨member, fun n listed other => ?_⟩
        rw [← compareNames_eq_lt]
        refine (Ordering.isLE_iff_eq_lt_or_eq_eq.mp (least n listed)).resolve_right fun even => ?_
        exact other (eq_of_nodup_map distinct listed member (Std.LawfulEqCmp.eq_of_compare even).symm)
  constructor
  · exact least
  · rintro ⟨member, before⟩
    cases found : shortest? l with
    | none => rw [shortest?_eq_none.mp found] at member; cases member
    | some n =>
        obtain ⟨listed, first⟩ := least found
        by_contra other
        have other : n ≠ m := fun same => other (congrArg some same)
        have less := compareNames_eq_lt.mpr (before n listed other)
        rw [Std.OrientedCmp.gt_of_lt (compareNames_eq_lt.mpr (first m member other.symm))] at less
        cases less

/-- What is least does not depend on how the modules are listed. -/
theorem shortest?_congr (distinct : (l.map ModuleEntry.name).Nodup) (distinct' : (l'.map ModuleEntry.name).Nodup)
    (same : ∀ m, m ∈ l ↔ m ∈ l') : shortest? l = shortest? l' := by
  apply Option.ext
  intro m
  rw [shortest?_eq_some distinct, shortest?_eq_some distinct', same]
  simp only [same]

end Shortest

/-! ## Resolution -/

variable {r : Registry} {m : ModuleEntry} {name : String}

/-- A module whose name ends in the requested one, and the shortest of them. -/
structure Meant (r : Registry) (name : String) (m : ModuleEntry) : Prop where
  resident : m ∈ r.toList
  ends : EndsIn m.name name
  least : ∀ n ∈ r.toList, EndsIn n.name name → n ≠ m → Shorter m.name n.name

/-- Resolution over a listing of the modules. -/
def resolveIn (listing : List ModuleEntry) (name : String) : Option ModuleEntry :=
  if name.isEmpty then none
  else
    match listing.find? fun m => m.name = name with
    | some m => some m
    | none => shortest? (listing.filter fun m => hasSuffix m.name name)

/-- The modules that a name may mean by its last segments. -/
def candidates (r : Registry) (name : String) : List ModuleEntry := r.toList.filter fun m => hasSuffix m.name name

theorem mem_candidates : m ∈ r.candidates name ↔ m ∈ r.toList ∧ (m.name = name ∨ EndsIn m.name name) := by
  rw [candidates, List.mem_filter, hasSuffix_eq, suffix_iff]

theorem nodup_candidates (own : r.modules.KeyedBy ModuleEntry.name) (name : String) :
    ((r.candidates name).map ModuleEntry.name).Nodup :=
  own.nodup.sublist (List.filter_sublist.map _)

theorem resolve?_empty (r : Registry) : r.resolve? "" = none := rfl

theorem resolve?_of_get? (named : name ≠ "") (found : r.get? name = some m) : r.resolve? name = some m := by
  simp [resolve?, named, found]

theorem resolve?_of_absent (named : name ≠ "") (absent : r.get? name = none) :
    r.resolve? name = shortest? (r.candidates name) := by
  simp [resolve?, named, absent, candidates]

/-- No module has a name that is absent. -/
theorem ne_of_absent (own : r.modules.KeyedBy ModuleEntry.name) (absent : r.get? name = none) (member : m ∈ r.toList) :
    m.name ≠ name := by
  rintro rfl
  rw [(mem_toList own).mp member] at absent
  cases absent

theorem resolve?_eq_some (own : r.modules.KeyedBy ModuleEntry.name) (named : name ≠ "") (absent : r.get? name = none) :
    r.resolve? name = some m ↔ r.Meant name m := by
  have suffix : ∀ n, n ∈ r.candidates name ↔ n ∈ r.toList ∧ EndsIn n.name name := by
    intro n
    rw [mem_candidates]
    exact and_congr_right fun member => or_iff_right (ne_of_absent own absent member)
  rw [resolve?_of_absent named absent, shortest?_eq_some (nodup_candidates own name)]
  constructor
  · rintro ⟨member, least⟩
    obtain ⟨resident, ends⟩ := (suffix m).mp member
    exact ⟨resident, ends, fun n listed also => least n ((suffix n).mpr ⟨listed, also⟩)⟩
  · rintro ⟨resident, ends, least⟩
    refine ⟨(suffix m).mpr ⟨resident, ends⟩, fun n listed => ?_⟩
    obtain ⟨listed, also⟩ := (suffix n).mp listed
    exact least n listed also

theorem resolve?_eq_none (own : r.modules.KeyedBy ModuleEntry.name) (named : name ≠ "") (absent : r.get? name = none) :
    r.resolve? name = none ↔ ∀ n ∈ r.toList, ¬EndsIn n.name name := by
  rw [resolve?_of_absent named absent, shortest?_eq_none, List.eq_nil_iff_forall_not_mem]
  refine forall_congr' fun n => ?_
  rw [mem_candidates, not_and]
  exact imp_congr_right fun member => by simp [ne_of_absent own absent member]

/-- The order in which the modules are listed does not matter. -/
theorem resolveIn_perm (own : r.modules.KeyedBy ModuleEntry.name) {listing : List ModuleEntry}
    (perm : listing.Perm r.toList) (name : String) : resolveIn listing name = r.resolve? name := by
  have first : (listing.find? fun m => m.name = name) = r.get? name := own.find?_perm perm name
  have least : shortest? (listing.filter fun m => hasSuffix m.name name) = shortest? (r.candidates name) := by
    have kept := perm.filter fun m => hasSuffix m.name name
    exact shortest?_congr (((kept.map _).nodup_iff).mpr (nodup_candidates own name)) (nodup_candidates own name)
      fun m => kept.mem_iff
  rw [resolveIn, resolve?, first, least]
  rfl

/-- Two registries that agree on the name and on the modules that it may mean resolve it alike. -/
theorem resolve?_congr {s : Registry} (own : r.modules.KeyedBy ModuleEntry.name)
    (own' : s.modules.KeyedBy ModuleEntry.name) (exact : s.get? name = r.get? name)
    (same : ∀ m, m.name = name ∨ EndsIn m.name name → (m ∈ s.toList ↔ m ∈ r.toList)) :
    s.resolve? name = r.resolve? name := by
  have least : shortest? (s.candidates name) = shortest? (r.candidates name) := by
    refine shortest?_congr (nodup_candidates own' name) (nodup_candidates own name) fun m => ?_
    rw [mem_candidates, mem_candidates]
    exact and_congr_left fun may => same m may
  simp only [resolve?, exact]
  simp only [candidates] at least
  rw [least]

theorem get?_insert (r : Registry) (m : ModuleEntry) (name : String) :
    (r.insert m).get? name = if name = m.name then some m else r.get? name :=
  OrdMap.get?_insert r.modules m.name m name

theorem get?_remove (r : Registry) (gone name : String) :
    (r.remove gone).get? name = if name = gone then none else r.get? name :=
  OrdMap.get?_erase r.modules gone name

theorem resolve?_insert (own : r.modules.KeyedBy ModuleEntry.name) (other : name ≠ m.name)
    (apart : ¬EndsIn m.name name) : (r.insert m).resolve? name = r.resolve? name := by
  have own' : (r.insert m).modules.KeyedBy ModuleEntry.name := own.insert m
  refine resolve?_congr own own' (by rw [get?_insert, if_neg other]) fun n may => ?_
  have different : n.name ≠ m.name := by
    intro same
    rw [same] at may
    exact may.elim (fun here => other here.symm) apart
  rw [mem_toList own', mem_toList own, get?_insert, if_neg different]

theorem resolve?_remove (own : r.modules.KeyedBy ModuleEntry.name) {gone : String} (other : name ≠ gone)
    (apart : ¬EndsIn gone name) : (r.remove gone).resolve? name = r.resolve? name := by
  refine resolve?_congr own (own.erase gone) (by rw [get?_remove, if_neg other]) fun n may => ?_
  rw [mem_toList_remove own]
  refine and_iff_left ?_
  rintro rfl
  exact may.elim (fun here => other here.symm) apart

/-! ## Components -/

/-- A component of the declared version is there for a request of the other version if one of the versions is not
    given or not readable, or the major numbers agree and the declared minor number is not the greater one. -/
def Compatible (declared requested : Option String) : Prop :=
  declared = none ∨ requested = none ∨ declared.bind Version.parse? = none ∨ requested.bind Version.parse? = none ∨
    ∃ d r, declared.bind Version.parse? = some d ∧ requested.bind Version.parse? = some r ∧
      d.major = r.major ∧ d.minor ≤ r.minor

theorem isVisibleAt_iff {c : Component} {version : Option String} :
    c.isVisibleAt version = true ↔ Compatible c.version version := by
  obtain ⟨_, _, _, _, declared⟩ := c
  cases declared with
  | none => simp [Component.isVisibleAt, Compatible]
  | some declared =>
      cases version with
      | none => simp [Component.isVisibleAt, Compatible]
      | some requested =>
          simp only [Component.isVisibleAt, Version.satisfies, Compatible, Option.bind_some]
          cases Version.parse? declared <;> cases Version.parse? requested <;> simp

theorem lookup?_eq_some : r.lookup? name = some m ↔
    r.resolve? name = some m ∨ r.resolve? name = none ∧ Builtins.registry.resolve? name = some m := by
  rw [lookup?]
  cases r.resolve? name <;> simp

theorem lookupComponent?_eq_some {component : String} {version : Option String} {c : Component} :
    r.lookupComponent? name component version = some c ↔
      ∃ m, r.lookup? name = some m ∧ m.components.get? component = some c ∧ Compatible c.version version := by
  simp only [lookupComponent?, Option.bind_eq_some_iff, ModuleEntry.component?, Option.filter_eq_some_iff,
    isVisibleAt_iff]

/-- The builtin modules are a registry like any other. -/
theorem builtins_run : ∃ operations, run operations = Builtins.registry := by
  refine ⟨Builtins.catalog.map fun entry => .insert
    { name := entry.1, version := entry.2.1, manifest := none, lastModified := none
      components := OrdMap.ofList (entry.2.2.map fun c => (c.1, Builtins.component c.1 c.2.1 c.2.2)) }, ?_⟩
  rw [run, List.foldl_map]
  rfl

/-! ## What resolution promises -/

/-- What a name resolves to. -/
structure Resolves (r : Registry) (name : String) : Prop where
  nameless : name = "" → r.resolve? name = none
  exact : ∀ m, name ≠ "" → r.get? name = some m → r.resolve? name = some m
  suffix : ∀ m, name ≠ "" → r.get? name = none → (r.resolve? name = some m ↔ r.Meant name m)
  absent : name ≠ "" → r.get? name = none → (r.resolve? name = none ↔ ∀ n ∈ r.toList, ¬EndsIn n.name name)
  unordered : ∀ listing, listing.Perm r.toList → resolveIn listing name = r.resolve? name

theorem resolves (own : r.modules.KeyedBy ModuleEntry.name) (name : String) : r.Resolves name where
  nameless := by
    rintro rfl
    exact resolve?_empty r
  exact _ := resolve?_of_get?
  suffix _ := resolve?_eq_some own
  absent := resolve?_eq_none own
  unordered _ perm := resolveIn_perm own perm name

/-- A name resolves to the module of that name, or else to the only shortest one of those whose names end in it, and
    nothing else about the registry matters: not how it came about, in what order its modules are listed, or which
    modules it has that the name cannot mean. A component is found in that module, or else in the builtin one, if its
    version goes with the requested one. -/
theorem resolution_exact (operations : List Operation) (name : String) :
    (run operations).Resolves name ∧ Builtins.registry.Resolves name ∧
      (∀ full, EndsIn full name ↔ full ≠ name ∧ segments name <:+ segments full) ∧
      (∀ others, (∀ n, (run others).get? n = (run operations).get? n) →
        (run others).resolve? name = (run operations).resolve? name) ∧
      (∀ m, ((run operations).insert m).resolve? name ≠ (run operations).resolve? name →
        name = m.name ∨ EndsIn m.name name) ∧
      (∀ gone, ((run operations).remove gone).resolve? name ≠ (run operations).resolve? name →
        name = gone ∨ EndsIn gone name) ∧
      ∀ component version c, (run operations).lookupComponent? name component version = some c ↔
        ∃ m, ((run operations).resolve? name = some m ∨
            (run operations).resolve? name = none ∧ Builtins.registry.resolve? name = some m) ∧
          m.components.get? component = some c ∧ Compatible c.version version := by
  have own := run_keyed operations
  obtain ⟨catalog, builtin⟩ := builtins_run
  refine ⟨resolves own name, builtin ▸ resolves (run_keyed catalog) name, fun full => endsIn_iff, ?_, ?_, ?_, ?_⟩
  · intro others same
    have equal : (run others).modules = (run operations).modules := OrdMap.ext_get? same
    exact congrArg (fun modules => (Registry.mk modules).resolve? name) equal
  · intro m changed
    by_contra apart
    rw [not_or] at apart
    exact changed (resolve?_insert own apart.1 apart.2)
  · intro gone changed
    by_contra apart
    rw [not_or] at apart
    exact changed (resolve?_remove own apart.1 apart.2)
  · intro component version c
    rw [lookupComponent?_eq_some]
    simp only [lookup?_eq_some]

/-! ## Four modules of one last segment -/

/-- A module with one component, of version 1.2. -/
def gauges (name : String) : ModuleEntry where
  name
  version := "1.2"
  manifest := none
  lastModified := none
  components := OrdMap.ofList
    [("Dial", { name := "Dial", file := none, isBuiltin := false, isSingleton := false, version := some "1.2" })]

def ambiguous : List Operation :=
  ["B.Gauges", "Deep.Nested.Gauges", "A.Gauges", "Longer.Gauges"].map fun name => .insert (gauges name)

theorem resolution_exact_ambiguous :
    (run ambiguous).get? "Gauges" = none ∧ (run ambiguous).Meant "Gauges" (gauges "A.Gauges") ∧
      (run ambiguous.reverse).resolve? "Gauges" = some (gauges "A.Gauges") ∧
      ((run ambiguous).remove "A.Gauges").resolve? "Gauges" = some (gauges "B.Gauges") ∧
      EndsIn "A.Gauges" "Gauges" := by
  have absent : (run ambiguous).get? "Gauges" = none := by decide
  have resolved : (run ambiguous).resolve? "Gauges" = some (gauges "A.Gauges") := by decide
  have second : ((run ambiguous).remove "A.Gauges").resolve? "Gauges" = some (gauges "B.Gauges") := by decide
  have same : run ambiguous.reverse = run ambiguous := by decide
  obtain ⟨resolves, _, _, contents, _, removed, _⟩ := resolution_exact ambiguous "Gauges"
  have changed : ((run ambiguous).remove "A.Gauges").resolve? "Gauges" ≠ (run ambiguous).resolve? "Gauges" := by
    rw [second, resolved]
    decide
  refine ⟨absent, (resolves.suffix _ (by decide) absent).mp resolved, ?_, second, ?_⟩
  · rw [contents ambiguous.reverse (fun n => by rw [same]), resolved]
  · exact (removed "A.Gauges" changed).resolve_left (by decide)

/-- A component is not found by a request for a smaller minor number, though the major numbers agree. -/
theorem hidden_before_its_minor :
    ¬∀ (operations : List Operation) (name component : String) (version : Option String) (c : Component),
      (run operations).lookupComponent? name component version = some c ↔
        ∃ m, (run operations).lookup? name = some m ∧ m.components.get? component = some c ∧
          (c.version = none ∨ version = none ∨ c.version.bind Version.parse? = none ∨
            version.bind Version.parse? = none ∨ ∃ d r, c.version.bind Version.parse? = some d ∧
              version.bind Version.parse? = some r ∧ d.major = r.major) := by
  intro claimed
  have hidden : (run ambiguous).lookupComponent? "A.Gauges" "Dial" (some "1.1") = none := by decide
  have resolved : (run ambiguous).lookup? "A.Gauges" = some (gauges "A.Gauges") := by decide
  have found := (claimed ambiguous "A.Gauges" "Dial" (some "1.1")
    { name := "Dial", file := none, isBuiltin := false, isSingleton := false, version := some "1.2" }).mpr
      ⟨_, resolved, by decide,
        .inr (.inr (.inr (.inr ⟨⟨1, 2⟩, ⟨1, 1⟩, by decide, by decide, rfl⟩)))⟩
  rw [hidden] at found
  cases found

end Registry

end QmlIndex
