import QmlIndex.FileTree
import QmlIndex.Proofs.Lookup
import QmlIndex.Proofs.PlainPath

/-! # What a change of one file leaves alone

Writing or removing the file at a place, and making directories for it, changes nothing that is at another
place. A file that can be read stays readable through such a change, with the same content and time,
unless it is the one that was changed.
-/

namespace QmlIndex

/-- A sequence of two steps succeeds if both do. -/
theorem bind_eq_ok {α β : Type} {x : Result α} {f : α → Result β} {b : β} :
    (x >>= f) = .ok b ↔ ∃ a, x = .ok a ∧ f a = .ok b := by
  cases x with
  | error e => simp [bind, Except.bind]
  | ok a => simp [bind, Except.bind]

/-- A sequence of two steps fails if one of them does. -/
theorem bind_eq_error {α β : Type} {x : Result α} {f : α → Result β} {e : Error} :
    (x >>= f) = .error e ↔ x = .error e ∨ ∃ a, x = .ok a ∧ f a = .error e := by
  cases x with
  | error e => simp [bind, Except.bind]
  | ok a => simp [bind, Except.bind]

namespace FileTree

/-- There is a directory at a place. -/
def HasDirectory (t : FileTree) (place : Path) : Prop := ∃ modified, t.at? place = some (.directory modified)

/-- All that is there stays, except perhaps at one place. -/
def KeepsBut (place : Path) (t after : FileTree) : Prop :=
  ∀ q node, q ≠ place → t.at? q = some node → after.at? q = some node

theorem at?_insert (t : FileTree) (place : Path) (node : Node) {q : Path} (other : q ≠ place) :
    at? { t with nodes := t.nodes.insert place node } q = t.at? q := by
  simp only [at?, OrdMap.get?_insert, if_neg other]

theorem at?_erase (t : FileTree) (place : Path) {q : Path} (other : q ≠ place) :
    at? { t with nodes := t.nodes.erase place } q = t.at? q := by
  simp only [at?, OrdMap.get?_erase, if_neg other]

theorem hasDirectory_rootDir (t : FileTree) : t.HasDirectory .rootDir := ⟨t.modified, if_pos rfl⟩

theorem enter_eq_ok {t : FileTree} {place : Path} : t.enter place = .ok () ↔ t.HasDirectory place := by
  rw [enter, HasDirectory]
  split <;> simp_all

/-- A path that can be followed can be followed wherever the directories are still there. -/
theorem follow_of_directories {t after : FileTree}
    (kept : ∀ q, t.HasDirectory q → after.HasDirectory q) {here place : Path}
    {parts : List Part} (h : t.follow here parts = .ok place) : after.follow here parts = .ok place := by
  have enters : ∀ q, t.enter q = .ok () → after.enter q = .ok () := by
    intro q
    rw [enter_eq_ok, enter_eq_ok]
    exact kept q
  induction parts generalizing here with
  | nil => exact h
  | cons part rest ih =>
      cases part with
      | root => exact ih h
      | current | parent | name =>
          rw [follow, bind_eq_ok] at h ⊢
          obtain ⟨_, entered, further⟩ := h
          exact ⟨(), enters here entered, ih further⟩

theorem follow_names {t : FileTree} {here place : Path} {names : List String}
    (h : t.follow here (names.map Part.name) = .ok place) : place = ⟨here.parts ++ names.map Part.name⟩ := by
  induction names generalizing here with
  | nil =>
      simp only [List.map_nil, follow, Except.ok.injEq] at h
      simp [h]
  | cons text rest ih =>
      rw [List.map_cons, follow, bind_eq_ok] at h
      obtain ⟨_, _, further⟩ := h
      simpa [Path.child] using ih further

/-- A plain path names the place it spells. -/
theorem locate_plain {t : FileTree} {p place : Path} (plain : p.Plain) (h : t.locate p = .ok place) :
    place = p := by
  obtain ⟨names, shape⟩ := plain
  rw [locate, shape] at h
  have last : place = ⟨Path.rootDir.parts ++ names.map Part.name⟩ := follow_names h
  rw [last]
  exact congrArg Path.mk shape.symm

theorem find_eq_ok {t : FileTree} {p : Path} {node : Node} :
    t.find p = .ok node ↔ ∃ place, t.locate p = .ok place ∧ t.at? place = some node := by
  rw [find, bind_eq_ok]
  refine exists_congr fun place => and_congr_right fun _ => ?_
  split <;> simp_all

theorem file_eq_ok {t : FileTree} {p : Path} {f : File} : t.file p = .ok f ↔ t.find p = .ok (.file f) := by
  rw [file, bind_eq_ok]
  constructor
  · rintro ⟨node, found, same⟩
    cases node with
    | directory => simp at same
    | file g => rw [found, Except.ok.inj same]
  · intro found
    exact ⟨.file f, found, rfl⟩

theorem isFile_iff {t : FileTree} {p : Path} : t.isFile p = true ↔ ∃ f, t.file p = .ok f := by
  simp only [file_eq_ok, isFile]
  split
  · rename_i f found
    simp [found]
  · rename_i other
    simpa using other

theorem hasTime_iff {t : FileTree} {p : Path} {time : Option Timestamp} :
    t.hasTime p time = true ↔ t.time? p = time := by
  rw [hasTime, beq_iff_eq]

theorem get?_of_isFile {t : FileTree} {p : Path} (plain : p.Plain) (h : t.isFile p = true) :
    ∃ f, t.at? p = some (.file f) := by
  obtain ⟨f, found⟩ := isFile_iff.mp h
  obtain ⟨place, located, there⟩ := find_eq_ok.mp (file_eq_ok.mp found)
  obtain rfl := locate_plain plain located
  exact ⟨f, there⟩

/-- A file stays as it is through a change at another place that is no directory. -/
theorem file_of_keepsBut {t after : FileTree} {place p : Path} {f : File} (kept : KeepsBut place t after)
    (no_directory : ¬ t.HasDirectory place) (plain : p.Plain) (other : p ≠ place)
    (h : t.file p = .ok f) : after.file p = .ok f := by
  obtain ⟨there, located, found⟩ := find_eq_ok.mp (file_eq_ok.mp h)
  obtain rfl := locate_plain plain located
  have directories : ∀ q, t.HasDirectory q → after.HasDirectory q := by
    intro q directory
    have other : q ≠ place := by
      rintro rfl
      exact no_directory directory
    exact directory.imp fun modified there => kept q _ other there
  refine file_eq_ok.mpr (find_eq_ok.mpr ⟨there, ?_, kept there _ other found⟩)
  exact follow_of_directories directories located

/-! ## Changes -/

/-- Put a file at a path, in directories that are made if need be and are as old as the file. -/
def put (t : FileTree) (p : Path) (f : File) : Result FileTree := do
  let t ← t.makeDirectories (p.parent?.getD p) f.modified
  t.write p f

theorem makeAll_keeps {t after : FileTree} {modified : Timestamp} {places : List Path}
    (h : t.makeAll modified places = .ok after) {q : Path} {node : Node} (there : t.at? q = some node) :
    after.at? q = some node := by
  induction places generalizing t with
  | nil =>
      obtain rfl : t = after := Except.ok.inj h
      exact there
  | cons place rest ih =>
      simp only [makeAll] at h
      split at h
      · exact ih h there
      · simp at h
      · rename_i nothing
        apply ih h
        rw [at?_insert t place (.directory modified)]
        · exact there
        · rintro rfl
          simp [nothing] at there

theorem write_keepsBut {t after : FileTree} {p : Path} {f : File} (plain : p.Plain)
    (h : t.write p f = .ok after) : KeepsBut p t after ∧ ¬ t.HasDirectory p := by
  rw [write, bind_eq_ok] at h
  obtain ⟨place, located, written⟩ := h
  obtain rfl := locate_plain plain located
  split at written
  · simp at written
  · rename_i no_directory
    obtain rfl := Except.ok.inj written
    refine ⟨fun q node other there => ?_, fun directory => directory.elim no_directory⟩
    rw [at?_insert t place (.file f) other]
    exact there

theorem put_keepsBut {t after : FileTree} {p : Path} {f : File} (plain : p.Plain)
    (h : t.put p f = .ok after) : KeepsBut p t after ∧ ¬ t.HasDirectory p := by
  rw [put, bind_eq_ok] at h
  obtain ⟨ready, made, written⟩ := h
  obtain ⟨kept, no_directory⟩ := write_keepsBut plain written
  refine ⟨fun q node other there => kept q node other (makeAll_keeps made there), ?_⟩
  rintro ⟨modified, directory⟩
  exact no_directory ⟨modified, makeAll_keeps made directory⟩

theorem removeFile_keepsBut {t after : FileTree} {p : Path} (plain : p.Plain)
    (h : t.removeFile p = .ok after) : KeepsBut p t after ∧ ¬ t.HasDirectory p := by
  rw [removeFile, bind_eq_ok] at h
  obtain ⟨place, located, removed⟩ := h
  obtain rfl := locate_plain plain located
  split at removed
  · rename_i f found
    obtain rfl := Except.ok.inj removed
    refine ⟨fun q node other there => ?_, by simp [HasDirectory, found]⟩
    rw [at?_erase t place other]
    exact there
  · simp at removed
  · simp at removed

/-! ## Writing -/

/-- A file can be put at a path: the directories on the way are there, and it leads to no directory. -/
def Accepts (t : FileTree) (p : Path) : Prop := ∃ place, t.locate p = .ok place ∧ ¬ t.HasDirectory place

theorem write_eq_ok {t after : FileTree} {p : Path} {f : File} : t.write p f = .ok after ↔
    ∃ place, t.locate p = .ok place ∧ ¬ t.HasDirectory place ∧
      after = { t with nodes := t.nodes.insert place (.file f) } := by
  rw [write, bind_eq_ok]
  refine exists_congr fun place => and_congr_right fun _ => ?_
  split
  · rename_i modified directory
    simp [HasDirectory, directory]
  · rename_i free
    rw [Except.ok.injEq]
    exact ⟨fun same => ⟨fun directory => directory.elim free, same.symm⟩, fun written => written.2.symm⟩

theorem accepts_iff {t : FileTree} {p : Path} (f : File) : t.Accepts p ↔ ∃ after, t.write p f = .ok after := by
  simp only [write_eq_ok]
  constructor
  · rintro ⟨place, located, free⟩
    exact ⟨_, place, located, free, rfl⟩
  · rintro ⟨_, place, located, free, _⟩
    exact ⟨place, located, free⟩

/-- A file that was written is there. -/
theorem file_of_write {t after : FileTree} {p : Path} {f : File} (written : t.write p f = .ok after) :
    after.file p = .ok f := by
  obtain ⟨place, located, free, rfl⟩ := write_eq_ok.mp written
  have below : place ≠ .rootDir := by
    rintro rfl
    exact free t.hasDirectory_rootDir
  have kept : ∀ q, t.HasDirectory q → HasDirectory { t with nodes := t.nodes.insert place (.file f) } q := by
    rintro q ⟨modified, directory⟩
    refine ⟨modified, ?_⟩
    rw [at?_insert t place (.file f)]
    · exact directory
    · rintro rfl
      exact free ⟨modified, directory⟩
  refine file_eq_ok.mpr (find_eq_ok.mpr ⟨place, follow_of_directories kept located, ?_⟩)
  rw [at?, if_neg below, OrdMap.get?_insert, if_pos rfl]

theorem contains_of_file {t : FileTree} {p : Path} {f : File} (there : t.file p = .ok f) : t.contains p = true := by
  rw [contains, file_eq_ok.mp there]

theorem text_of_writeText {t after : FileTree} {p : Path} {text : String} (written : t.writeText p text = .ok after) :
    after.text p = .ok text := by
  have decoded : String.fromUTF8? text.toUTF8 = some text := dif_pos text.isValidUTF8
  rw [FileTree.text, bind_eq_ok]
  exact ⟨_, file_of_write written, by simp only [decoded]⟩

theorem follow_fails {t : FileTree} {here : Path} {parts : List Part} {e : Error} (failed : t.follow here parts = .error e) :
    ∃ text, e = .io text := by
  have enters : ∀ q, t.enter q = .error e → ∃ text, e = .io text := by
    intro q failed
    rw [enter] at failed
    split at failed <;> cases failed
    · exact ⟨_, rfl⟩
    · exact ⟨_, rfl⟩
  induction parts generalizing here with
  | nil => cases failed
  | cons part rest ih =>
      cases part with
      | root => exact ih failed
      | current | parent | name =>
          rw [follow] at failed
          rcases bind_eq_error.mp failed with barred | ⟨_, _, failed⟩
          · exact enters here barred
          · exact ih failed

/-- What can go wrong when a file is written has to do with files. -/
theorem write_fails {t : FileTree} {p : Path} {f : File} {e : Error} (failed : t.write p f = .error e) :
    ∃ text, e = .io text := by
  rw [write] at failed
  rcases bind_eq_error.mp failed with astray | ⟨place, _, failed⟩
  · exact follow_fails astray
  · split at failed <;> cases failed
    exact ⟨_, rfl⟩

/-! ## Paths as they are given -/

variable {t after : FileTree} {here place p cwd : Path} {path text : String}

/-- What a `.` at the end lets through is a directory. -/
theorem follow_current {parts : List Part} (h : t.follow here (parts ++ [.current]) = .ok place) :
    t.HasDirectory place := by
  induction parts generalizing here with
  | nil =>
      obtain ⟨_, entered, same⟩ := bind_eq_ok.mp h
      obtain rfl := Except.ok.inj same
      exact enter_eq_ok.mp entered
  | cons part rest ih =>
      cases part with
      | root => exact ih h
      | current | parent | name =>
          rw [List.cons_append, follow, bind_eq_ok] at h
          obtain ⟨_, _, further⟩ := h
          exact ih further

/-- A file can be put where the text of a path leads. -/
def AcceptsGiven (t : FileTree) (cwd : Path) (path : String) : Prop := ∃ p, given cwd path = .ok p ∧ t.Accepts p

theorem not_accepts_of_wantsDirectory (directory : Path.wantsDirectory path = true) (h : given cwd path = .ok p) :
    ¬ t.Accepts p := by
  rintro ⟨place, located, free⟩
  simp only [given, directory] at h
  split at h
  · cases h
  · split at h
    · cases h
    · obtain rfl := Except.ok.inj h
      exact free (follow_current located)

theorem wantsDirectory_of_endsInSeparator (h : Path.endsInSeparator path = true) :
    Path.wantsDirectory path = true := by
  rw [Path.endsInSeparator] at h
  split at h
  · rename_i rest reversed
    have last : (Text.fields '/' path.toList).getLast? = some [] := by
      rw [List.getLast?_eq_head?_reverse, reversed]
      rfl
    simp [Path.wantsDirectory, last]
  · cases h

/-- A text is written at the path that is given, whatever the spelling of the path. -/
theorem writeTextGiven_eq_ok : t.writeTextGiven cwd path text = .ok after ↔
    ∃ p, given cwd path = .ok p ∧ t.writeText p text = .ok after := by
  rw [writeTextGiven, bind_eq_ok]
  refine exists_congr fun p => and_congr_right fun h => ?_
  split
  · rename_i separator
    constructor
    · intro written
      obtain ⟨_, _, failed⟩ := bind_eq_ok.mp written
      cases failed
    · intro written
      have directory := wantsDirectory_of_endsInSeparator separator
      exact absurd ((accepts_iff _).mpr ⟨after, written⟩) (not_accepts_of_wantsDirectory directory h)
  · rfl

theorem acceptsGiven_iff (text : String) :
    t.AcceptsGiven cwd path ↔ ∃ after, t.writeTextGiven cwd path text = .ok after := by
  simp only [writeTextGiven_eq_ok, AcceptsGiven]
  constructor
  · rintro ⟨p, h, accepted⟩
    obtain ⟨after, written⟩ := (accepts_iff ⟨text.toUTF8, 0⟩).mp accepted
    exact ⟨after, p, h, written⟩
  · rintro ⟨after, p, h, written⟩
    exact ⟨p, h, (accepts_iff _).mpr ⟨after, written⟩⟩

theorem given_fails {e : Error} (failed : given cwd path = .error e) : ∃ text, e = .io text := by
  rw [given] at failed
  split at failed
  · cases failed
    exact ⟨_, rfl⟩
  · split at failed
    · cases failed
      exact ⟨_, rfl⟩
    · split at failed <;> cases failed

theorem writeTextGiven_fails {e : Error} (failed : t.writeTextGiven cwd path text = .error e) :
    ∃ text, e = .io text := by
  rw [writeTextGiven] at failed
  rcases bind_eq_error.mp failed with nowhere | ⟨p, _, failed⟩
  · exact given_fails nowhere
  · split at failed
    · rcases bind_eq_error.mp failed with astray | ⟨_, _, directory⟩
      · exact follow_fails astray
      · cases directory
        exact ⟨_, rfl⟩
    · exact write_fails failed

/-- What was written at a path is there. -/
theorem textGiven_of_writeTextGiven (written : t.writeTextGiven cwd path text = .ok after) :
    after.containsGiven cwd path = true ∧ after.textGiven cwd path = .ok text := by
  obtain ⟨p, h, put⟩ := writeTextGiven_eq_ok.mp written
  refine ⟨?_, bind_eq_ok.mpr ⟨p, h, text_of_writeText put⟩⟩
  simp only [containsGiven, h]
  exact contains_of_file (file_of_write put)

end FileTree

end QmlIndex
