import Mathlib.Algebra.BigOperators.Group.Multiset.Basic
import QmlIndex.Proofs.Index.Provenance

/-! # What a scan comes to

A ledger has the outcome of a scan without the order in which it came about: how many files were parsed and how
many were served from resident entries, which failed, which entries were produced, and the forward half of the
graph. Files are entered one after the other, and two files may be entered in either order: if they are one file
under two names, whichever is first is parsed and the other finds the entry.

A file that is read for ever adds nothing to a ledger. Whether a file is, does not depend on the files that were
entered before it, so a ledger tells of a scan that ends what it would tell without such files.
-/

namespace QmlIndex.SourceIndex

/-- What some files add to the outcome of a scan. -/
@[ext]
structure Account where
  parsed : Nat := 0
  cached : Nat := 0
  failures : Multiset ScanFailure := 0
  /-- The entries that were parsed, without the edges towards them. -/
  produced : Multiset SourceEntry := 0

namespace Account

instance : Zero Account := ⟨{}⟩

@[simp]
theorem zero_produced : (0 : Account).produced = 0 := rfl

instance : Add Account where
  add a b := ⟨a.parsed + b.parsed, a.cached + b.cached, a.failures + b.failures, a.produced + b.produced⟩

@[simp]
theorem add_parsed (a b : Account) : (a + b).parsed = a.parsed + b.parsed := rfl

@[simp]
theorem add_cached (a b : Account) : (a + b).cached = a.cached + b.cached := rfl

@[simp]
theorem add_failures (a b : Account) : (a + b).failures = a.failures + b.failures := rfl

@[simp]
theorem add_produced (a b : Account) : (a + b).produced = a.produced + b.produced := rfl

instance : AddCommMonoid Account where
  add_assoc a b c := by ext1 <;> simp [add_assoc]
  zero_add a := by ext1 <;> exact zero_add _
  add_zero a := by ext1 <;> exact add_zero _
  add_comm a b := by ext1 <;> simp [add_comm]
  nsmul := nsmulRec

/-- What one file adds that is done. -/
def ofResult (path : Path) : Result (SourceEntry × Outcome) → Account
  | .ok (e, .parsed) => { parsed := 1, produced := {e.forward} }
  | .ok (_, .cached) => { cached := 1 }
  | .error fault => { failures := {⟨path, fault.message⟩} }

/-- What one file adds, nothing if it is never done. -/
def ofSeen (path : Path) (seen : Option (Result (SourceEntry × Outcome))) : Account :=
  (seen.map (ofResult path)).getD 0

/-- How many files were accounted for. -/
def size (a : Account) : Nat := a.parsed + a.cached + a.failures.card

theorem size_add (a b : Account) : (a + b).size = a.size + b.size := by
  simp only [size, add_parsed, add_cached, add_failures, Multiset.card_add]
  omega

theorem size_ofResult (path : Path) (result : Result (SourceEntry × Outcome)) : (ofResult path result).size = 1 := by
  rcases result with fault | ⟨e, _ | _⟩ <;> simp [ofResult, size]

end Account

/-! ## Results -/

theorem filter_forward (resident : Option SourceEntry) (hash : String) (time : Timestamp) :
    (resident.map SourceEntry.forward).filter (·.isCurrent hash time) =
      (resident.filter (·.isCurrent hash time)).map SourceEntry.forward := by
  cases resident with
  | none => rfl
  | some e =>
      have same : e.forward.isCurrent hash time = e.isCurrent hash time := rfl
      by_cases current : e.isCurrent hash time <;> simp [Option.filter_some, same, current]

/-- The edges towards a resident entry make no difference to what becomes of its file. -/
theorem examine_forward (t : FileTree) (u : FileUri) (resident : Option SourceEntry) :
    examine t u (resident.map SourceEntry.forward) =
      (examine t u resident).map (·.map fun result => (result.1.forward, result.2)) := by
  cases found : t.file u with
  | error fault => simp [examine, found, Except.map]
  | ok f =>
      simp only [examine, found, filter_forward]
      cases resident.filter (·.isCurrent (Digest.ofBytes f.content.toList) f.time) with
      | some e => rfl
      | none =>
          cases String.fromUTF8? f.content with
          | none => rfl
          | some text =>
              simp only [Option.map_none]
              rcases readDocument text with _ | fault | d <;> rfl

/-- The forward half after one file. -/
def renew (u : FileUri) (seen : Option (Result (SourceEntry × Outcome))) (forward : FileUri → Option SourceEntry) :
    FileUri → Option SourceEntry :=
  match seen with
  | some (.ok (e, .parsed)) => Function.update forward u (some e.forward)
  | _ => forward

theorem renew_of_ne {u v : FileUri} (other : v ≠ u) (seen : Option (Result (SourceEntry × Outcome)))
    (forward : FileUri → Option SourceEntry) : renew u seen forward v = forward v := by
  rcases seen with _ | fault | ⟨e, _ | _⟩ <;> simp [renew, other]

theorem renew_comm {u v : FileUri} (other : u ≠ v) (first second : Option (Result (SourceEntry × Outcome)))
    (forward : FileUri → Option SourceEntry) :
    renew v second (renew u first forward) = renew u first (renew v second forward) := by
  rcases first with _ | fault | ⟨e, _ | _⟩ <;> rcases second with _ | fault | ⟨d, _ | _⟩ <;>
    simp only [renew, Function.update_comm other]

/-! ## Ledgers -/

@[ext]
structure Ledger where
  account : Account
  /-- The forward half of the graph. -/
  forward : FileUri → Option SourceEntry

namespace Ledger

variable {t : FileTree}

/-- Enter one more file. -/
def enter (t : FileTree) (l : Ledger) (path : Path) : Ledger :=
  let seen := examine t path.normalize (l.forward path.normalize)
  ⟨l.account + .ofSeen path seen, renew path.normalize seen l.forward⟩

theorem described_of_parsed {u : FileUri} {resident : Option SourceEntry} {e : SourceEntry}
    (parsed : examine t u resident = some (.ok (e, .parsed))) : described t u = some e := by
  rcases examine_cases t u resident with ⟨_, _, _, _, _, served⟩ | afresh
  · rw [served] at parsed
    simp at parsed
  · rw [described, ← afresh, parsed]

/-- A file that was parsed is found when it is entered again. -/
theorem examine_again {u : FileUri} {resident : Option SourceEntry} {e : SourceEntry}
    (parsed : examine t u resident = some (.ok (e, .parsed))) :
    examine t u (some e.forward) = some (.ok (e.forward, .cached)) := by
  have called := described_of_parsed parsed
  apply examine_resident
  exact (described_uri called).2 ▸ called

/-- Two files may be entered in either order. -/
theorem enter_comm (l : Ledger) (p q : Path) : (l.enter t p).enter t q = (l.enter t q).enter t p := by
  by_cases same : q.normalize = p.normalize
  · simp only [enter, same]
    rcases seen : examine t p.normalize (l.forward p.normalize) with _ | fault | ⟨e, _ | _⟩
    case some.ok.parsed =>
      -- Whichever is first is parsed, and the account does not say which it was.
      simp only [renew, Function.update_self, examine_again seen]
      rfl
    all_goals simp only [renew, seen, add_right_comm]
  · simp only [enter, renew_of_ne same, renew_of_ne (Ne.symm same), renew_comm (Ne.symm same), add_right_comm]

theorem enter_perm {l : Ledger} {order other : List Path} (perm : order.Perm other) :
    order.foldl (enter t) l = other.foldl (enter t) l :=
  perm.foldl_eq' (fun p _ q _ l => l.enter_comm p q) l

/-- What was produced is what the files call for, and is resident. -/
def Renewed (t : FileTree) (l : Ledger) : Prop :=
  ∀ e ∈ l.account.produced, described t e.uri = some e ∧ l.forward e.uri = some e

theorem Renewed.enter {l : Ledger} (h : l.Renewed t) (path : Path) : (l.enter t path).Renewed t := by
  rcases seen : examine t path.normalize (l.forward path.normalize) with _ | fault | ⟨d, _ | _⟩
  case some.ok.parsed =>
    have called := described_of_parsed seen
    obtain ⟨here, whole⟩ := described_uri called
    intro e member
    simp only [Ledger.enter, seen, Account.add_produced, Account.ofSeen, Option.map_some, Option.getD_some,
      Account.ofResult, Multiset.mem_add, Multiset.mem_singleton, whole] at member
    simp only [Ledger.enter, seen, renew, whole, Function.update_apply]
    rcases member with earlier | rfl
    · obtain ⟨described, resident⟩ := h e earlier
      refine ⟨described, ?_⟩
      split
      · rename_i same
        rw [← called, ← same, described]
      · exact resident
    · rw [here, if_pos rfl]
      exact ⟨called, rfl⟩
  all_goals simpa [Renewed, Ledger.enter, seen, renew, Account.ofSeen, Account.ofResult] using h

theorem Renewed.enters {l : Ledger} (h : l.Renewed t) (order : List Path) :
    (order.foldl (Ledger.enter t) l).Renewed t := by
  induction order generalizing l with
  | nil => exact h
  | cons path rest ih => exact ih (h.enter path)

theorem produced_enter {l : Ledger} {order : List Path} {e : SourceEntry}
    (member : e ∈ (order.foldl (enter t) l).account.produced) :
    e ∈ l.account.produced ∨ ∃ path ∈ order, e.uri = path.normalize := by
  induction order generalizing l with
  | nil => exact .inl member
  | cons path rest ih =>
      rcases ih member with before | ⟨q, listed, named⟩
      · rw [enter, Account.add_produced, Multiset.mem_add] at before
        refine before.imp_right fun new => ⟨path, List.mem_cons_self, ?_⟩
        rcases seen : examine t path.normalize (l.forward path.normalize) with _ | fault | ⟨d, _ | _⟩
        case some.ok.parsed =>
          obtain ⟨here, whole⟩ := described_uri (described_of_parsed seen)
          simp only [seen, Account.ofSeen, Option.map_some, Option.getD_some, Account.ofResult,
            Multiset.mem_singleton] at new
          rw [new, whole, here]
        all_goals simp [seen, Account.ofSeen, Account.ofResult] at new
      · exact .inr ⟨q, List.mem_cons_of_mem path listed, named⟩

/-- In a ledger that started with nothing, what was produced belongs to the files that were entered. -/
theorem produced_afresh {l : Ledger} (nothing : l.account.produced = 0) {order : List Path} {e : SourceEntry}
    (member : e ∈ (order.foldl (enter t) l).account.produced) :
    described t e.uri = some e ∧ (order.foldl (enter t) l).forward e.uri = some e ∧
      ∃ path ∈ order, e.uri = path.normalize := by
  have none_before : ∀ d, d ∉ l.account.produced := fun d => nothing ▸ Multiset.notMem_zero d
  have start : l.Renewed t := fun d listed => absurd listed (none_before d)
  obtain ⟨called, resident⟩ := start.enters order e member
  exact ⟨called, resident, (produced_enter member).resolve_left (none_before e)⟩

/-! ## What becomes of each file

Whether a file fails, and with which message, does not depend on the files that were entered before it. A file
that is parsed is served from its entry from then on, so it is parsed once. -/

/-- To enter one file makes no difference to another, unless it is the same file and is parsed: then it is found. -/
theorem examine_enter (l : Ledger) (p q : Path) :
    examine t q.normalize ((l.enter t p).forward q.normalize) = examine t q.normalize (l.forward q.normalize) ∨
      ∃ e, examine t q.normalize (l.forward q.normalize) = some (.ok (e, .parsed)) ∧
        examine t q.normalize ((l.enter t p).forward q.normalize) = some (.ok (e.forward, .cached)) := by
  by_cases same : q.normalize = p.normalize
  · rcases seen : examine t p.normalize (l.forward p.normalize) with _ | fault | ⟨e, _ | _⟩
    case some.ok.parsed =>
      right
      refine ⟨e, by rw [same, seen], ?_⟩
      simp [enter, same, seen, renew, examine_again seen]
    all_goals simp [enter, same, seen, renew]
  · left
    simp only [enter, renew_of_ne same]

/-- The file would be parsed next. -/
def Parses (t : FileTree) (l : Ledger) (p : Path) : Prop :=
  ∃ e, examine t p.normalize (l.forward p.normalize) = some (.ok (e, .parsed))

theorem Parses.of_enter {l : Ledger} {p q : Path} (h : (l.enter t p).Parses t q) : l.Parses t q := by
  obtain ⟨e, parsed⟩ := h
  rcases l.examine_enter (t := t) p q with same | ⟨_, _, found⟩
  · exact ⟨e, same ▸ parsed⟩
  · simp [found] at parsed

theorem Parses.of_enters {l : Ledger} {order : List Path} {q : Path} (h : (order.foldl (enter t) l).Parses t q) :
    l.Parses t q := by
  induction order generalizing l with
  | nil => exact h
  | cons path rest ih => exact (ih h).of_enter

theorem not_parses_enter (l : Ledger) (p : Path) : ¬ (l.enter t p).Parses t p := by
  rintro ⟨e, parsed⟩
  rcases l.examine_enter (t := t) p p with same | ⟨_, _, found⟩
  · rw [same] at parsed
    simp [enter, parsed, renew, examine_again parsed] at same
  · simp [found] at parsed

/-- No file that was entered would be parsed again. -/
theorem not_parses_enters {l : Ledger} {order : List Path} {p : Path} (listed : p ∈ order) :
    ¬ (order.foldl (enter t) l).Parses t p := by
  induction order generalizing l with
  | nil => simp at listed
  | cons path rest ih =>
      rcases List.mem_cons.mp listed with rfl | later
      · exact fun again => l.not_parses_enter p (Parses.of_enters again)
      · exact ih later

/-- Files that would not be parsed change nothing but counts. -/
theorem enters_of_not_parses {l : Ledger} {order : List Path} (settled : ∀ p ∈ order, ¬ l.Parses t p) :
    (order.foldl (enter t) l).forward = l.forward ∧
      (order.foldl (enter t) l).account.parsed = l.account.parsed ∧
      (order.foldl (enter t) l).account.produced = l.account.produced := by
  induction order generalizing l with
  | nil => exact ⟨rfl, rfl, rfl⟩
  | cons path rest ih =>
      have first : (l.enter t path).forward = l.forward ∧ (l.enter t path).account.parsed = l.account.parsed ∧
          (l.enter t path).account.produced = l.account.produced := by
        rcases seen : examine t path.normalize (l.forward path.normalize) with _ | fault | ⟨e, _ | _⟩
        case some.ok.parsed => exact absurd ⟨e, seen⟩ (settled path List.mem_cons_self)
        all_goals simp [enter, seen, renew, Account.ofSeen, Account.ofResult]
      obtain ⟨forward, parsed, produced⟩ :=
        ih (l := l.enter t path) fun p member again => settled p (List.mem_cons_of_mem path member) again.of_enter
      exact ⟨forward.trans first.1, parsed.trans first.2.1, produced.trans first.2.2⟩

/-- An entry that is served stays resident. -/
theorem forward_enter_of_served {l : Ledger} {u : FileUri} {e : SourceEntry} (resident : l.forward u = some e)
    (served : examine t u (some e) = some (.ok (e, .cached))) (p : Path) : (l.enter t p).forward u = some e := by
  by_cases same : u = p.normalize
  · subst same
    simp only [enter, resident, served, renew]
  · exact (renew_of_ne same _ _).trans resident

/-- What was found of a file that can be served or parsed is resident in the end. -/
theorem forward_enters_of_seen {l : Ledger} {order : List Path} {p : Path} (listed : p ∈ order) {e : SourceEntry}
    {outcome : Outcome} (seen : examine t p.normalize (l.forward p.normalize) = some (.ok (e, outcome))) :
    (order.foldl (enter t) l).forward p.normalize = some e := by
  have first : (l.enter t p).forward p.normalize = some e ∧
      examine t p.normalize (some e) = some (.ok (e, .cached)) := by
    cases outcome with
    | parsed =>
        have whole := (described_uri (described_of_parsed seen)).2
        refine ⟨?_, whole ▸ examine_again seen⟩
        simp only [enter, seen, renew, Function.update_self, whole]
    | cached =>
        rcases examine_cases t p.normalize (l.forward p.normalize) with ⟨_, d, _, resident, _, served⟩ | afresh
        · obtain ⟨rfl, _⟩ := Prod.mk.inj (Except.ok.inj (Option.some.inj (served.symm.trans seen)))
          exact ⟨forward_enter_of_served resident (resident ▸ served) p, resident ▸ served⟩
        · cases (examine_none_eq_ok.mp (afresh ▸ seen)).1
  obtain ⟨before, after, rfl⟩ := List.append_of_mem listed
  rw [enter_perm List.perm_middle, List.foldl_cons]
  -- The file may as well be entered first, and what it leaves is served from then on.
  obtain ⟨resident, served⟩ := first
  generalize l.enter t p = l at resident
  induction before ++ after generalizing l with
  | nil => exact resident
  | cons q rest ih => exact ih (l.enter t q) (forward_enter_of_served resident served q)

/-- What becomes of the file is known some time. -/
def Settles (t : FileTree) (l : Ledger) (p : Path) : Prop := examine t p.normalize (l.forward p.normalize) ≠ none

theorem settles_enter {l : Ledger} {p q : Path} : (l.enter t p).Settles t q ↔ l.Settles t q := by
  rcases l.examine_enter (t := t) p q with same | ⟨_, parsed, found⟩
  · rw [Settles, same, Settles]
  · simp [Settles, parsed, found]

theorem settles_enters {l : Ledger} {order : List Path} {q : Path} :
    (order.foldl (enter t) l).Settles t q ↔ l.Settles t q := by
  induction order generalizing l with
  | nil => rfl
  | cons path rest ih => exact ih.trans settles_enter

theorem settles_forward {g : Graph} {a : Account} {p : Path} :
    Settles t ⟨a, g.forward?⟩ p ↔ examine t p.normalize (g.get? p.normalize) ≠ none := by
  change examine t p.normalize (g.forward? p.normalize) ≠ none ↔ _
  rw [Graph.forward?, examine_forward, ne_eq, Option.map_eq_none_iff]

/-- Every file is accounted for, if what becomes of it is known some time. -/
theorem size_enters {l : Ledger} {order : List Path} (settles : ∀ p ∈ order, l.Settles t p) :
    (order.foldl (enter t) l).account.size = l.account.size + order.length := by
  induction order generalizing l with
  | nil => rfl
  | cons path rest ih =>
      obtain ⟨result, seen⟩ := Option.ne_none_iff_exists'.mp (settles path List.mem_cons_self)
      have later : ∀ p ∈ rest, (l.enter t path).Settles t p :=
        fun p member => settles_enter.mpr (settles p (List.mem_cons_of_mem path member))
      have first : (l.enter t path).account.size = l.account.size + 1 := by
        rw [enter, seen, Account.size_add, Account.ofSeen, Option.map_some, Option.getD_some, Account.size_ofResult]
      rw [List.foldl_cons, ih later, first, List.length_cons]
      omega

/-- What is reported of a file that can neither be served nor parsed. -/
def failure? (t : FileTree) (l : Ledger) (p : Path) : Option ScanFailure :=
  match examine t p.normalize (l.forward p.normalize) with
  | some (.error fault) => some ⟨p, fault.message⟩
  | _ => none

theorem failure?_enter (l : Ledger) (p : Path) : (l.enter t p).failure? t = l.failure? t := by
  funext q
  rcases l.examine_enter (t := t) p q with same | ⟨_, parsed, found⟩
  · rw [failure?, same, failure?]
  · rw [failure?, found, failure?, parsed]

theorem failure?_enters (l : Ledger) (order : List Path) : (order.foldl (enter t) l).failure? t = l.failure? t := by
  induction order generalizing l with
  | nil => rfl
  | cons path rest ih => exact (ih (l.enter t path)).trans (l.failure?_enter path)

theorem not_parses_of_failure? {l : Ledger} {p : Path} (failed : l.failure? t p ≠ none) : ¬ l.Parses t p := by
  rintro ⟨e, parsed⟩
  simp [failure?, parsed] at failed

/-- Exactly the files that fail are reported. -/
theorem failures_enters (l : Ledger) (order : List Path) :
    (order.foldl (enter t) l).account.failures = l.account.failures + (order.filterMap (l.failure? t) : List ScanFailure) := by
  induction order generalizing l with
  | nil => simp
  | cons path rest ih =>
      rw [List.foldl_cons, ih, failure?_enter, List.filterMap_cons]
      rcases seen : examine t path.normalize (l.forward path.normalize) with _ | fault | ⟨e, _ | _⟩
      all_goals simp [enter, seen, failure?, Account.ofSeen, Account.ofResult, add_assoc]

/-- Without the files that fail, a scan leaves the same forward half. -/
theorem forward_enters_filter (l : Ledger) (order : List Path) :
    ((order.filter fun p => (l.failure? t p).isNone).foldl (enter t) l).forward = (order.foldl (enter t) l).forward := by
  -- The files that fail may as well come last, and then they change nothing but counts.
  have perm := List.filter_append_perm (fun p => (l.failure? t p).isNone) order
  rw [← enter_perm perm, List.foldl_append]
  refine (enters_of_not_parses ?_).1.symm
  intro p member
  apply not_parses_of_failure?
  rw [failure?_enters]
  simpa [Option.isSome_iff_ne_none] using (List.mem_filter.mp member).2

theorem produced_le_enters (l : Ledger) (order : List Path) :
    l.account.produced ≤ (order.foldl (enter t) l).account.produced := by
  induction order generalizing l with
  | nil => exact le_rfl
  | cons path rest ih => exact (Multiset.le_add_right _ _).trans (ih (l.enter t path))

/-- What would be parsed is produced. -/
theorem mem_produced_enters {l : Ledger} {order : List Path} {p : Path} (listed : p ∈ order) {e : SourceEntry}
    (parsed : examine t p.normalize (l.forward p.normalize) = some (.ok (e, .parsed))) :
    e.forward ∈ (order.foldl (enter t) l).account.produced := by
  obtain ⟨before, after, rfl⟩ := List.append_of_mem listed
  rw [enter_perm List.perm_middle, List.foldl_cons]
  apply Multiset.mem_of_le (produced_le_enters _ _)
  simp [enter, parsed, Account.ofSeen, Account.ofResult]

end Ledger

end QmlIndex.SourceIndex
