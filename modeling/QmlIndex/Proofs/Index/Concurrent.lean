import Mathlib.Logic.Relation
import QmlIndex.Proofs.Graph.Forward
import QmlIndex.Proofs.Index.Ledger

/-! # Batches whose members run at the same time

A member takes the lock of its path and looks for a current entry; if there is none it parses the file, and
some time later it makes the entry resident and gives the lock up. A member whose file is read for ever is never
done, and neither is its batch. Members that are done are counted in any order. Only the look at the resident entry
matters to what a batch comes to: taken in the order of these looks, the members might as well have run one after the
other.
-/

namespace QmlIndex.SourceIndex

/-! ## Counting -/

/-- Count a member that is done. -/
def Progress.count (p : Progress) (path : Path) : Result (SourceEntry × Outcome) → Progress
  | .ok (e, .parsed) =>
    { p with stats := { p.stats with parsed := p.stats.parsed + 1 }, produced := p.produced ++ [e] }
  | .ok (_, .cached) => { p with stats := { p.stats with cached := p.stats.cached + 1 } }
  | .error fault =>
    { p with stats := { p.stats with failures := p.stats.failures ++ [⟨path, fault.message⟩] } }

theorem Progress.enter_eq_count (p : Progress) (path : Path) (done : Result (SourceEntry × Outcome) × SourceIndex) :
    p.enter path done = Progress.count { p with index := done.2 } path done.1 := by
  rcases done with ⟨fault | ⟨e, _ | _⟩, index⟩ <;> rfl

/-- What was counted, after earlier batches have produced some entries. -/
def Progress.account (earlier : Multiset SourceEntry) (p : Progress) : Account where
  parsed := p.stats.parsed
  cached := p.stats.cached
  failures := p.stats.failures
  produced := earlier + p.produced.map SourceEntry.forward

theorem Progress.account_count (earlier : Multiset SourceEntry) (p : Progress) (path : Path)
    (result : Result (SourceEntry × Outcome)) :
    (p.count path result).account earlier = p.account earlier + .ofResult path result := by
  rcases result with fault | ⟨e, _ | _⟩ <;> ext1 <;>
    simp [Progress.count, Progress.account, Account.ofResult, ← Multiset.coe_add, add_assoc]

/-- What a batch has come to when nothing is under way. -/
def Progress.ledger (earlier : Multiset SourceEntry) (p : Progress) : Ledger :=
  ⟨p.account earlier, p.index.graph.forward?⟩

/-! ## Members under way -/

structure Running where
  /-- The members that have not looked at the resident entry yet. -/
  waiting : Multiset Path
  /-- The members that have parsed their file, with the entry; each holds the lock of its path. -/
  parsing : Multiset (Path × SourceEntry)
  /-- The members that are done and not counted yet. -/
  settled : Multiset (Path × Result (SourceEntry × Outcome))
  progress : Progress

namespace Running

variable {t : FileTree} {r after : Running} {earlier : Multiset SourceEntry}

/-- The paths whose locks are held. -/
def locked (r : Running) : Multiset FileUri := r.parsing.map fun member => member.1.normalize

/-- What the resident entry says of the file of a member now. -/
def look (t : FileTree) (r : Running) (path : Path) : Option (Result (SourceEntry × Outcome)) :=
  examine t path.normalize (r.progress.index.graph.get? path.normalize)

/-- What one member does next, or the count of one that is done. -/
inductive Step (t : FileTree) : Running → Running → Prop
  /-- A member takes the lock of its path, finds no current entry and parses the file. -/
  | parse {r : Running} {path : Path} {rest : Multiset Path} {e : SourceEntry} (next : r.waiting = path ::ₘ rest)
      (free : path.normalize ∉ r.locked) (seen : r.look t path = some (.ok (e, .parsed))) :
      Step t r { r with waiting := rest, parsing := (path, e) ::ₘ r.parsing }
  /-- A member finds a current entry, or its file cannot be read or parsed. -/
  | settle {r : Running} {path : Path} {rest : Multiset Path} {result : Result (SourceEntry × Outcome)}
      (next : r.waiting = path ::ₘ rest) (free : path.normalize ∉ r.locked) (seen : r.look t path = some result)
      (unparsed : ∀ e, result ≠ .ok (e, .parsed)) :
      Step t r { r with waiting := rest, settled := (path, result) ::ₘ r.settled }
  /-- A member makes its entry resident and gives the lock up. -/
  | commit {r : Running} {path : Path} {e : SourceEntry} {rest : Multiset (Path × SourceEntry)}
      (next : r.parsing = (path, e) ::ₘ rest) :
      Step t r { r with
        parsing := rest
        settled := (path, .ok ((r.progress.index.commit e false).1, .parsed)) ::ₘ r.settled
        progress := { r.progress with index := (r.progress.index.commit e false).2 } }
  /-- A member that is done is counted. -/
  | join {r : Running} {path : Path} {result : Result (SourceEntry × Outcome)}
      {rest : Multiset (Path × Result (SourceEntry × Outcome))} (next : r.settled = (path, result) ::ₘ rest) :
      Step t r { r with settled := rest, progress := r.progress.count path result }

/-- Every entry under way is what the file of its member calls for. -/
def Sound (t : FileTree) (r : Running) : Prop :=
  ∀ member ∈ r.parsing, described t member.1.normalize = some member.2

theorem Step.sound (step : Step t r after) (sound : r.Sound t) : after.Sound t := by
  cases step with
  | parse next free seen =>
      intro member listed
      rcases Multiset.mem_cons.mp listed with rfl | earlier
      · exact Ledger.described_of_parsed seen
      · exact sound member earlier
  | settle next free seen unparsed => exact sound
  | commit next =>
      intro member listed
      exact sound member (next ▸ Multiset.mem_cons_of_mem listed)
  | join next => exact sound

/-! ## Ledgers of members under way -/

/-- What is counted, what is done, and what is sure to be done. -/
def account (earlier : Multiset SourceEntry) (r : Running) : Account :=
  r.progress.account earlier + (r.settled.map fun member => .ofResult member.1 member.2).sum +
    (r.parsing.map fun member => .ofResult member.1 (.ok (member.2, .parsed))).sum

/-- The forward half as it will be when the members under way have made their entries resident. -/
def forward (t : FileTree) (r : Running) (u : FileUri) : Option SourceEntry :=
  if u ∈ r.locked then described t u else r.progress.index.graph.forward? u

def ledger (t : FileTree) (earlier : Multiset SourceEntry) (r : Running) : Ledger :=
  ⟨r.account earlier, r.forward t⟩

/-- To enter a member whose lock is free is to go by its look at the resident entry. -/
theorem enter_ledger {path : Path} (free : path.normalize ∉ r.locked) :
    (r.ledger t earlier).enter t path =
      ⟨r.account earlier + .ofSeen path (r.look t path), renew path.normalize (r.look t path) (r.forward t)⟩ := by
  have here : (r.ledger t earlier).forward path.normalize = r.progress.index.graph.forward? path.normalize :=
    if_neg free
  have seen : examine t path.normalize ((r.ledger t earlier).forward path.normalize) =
      (r.look t path).map (·.map fun result => (result.1.forward, result.2)) := by
    rw [here]
    exact examine_forward t path.normalize _
  simp only [Ledger.enter, seen]
  rcases r.look t path with _ | fault | ⟨e, _ | _⟩ <;> rfl

theorem settles_ledger {path : Path} (free : path.normalize ∉ r.locked) (seen : r.look t path ≠ none) :
    (r.ledger t earlier).Settles t path := by
  have here : (r.ledger t earlier).forward path.normalize = r.progress.index.graph.forward? path.normalize :=
    if_neg free
  have settles : (r.progress.ledger earlier).Settles t path := Ledger.settles_forward.mpr seen
  rwa [Ledger.Settles, here]

theorem forward_parse {path : Path} {e : SourceEntry} (called : described t path.normalize = some e)
    (rest : Multiset Path) :
    forward t { r with waiting := rest, parsing := (path, e) ::ₘ r.parsing } =
      Function.update (r.forward t) path.normalize (some e) := by
  funext u
  have locks : u ∈ locked { r with waiting := rest, parsing := (path, e) ::ₘ r.parsing } ↔
      u = path.normalize ∨ u ∈ r.locked := by
    simp [locked]
  simp only [forward, locks, Function.update_apply]
  by_cases here : u = path.normalize
  · simp [here, called]
  · simp only [here, false_or, if_false]

theorem commit_forward (x : SourceIndex) (e : SourceEntry) : (x.commit e false).1.forward = e.forward := by
  have inserted := Graph.forward?_with x.graph e e.uri
  rw [if_pos rfl] at inserted
  obtain ⟨d, resident, same⟩ := Option.map_eq_some_iff.mp inserted
  change ((x.graph.insert e).get? e.uri |>.getD e).forward = _
  rw [resident, Option.getD_some, same]

theorem forward_commit {path : Path} {e : SourceEntry} {rest : Multiset (Path × SourceEntry)}
    (next : r.parsing = (path, e) ::ₘ rest) (called : described t path.normalize = some e)
    (settled : Multiset (Path × Result (SourceEntry × Outcome))) :
    forward t { r with
      parsing := rest, settled, progress := { r.progress with index := (r.progress.index.commit e false).2 } } =
      r.forward t := by
  obtain ⟨named, whole⟩ := described_uri called
  funext u
  have graph : (r.progress.index.commit e false).2.graph.forward? u =
      if u = path.normalize then some e else r.progress.index.graph.forward? u := by
    rw [← named, ← whole]
    exact Graph.forward?_with r.progress.index.graph e u
  simp only [forward, locked, next, graph, Multiset.map_cons, Multiset.mem_cons]
  by_cases here : u = path.normalize
  · simp [here, called]
  · simp only [here, false_or, if_false]

/-- A look enters a member in the ledger, and nothing else changes the ledger. -/
theorem Step.ledger (step : Step t r after) (sound : r.Sound t) (earlier : Multiset SourceEntry) :
    (after.waiting = r.waiting ∧ after.ledger t earlier = r.ledger t earlier) ∨
      ∃ path, r.waiting = path ::ₘ after.waiting ∧ (r.ledger t earlier).Settles t path ∧
        after.ledger t earlier = (r.ledger t earlier).enter t path := by
  cases step with
  | @parse path rest e next free seen =>
      right
      have called := Ledger.described_of_parsed seen
      refine ⟨path, next, settles_ledger free (by simp [seen]), ?_⟩
      rw [enter_ledger free, seen]
      refine Ledger.ext ?_ ?_
      · simp [Running.ledger, account, Account.ofSeen, add_assoc, add_comm]
      · rw [Running.ledger, forward_parse called, renew, (described_uri called).2]
  | @settle path rest result next free seen unparsed =>
      right
      refine ⟨path, next, settles_ledger free (by simp [seen]), ?_⟩
      rw [enter_ledger free, seen]
      refine Ledger.ext ?_ ?_
      · simp [Running.ledger, account, Account.ofSeen, add_left_comm, add_comm]
      · change r.forward t = renew path.normalize (some result) (r.forward t)
        rcases result with fault | ⟨e, _ | _⟩
        · rfl
        · exact absurd rfl (unparsed e)
        · rfl
  | @commit path e rest next =>
      left
      have called := sound (path, e) (next ▸ Multiset.mem_cons_self _ _)
      refine ⟨rfl, Ledger.ext ?_ (forward_commit next called _)⟩
      have same : Account.ofResult path (.ok ((r.progress.index.commit e false).1, .parsed)) =
          Account.ofResult path (.ok (e, .parsed)) := by
        simp only [Account.ofResult, commit_forward]
      simp [Running.ledger, account, next, same, Progress.account, add_assoc, add_left_comm]
  | @join path result rest next =>
      left
      have index : (r.progress.count path result).index = r.progress.index := by
        rcases result with fault | ⟨e, _ | _⟩ <;> rfl
      refine ⟨rfl, Ledger.ext ?_ ?_⟩
      · simp [Running.ledger, account, next, Progress.account_count, add_assoc]
      · funext u
        change (if u ∈ r.locked then _ else (r.progress.count path result).index.graph.forward? u) = r.forward t u
        rw [index]
        rfl

/-- The store is not called, and how many files there are stays as it is. -/
theorem Step.frame (step : Step t r after) :
    after.progress.index.store = r.progress.index.store ∧ after.progress.stats.files = r.progress.stats.files := by
  cases step with
  | parse next free seen => exact ⟨rfl, rfl⟩
  | settle next free seen unparsed => exact ⟨rfl, rfl⟩
  | commit next => exact ⟨rfl, rfl⟩
  | @join path result rest next => rcases result with fault | ⟨e, _ | _⟩ <;> exact ⟨rfl, rfl⟩

end Running

/-! ## Whole batches -/

open Running Relation

/-- The members of a batch run to their ends, in some order, and all are counted. -/
def Runs (t : FileTree) (batch : List Path) (p after : Progress) : Prop :=
  ReflTransGen (Step t) ⟨batch, 0, 0, p⟩ ⟨0, 0, 0, after⟩

theorem exists_order {t : FileTree} {r after : Running} (run : ReflTransGen (Step t) r after) (sound : r.Sound t)
    (earlier : Multiset SourceEntry) :
    ∃ order : List Path, r.waiting = order + after.waiting ∧ (∀ p ∈ order, (r.ledger t earlier).Settles t p) ∧
      after.ledger t earlier = order.foldl (Ledger.enter t) (r.ledger t earlier) := by
  induction run using ReflTransGen.head_induction_on with
  | refl => exact ⟨[], by simp, by simp, rfl⟩
  | head step _ ih =>
      obtain ⟨order, members, settles, outcome⟩ := ih (step.sound sound)
      rcases step.ledger sound earlier with ⟨same, unchanged⟩ | ⟨path, next, first, entered⟩
      · exact ⟨order, same ▸ members, unchanged ▸ settles, unchanged ▸ outcome⟩
      · rw [entered] at settles outcome
        refine ⟨path :: order, ?_, ?_, outcome⟩
        · rw [next, members, ← Multiset.cons_coe, Multiset.cons_add]
        · exact List.forall_mem_cons.mpr ⟨first, fun p member => Ledger.settles_enter.mp (settles p member)⟩

theorem frame_of_steps {t : FileTree} {r after : Running} (run : ReflTransGen (Step t) r after) :
    after.progress.index.store = r.progress.index.store ∧ after.progress.stats.files = r.progress.stats.files := by
  induction run with
  | refl => exact ⟨rfl, rfl⟩
  | tail _ step ih => exact ⟨step.frame.1.trans ih.1, step.frame.2.trans ih.2⟩

/-- A member may do all it has to do before any other starts. -/
theorem steps_of_step {t : FileTree} {path : Path} {p next : Progress} (returns : p.step t path = some next)
    (rest : Multiset Path) : ReflTransGen (Step t) ⟨path ::ₘ rest, 0, 0, p⟩ ⟨rest, 0, 0, next⟩ := by
  obtain ⟨done, indexed, rfl⟩ := Progress.step_eq_some.mp returns
  obtain ⟨result, seen, rfl⟩ := Option.map_eq_some_iff.mp indexed
  have looked : look t ⟨path ::ₘ rest, 0, 0, p⟩ path = some result := seen
  have unlocked : path.normalize ∉ locked ⟨path ::ₘ rest, 0, 0, p⟩ := by simp [locked]
  rw [Progress.enter_eq_count]
  rcases result with fault | ⟨e, _ | _⟩
  · exact .head (.settle rfl unlocked looked (by simp)) (.single (.join rfl))
  · exact .head (.parse rfl unlocked looked) (.head (.commit rfl) (.single (.join rfl)))
  · exact .head (.settle rfl unlocked looked (by simp)) (.single (.join rfl))

namespace Runs

variable {t : FileTree} {batch : List Path} {p after : Progress}

/-- A batch comes to what its members come to one after the other, and each of them comes to something. -/
theorem ledger (run : Runs t batch p after) (earlier : Multiset SourceEntry) :
    (∀ q ∈ batch, (p.ledger earlier).Settles t q) ∧
      after.ledger earlier = batch.foldl (Ledger.enter t) (p.ledger earlier) := by
  obtain ⟨order, members, settles, outcome⟩ := exists_order run (by simp [Sound]) earlier
  have quiet : ∀ (waiting : Multiset Path) (p : Progress),
      Running.ledger t earlier ⟨waiting, 0, 0, p⟩ = p.ledger earlier := by
    intro waiting p
    refine Ledger.ext ?_ rfl
    simp [Running.ledger, account, Progress.ledger]
  rw [quiet] at settles
  rw [quiet, quiet] at outcome
  have perm : batch.Perm order := by simpa using members
  rw [outcome, Ledger.enter_perm perm]
  exact ⟨fun q member => settles q (perm.mem_iff.mp member), rfl⟩

theorem frame (run : Runs t batch p after) :
    after.index.store = p.index.store ∧ after.stats.files = p.stats.files :=
  frame_of_steps run

/-- To index one file after the other is one of the ways in which a batch runs. -/
theorem steps (returns : batch.foldlM (Progress.step t) p = some after) : Runs t batch p after := by
  induction batch generalizing p with
  | nil =>
      obtain rfl := Option.some.inj returns
      exact .refl
  | cons path rest ih =>
      obtain ⟨next, first, later⟩ := Progress.steps_cons.mp returns
      exact (steps_of_step first rest).trans (ih later)

end Runs

/-! ## What returns

A batch is done some time if no member of it reads for ever, and so is a scan. Members that fail make no
difference to that, and neither do those that are done before. -/

namespace Progress

variable {t : FileTree} {p next : Progress} {batch : List Path}

theorem ledger_steps (returns : batch.foldlM (Progress.step t) p = some next) (earlier : Multiset SourceEntry) :
    next.ledger earlier = batch.foldl (Ledger.enter t) (p.ledger earlier) :=
  ((Runs.steps returns).ledger earlier).2

theorem ledger_step {path : Path} (returns : p.step t path = some next) (earlier : Multiset SourceEntry) :
    next.ledger earlier = (p.ledger earlier).enter t path := by
  have alone : [path].foldlM (Progress.step t) p = some next := steps_cons.mpr ⟨next, returns, rfl⟩
  exact ledger_steps alone earlier

theorem exists_step_iff {path : Path} (earlier : Multiset SourceEntry) :
    (∃ next, p.step t path = some next) ↔ (p.ledger earlier).Settles t path := by
  rw [ledger, Ledger.settles_forward, ← Option.isSome_iff_exists, step, indexFile, Option.isSome_map, Option.isSome_map,
    Option.isSome_iff_ne_none]

theorem exists_steps_iff (earlier : Multiset SourceEntry) :
    (∃ next, batch.foldlM (Progress.step t) p = some next) ↔ ∀ path ∈ batch, (p.ledger earlier).Settles t path := by
  induction batch generalizing p with
  | nil => simp [pure]
  | cons path rest ih =>
      rw [List.forall_mem_cons, ← exists_step_iff]
      constructor
      · rintro ⟨next, returns⟩
        obtain ⟨mid, first, later⟩ := steps_cons.mp returns
        have others := ih.mp ⟨next, later⟩
        rw [ledger_step first] at others
        exact ⟨⟨mid, first⟩, fun q member => Ledger.settles_enter.mp (others q member)⟩
      · rintro ⟨⟨mid, first⟩, settles⟩
        obtain ⟨next, later⟩ := ih.mpr fun q member =>
          ledger_step first earlier ▸ Ledger.settles_enter.mpr (settles q member)
        exact ⟨next, steps_cons.mpr ⟨mid, first, later⟩⟩

end Progress

/-- What a batch leaves reads for ever what was read for ever before it. -/
theorem settles_persist {t : FileTree} {stats : ScanStats} {x : SourceIndex} {batch : List Path} {p : Progress}
    (returns : batch.foldlM (Progress.step t) ⟨stats, [], x⟩ = some p) (path : Path) :
    examine t path.normalize ((p.index.persist p.produced).graph.get? path.normalize) ≠ none ↔
      examine t path.normalize (x.graph.get? path.normalize) ≠ none := by
  have before : (Progress.ledger 0 ⟨stats, [], x⟩).Settles t path ↔ _ := Ledger.settles_forward
  have after : (p.ledger 0).Settles t path ↔ _ := Ledger.settles_forward
  rw [Progress.ledger_steps returns, Ledger.settles_enters] at after
  exact after.symm.trans before

theorem exists_batches_iff {t : FileTree} {s : ScanStats × SourceIndex} {batches : List (List Path)} :
    (∃ done, batches.foldlM (scanBatch t) s = some done) ↔
      ∀ path ∈ batches.flatten, examine t path.normalize (s.2.graph.get? path.normalize) ≠ none := by
  induction batches generalizing s with
  | nil => simp [pure]
  | cons batch rest ih =>
      have batch_iff : (∃ p, batch.foldlM (Progress.step t) ⟨s.1, [], s.2⟩ = some p) ↔
          ∀ path ∈ batch, examine t path.normalize (s.2.graph.get? path.normalize) ≠ none :=
        (Progress.exists_steps_iff 0).trans (forall₂_congr fun _ _ => Ledger.settles_forward)
      rw [List.flatten_cons, List.forall_mem_append, ← batch_iff]
      constructor
      · rintro ⟨done, returns⟩
        obtain ⟨mid, first, later⟩ := batches_cons.mp returns
        obtain ⟨p, members, rfl⟩ := scanBatch_eq_some.mp first
        have others := ih.mp ⟨done, later⟩
        exact ⟨⟨p, members⟩, fun path listed => (settles_persist members path).mp (others path listed)⟩
      · rintro ⟨⟨p, members⟩, others⟩
        have first := scanBatch_eq_some.mpr ⟨p, members, rfl⟩
        obtain ⟨done, later⟩ := ih (s := (p.stats, p.index.persist p.produced)) |>.mpr fun path listed =>
          (settles_persist members path).mpr (others path listed)
        exact ⟨done, batches_cons.mpr ⟨_, first, later⟩⟩

theorem exists_scanBatches_iff {x : SourceIndex} {t : FileTree} {batches : List (List Path)} :
    (∃ done, x.scanBatches t batches = some done) ↔
      ∀ path ∈ batches.flatten, examine t path.normalize (x.graph.get? path.normalize) ≠ none := by
  rw [← exists_batches_iff (s := ({ files := batches.flatten.length }, x)), scanBatches, ← Option.isSome_iff_exists,
    ← Option.isSome_iff_exists, Option.isSome_map]

/-- A scan returns if no file that it comes to is read for ever. -/
theorem exists_scan_iff {x : SourceIndex} {t : FileTree} {m : Matcher} {batchSize : Nat} :
    (∃ done, x.scan t m batchSize = some done) ↔
      ∀ path ∈ m.walk t, examine t path.normalize (x.graph.get? path.normalize) ≠ none := by
  rw [scan, exists_scanBatches_iff, flatten_pieces]

end QmlIndex.SourceIndex
