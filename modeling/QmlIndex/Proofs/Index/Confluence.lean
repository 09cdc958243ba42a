import QmlIndex.Config
import QmlIndex.Proofs.Index.Concurrent
import QmlIndex.Proofs.Index.Grants

/-! # A scan does not depend on the order of its parts

The files of a scan are cut into batches, the members of a batch run in any order, and what a batch produced is
written when all of them are done. However large the batches are and in whatever order their members get on, the
scan comes to the same graph, the same counts, the same failures and, if the store refuses nothing, the same rows
but for the edges towards the entries: those are written before later batches are known.
-/

namespace QmlIndex

/-! ## Rows -/

/-- The row without what it says of the edges towards its entry. -/
def SourceRow.forward (r : SourceRow) : SourceRow := { r with dependedBy := "" }

namespace Store

/-- The rows of the source files in no order, without the edges towards the entries. -/
def forwardRows (s : Store) : Multiset SourceRow := s.sources.map SourceRow.forward

/-- Write the row of an entry in place of those with its path. -/
def write (rows : Multiset SourceRow) (e : SourceEntry) : Multiset SourceRow :=
  (SourceRow.ofEntry e).forward ::ₘ rows.filter fun r => r.path = none ∨ r.path ≠ some e.uri.toString

theorem write_forward (rows : Multiset SourceRow) (e : SourceEntry) : write rows e.forward = write rows e := rfl

theorem write_comm {a b : SourceEntry} (other : a.uri.toString ≠ b.uri.toString) (rows : Multiset SourceRow) :
    write (write rows a) b = write (write rows b) a := by
  have here : ∀ e : SourceEntry, (SourceRow.ofEntry e).forward.path = some e.uri.toString := fun _ => rfl
  simp only [write]
  rw [Multiset.filter_cons_of_pos _ (by simp [here, other]), Multiset.filter_cons_of_pos _ (by simp [here, Ne.symm other]),
    Multiset.cons_swap, Multiset.filter_comm]

theorem forwardRows_put {s after : Store} {e : SourceEntry}
    (done : s.putSource (.ok (SourceRow.ofEntry e)) = .ok after) : after.forwardRows = write s.forwardRows e := by
  obtain ⟨_, _, rfl⟩ := putSource_eq_ok.mp done
  have others : (s.sources.filter fun r => r.path.isNone || r.path != (SourceRow.ofEntry e).path).map SourceRow.forward =
      (s.sources.map SourceRow.forward).filter fun r => r.path = none ∨ r.path ≠ some e.uri.toString := by
    rw [List.filter_map]
    congr 2
    funext r
    cases path : r.path <;> simp [SourceRow.forward, SourceRow.ofEntry, path, bne, Bool.beq_eq_decide_eq]
  rw [forwardRows, write, forwardRows, Multiset.filter_coe, ← others, List.map_append, ← Multiset.coe_add, add_comm]
  rfl

theorem forwardRows_puts {s after : Store} {entries : List SourceEntry}
    (done : entries.foldlM (fun s e => s.putSource (.ok (SourceRow.ofEntry e))) s = .ok after) :
    after.forwardRows = entries.foldl write s.forwardRows := by
  induction entries generalizing s with
  | nil =>
      obtain rfl : s = after := Except.ok.inj done
      rfl
  | cons e rest ih =>
      rw [List.foldlM_cons, bind_eq_ok] at done
      obtain ⟨middle, first, later⟩ := done
      rw [ih later, forwardRows_put first, List.foldl_cons]

theorem forwardRows_save {s : Store} {entries : List SourceEntry} (granted : Succeeds (s.saveSources entries).1) :
    (s.saveSources entries).2.forwardRows = entries.foldl write s.forwardRows := by
  rcases transact_cases s _ with ⟨fault, failed⟩ | ⟨n, after, body, same⟩
  · rw [saveSources, failed] at granted
    simp at granted
  · obtain ⟨stored, done, result⟩ := bind_eq_ok.mp body
    obtain ⟨rfl, rfl⟩ := Prod.mk.inj (Except.ok.inj result)
    have rows := forwardRows_puts done
    rw [saveSources, same]
    exact rows

end Store

namespace SourceIndex

/-! ## The ends of batches -/

theorem persist_eq (p : Progress) :
    p.index.persist p.produced = { p.index with store := (p.index.store.saveSources p.written).2 } := rfl

/-- What a batch produced is what its files call for, and is resident when the batch is done. -/
theorem Runs.produced {t : FileTree} {batch : List Path} {stats : ScanStats} {x : SourceIndex} {p : Progress}
    (run : Runs t batch ⟨stats, [], x⟩ p) {e : SourceEntry} (member : e ∈ p.produced) :
    described t e.uri = some e.forward ∧ p.index.graph.forward? e.uri = some e.forward ∧
      ∃ path ∈ batch, e.uri = path.normalize := by
  have listed : e.forward ∈ (p.ledger 0).account.produced :=
    Multiset.mem_add.mpr (.inr (Multiset.mem_coe.mpr (List.mem_map_of_mem member)))
  rw [(run.ledger 0).2] at listed
  obtain ⟨called, resident, named⟩ := Ledger.produced_afresh (by simp [Progress.ledger, Progress.account]) listed
  rw [← (run.ledger 0).2] at resident
  exact ⟨called, resident, named⟩

/-- All that a batch produced is written. -/
theorem written_forward {p : Progress}
    (resident : ∀ e ∈ p.produced, p.index.graph.forward? e.uri = some e.forward) :
    p.written.map SourceEntry.forward = p.produced.map SourceEntry.forward := by
  rw [Progress.written]
  generalize p.produced = produced at resident
  induction produced with
  | nil => rfl
  | cons e rest ih =>
      obtain ⟨d, live, same⟩ := Option.map_eq_some_iff.mp (resident e List.mem_cons_self)
      have current : d.isCurrent e.contentHash e.lastModified = true := by
        change d.forward.isCurrent e.contentHash e.lastModified = true
        rw [same]
        simp [SourceEntry.isCurrent, SourceEntry.forward]
      have later := ih fun d member => resident d (List.mem_cons_of_mem e member)
      simp [live, current, Option.filter_some, same, later]

theorem forwardRows_persist {p : Progress}
    (resident : ∀ e ∈ p.produced, p.index.graph.forward? e.uri = some e.forward)
    (granted : Succeeds (p.index.store.saveSources p.written).1) :
    (p.index.persist p.produced).store.forwardRows =
      (p.produced.map SourceEntry.forward).foldl Store.write p.index.store.forwardRows := by
  have forget : ∀ (entries : List SourceEntry) (rows : Multiset SourceRow),
      (entries.map SourceEntry.forward).foldl Store.write rows = entries.foldl Store.write rows := by
    intro entries rows
    simp only [List.foldl_map, Store.write_forward]
  rw [persist_eq, Store.forwardRows_save granted, ← written_forward resident, forget]

/-! ## Scans -/

/-- Batches that run one after the other, each in some order, with the answers of the store at their ends. -/
inductive Batches (t : FileTree) :
    ScanStats × SourceIndex → List (List Path) → List (Result Nat) → ScanStats × SourceIndex → Prop
  | nil (s : ScanStats × SourceIndex) : Batches t s [] [] s
  | cons {s after : ScanStats × SourceIndex} {batch : List Path} {rest : List (List Path)} {p : Progress}
      {answers : List (Result Nat)} (run : Runs t batch ⟨s.1, [], s.2⟩ p)
      (more : Batches t (p.stats, p.index.persist p.produced) rest answers after) :
      Batches t s (batch :: rest) ((p.index.store.saveSources p.written).1 :: answers) after

/-- What a scan has come to between two batches. -/
def ledgerBetween (earlier : Multiset SourceEntry) (s : ScanStats × SourceIndex) : Ledger :=
  Progress.ledger earlier ⟨s.1, [], s.2⟩

theorem ledger_persist (earlier : Multiset SourceEntry) (p : Progress) :
    ledgerBetween (earlier + p.produced.map SourceEntry.forward) (p.stats, p.index.persist p.produced) =
      p.ledger earlier := by
  refine Ledger.ext ?_ rfl
  simp [ledgerBetween, Progress.ledger, Progress.account]

namespace Batches

variable {t : FileTree} {s after : ScanStats × SourceIndex} {batches : List (List Path)} {answers : List (Result Nat)}

/-- Batches come to what their files come to one after the other, each of which comes to something, and what they
    produced is written, if no call of the store fails. -/
theorem outcome (run : Batches t s batches answers after) (earlier : Multiset SourceEntry) :
    (∀ p ∈ batches.flatten, (ledgerBetween earlier s).Settles t p) ∧ ∃ produced : List SourceEntry,
      ledgerBetween (earlier + produced) after = batches.flatten.foldl (Ledger.enter t) (ledgerBetween earlier s) ∧
      after.1.files = s.1.files ∧
      ((∀ a ∈ answers, Succeeds a) →
        after.2.store.forwardRows = produced.foldl Store.write s.2.store.forwardRows) := by
  induction run generalizing earlier with
  | nil s => exact ⟨by simp, [], by simp, rfl, fun _ => rfl⟩
  | @cons s after batch rest p answers run more ih =>
      obtain ⟨settles, produced, ledger, files, rows⟩ := ih (earlier + p.produced.map SourceEntry.forward)
      obtain ⟨first, entered⟩ := run.ledger earlier
      rw [ledger_persist, entered] at settles ledger
      refine ⟨?_, p.produced.map SourceEntry.forward ++ produced, ?_, files.trans run.frame.2, ?_⟩
      · rw [List.flatten_cons, List.forall_mem_append]
        exact ⟨first, fun q member => Ledger.settles_enters.mp (settles q member)⟩
      · rw [← Multiset.coe_add, ← add_assoc, ledger, List.flatten_cons, List.foldl_append]
        rfl
      · intro granted
        rw [rows fun a member => granted a (List.mem_cons_of_mem _ member),
          forwardRows_persist (fun e member => (run.produced member).2.1) (granted _ List.mem_cons_self), run.frame.1,
          List.foldl_append]

/-- A store that refuses nothing takes what the batches produce. -/
theorem granted (run : Batches t s batches answers after) (yields : s.2.store.Yields .sources)
    (canonical : ∀ p ∈ batches.flatten, FileUri.Canonical p.normalize) : ∀ a ∈ answers, Succeeds a := by
  induction run with
  | nil s => simp
  | @cons s after batch rest p answers run more ih =>
      rw [List.flatten_cons] at canonical
      have same : p.index.store.Yields .sources := run.frame.1.symm ▸ yields
      have made : ∀ d ∈ p.written, d.uri.Canonical ∧ isVoid d.contentHash = false := by
        intro d member
        have listed : d.forward ∈ p.produced.map SourceEntry.forward :=
          written_forward (fun e member => (run.produced member).2.1) ▸ List.mem_map_of_mem member
        obtain ⟨e, produced, forward⟩ := List.mem_map.mp listed
        obtain ⟨called, _, path, named, here⟩ := run.produced produced
        have uri : e.uri = d.uri := by
          change e.forward.uri = d.forward.uri
          rw [forward]
        obtain ⟨f, _, _, _, _, _, made⟩ := described_eq_some.mp called
        rw [forward] at made
        have hash : d.contentHash = Digest.ofBytes f.content.toList := congrArg SourceEntry.contentHash made
        refine ⟨?_, hash ▸ Digest.isVoid_ofBytes _⟩
        rw [← uri, here]
        exact canonical path (List.mem_append_left _ named)
      intro a member
      rcases List.mem_cons.mp member with rfl | later
      · exact ⟨_, Store.saveSources_granted same (fun d member => (made d member).1) fun d member => (made d member).2⟩
      · exact ih ((Store.keeps_save p.index.store p.written).yields same)
          (fun q member => canonical q (List.mem_append_right _ member)) a later

end Batches

/-- A scan of files in batches of a size, of which 0 counts as 1. -/
def Scans (x : SourceIndex) (t : FileTree) (files : List Path) (batchSize : Nat) (answers : List (Result Nat))
    (after : ScanStats × SourceIndex) : Prop :=
  ∃ last, Batches t ({ files := files.length }, x) (pieces (batchSize - 1) files) answers last ∧
    after = (last.1, { last.2 with graph := last.2.graph.rebuild })

theorem Batches.steps {t : FileTree} {s after : ScanStats × SourceIndex} {batches : List (List Path)}
    (returns : batches.foldlM (scanBatch t) s = some after) : ∃ answers, Batches t s batches answers after := by
  induction batches generalizing s with
  | nil =>
      obtain rfl := Option.some.inj returns
      exact ⟨[], .nil s⟩
  | cons batch rest ih =>
      obtain ⟨mid, first, later⟩ := batches_cons.mp returns
      obtain ⟨p, members, rfl⟩ := scanBatch_eq_some.mp first
      obtain ⟨answers, more⟩ := ih later
      exact ⟨_, .cons (Runs.steps members) more⟩

/-- To index one file after the other is one of the ways in which a scan runs. -/
theorem Scans.scanBatches {x : SourceIndex} {t : FileTree} {files : List Path} {batchSize : Nat}
    {after : ScanStats × SourceIndex} (returns : x.scanBatches t (pieces (batchSize - 1) files) = some after) :
    ∃ answers, x.Scans t files batchSize answers after := by
  obtain ⟨last, run, rfl⟩ := scanBatches_eq_some.mp returns
  rw [flatten_pieces] at run
  obtain ⟨answers, batches⟩ := Batches.steps run
  exact ⟨answers, last, batches, rfl⟩

theorem Scans.scan {x : SourceIndex} {t : FileTree} {m : Matcher} {c : Config} {after : ScanStats × SourceIndex}
    (returns : x.scan t m c.effectiveBatchSize = some after) :
    ∃ answers, x.Scans t (m.walk t) c.batchSize answers after := by
  have size : c.effectiveBatchSize - 1 = c.batchSize - 1 := by
    rw [Config.effectiveBatchSize]
    omega
  rw [SourceIndex.scan, size] at returns
  exact Scans.scanBatches returns

theorem Scans.granted {x : SourceIndex} {t : FileTree} {files : List Path} {batchSize : Nat}
    {answers : List (Result Nat)} {after : ScanStats × SourceIndex} (run : x.Scans t files batchSize answers after)
    (yields : x.store.Yields .sources) (canonical : ∀ p ∈ files, FileUri.Canonical p.normalize) :
    ∀ a ∈ answers, Succeeds a := by
  obtain ⟨last, batches, _⟩ := run
  refine batches.granted yields ?_
  rw [flatten_pieces]
  exact canonical

/-! ## Order does not matter -/

/-- Entries that files call for may be written in any order. -/
theorem write_perm {t : FileTree} {produced other : List SourceEntry} (perm : produced.Perm other)
    (called : ∀ e ∈ produced, described t e.uri = some e) (canonical : ∀ e ∈ produced, e.uri.Canonical)
    (rows : Multiset SourceRow) : produced.foldl Store.write rows = other.foldl Store.write rows := by
  refine perm.foldl_eq' (fun a first b second rows => ?_) rows
  by_cases same : a.uri = b.uri
  · -- A path is produced again only with the same entry.
    have called_a := called a first
    rw [same, called b second] at called_a
    rw [Option.some.inj called_a]
  · apply Store.write_comm
    intro spelled
    exact same (((canonical a first).toString_inj (canonical b second)).mp spelled)

/-- A scan comes to what its files come to one after the other, each of which comes to something. -/
theorem Scans.outcome {x : SourceIndex} {t : FileTree} {files : List Path} {batchSize : Nat}
    {answers : List (Result Nat)} {after : ScanStats × SourceIndex} (run : x.Scans t files batchSize answers after) :
    (∀ p ∈ files, examine t p.normalize (x.graph.get? p.normalize) ≠ none) ∧
      ∃ (produced : List SourceEntry) (g : Graph),
      Ledger.mk ⟨after.1.parsed, after.1.cached, after.1.failures, produced⟩ g.forward? =
        files.foldl (Ledger.enter t) ⟨0, x.graph.forward?⟩ ∧
      after.2.graph = g.rebuild ∧ after.1.files = files.length ∧
      ((∀ a ∈ answers, Succeeds a) →
        after.2.store.forwardRows = produced.foldl Store.write x.store.forwardRows) := by
  obtain ⟨last, batches, rfl⟩ := run
  obtain ⟨settles, produced, ledger, count, rows⟩ := batches.outcome 0
  have start : ledgerBetween 0 ({ files := files.length }, x) = ⟨0, x.graph.forward?⟩ := rfl
  rw [flatten_pieces, start] at settles ledger
  refine ⟨fun p member => Ledger.settles_forward.mp (settles p member), produced, last.2.graph, ?_, rfl, count, rows⟩
  rw [← ledger]
  refine Ledger.ext ?_ rfl
  simp [ledgerBetween, Progress.ledger, Progress.account]

/-- A scan comes to an end exactly if none of its files is read for ever. -/
theorem exists_scans_iff {x : SourceIndex} {t : FileTree} {files : List Path} {batchSize : Nat} :
    (∃ answers after, x.Scans t files batchSize answers after) ↔
      ∀ p ∈ files, examine t p.normalize (x.graph.get? p.normalize) ≠ none := by
  constructor
  · rintro ⟨_, _, run⟩
    exact run.outcome.1
  · intro settles
    have whole := flatten_pieces (batchSize - 1) files
    obtain ⟨after, returns⟩ := exists_scanBatches_iff (x := x) (t := t) |>.mpr (whole.symm ▸ settles)
    obtain ⟨answers, run⟩ := Scans.scanBatches returns
    exact ⟨answers, after, run⟩

/-- A scan leaves resident what can be served or parsed. -/
theorem Scans.resident {x : SourceIndex} {t : FileTree} {files : List Path} {batchSize : Nat}
    {answers : List (Result Nat)} {after : ScanStats × SourceIndex} (run : x.Scans t files batchSize answers after)
    {p : Path} (listed : p ∈ files) {e : SourceEntry} {outcome : Outcome}
    (seen : examine t p.normalize (x.graph.get? p.normalize) = some (.ok (e, outcome))) :
    ∃ d, after.2.graph.get? p.normalize = some d ∧ d.forward = e.forward := by
  obtain ⟨_, _, g, ledger, graph, _⟩ := run.outcome
  have looked : examine t p.normalize (x.graph.forward? p.normalize) = some (.ok (e.forward, outcome)) := by
    rw [Graph.forward?, examine_forward, seen]
    rfl
  have entered := Ledger.forward_enters_of_seen (l := ⟨0, x.graph.forward?⟩) listed looked
  rw [← ledger] at entered
  rw [graph]
  exact Option.map_eq_some_iff.mp ((Graph.forward?_rebuild g _).trans entered)

/-- The scan of a workspace runs in one of the ways of `Scans`, of which there is one if no file is read for ever.
    All of them lead to one graph, to the same counts, which add up, and to the same failures, and what can be served
    or parsed is resident then. If the files have paths that can be spelled and the store refuses nothing, they lead
    to the same rows up to the edges towards the entries. -/
theorem scan_order_irrelevant (x : SourceIndex) (t : FileTree) :
    (∀ (m : Matcher) (c : Config) (done : ScanStats × SourceIndex),
      x.scan t m c.effectiveBatchSize = some done → ∃ answers, x.Scans t (m.walk t) c.batchSize answers done) ∧
    (∀ (files : List Path) (size : Nat), (∃ answers after, x.Scans t files size answers after) ↔
      ∀ p ∈ files, examine t p.normalize (x.graph.get? p.normalize) ≠ none) ∧
    ∀ (files : List Path) (size₁ size₂ : Nat) (answers₁ answers₂ : List (Result Nat))
      (after₁ after₂ : ScanStats × SourceIndex),
      x.Scans t files size₁ answers₁ after₁ → x.Scans t files size₂ answers₂ after₂ →
        after₁.2.graph = after₂.2.graph ∧
        after₁.1.files = after₂.1.files ∧ after₁.1.parsed = after₂.1.parsed ∧ after₁.1.cached = after₂.1.cached ∧
        after₁.1.files = after₁.1.parsed + after₁.1.cached + after₁.1.failures.length ∧
        after₁.1.failures.Perm after₂.1.failures ∧
        (∀ p ∈ files, ∀ e outcome, examine t p.normalize (x.graph.get? p.normalize) = some (.ok (e, outcome)) →
          ∃ d, after₁.2.graph.get? p.normalize = some d ∧
            { d with dependedBy := [] } = { e with dependedBy := [] }) ∧
        ((∀ p ∈ files, FileUri.Canonical p.normalize) →
          (∀ a ∈ answers₁, Succeeds a) → (∀ a ∈ answers₂, Succeeds a) →
            (after₁.2.store.sources.map SourceRow.forward).Perm (after₂.2.store.sources.map SourceRow.forward)) := by
  refine ⟨fun _ _ _ => Scans.scan, fun _ _ => exists_scans_iff, ?_⟩
  intro files size₁ size₂ answers₁ answers₂ after₁ after₂ run₁ run₂
  obtain ⟨settles, produced₁, g₁, ledger₁, graph₁, files₁, rows₁⟩ := run₁.outcome
  obtain ⟨_, produced₂, g₂, ledger₂, graph₂, files₂, rows₂⟩ := run₂.outcome
  obtain ⟨account, forward⟩ := Ledger.mk.inj (ledger₁.trans ledger₂.symm)
  obtain ⟨parsed, cached, failures, produced⟩ := Account.mk.inj account
  have total := Ledger.size_enters (l := ⟨0, x.graph.forward?⟩) fun p member => Ledger.settles_forward.mpr (settles p member)
  rw [← ledger₁] at total
  refine ⟨?_, files₁.trans files₂.symm, parsed, cached, ?_, Multiset.coe_eq_coe.mp failures,
    fun p listed e outcome => run₁.resident listed, ?_⟩
  · rw [graph₁, graph₂]
    exact Graph.rebuild_congr (congrFun forward)
  · have nothing : Account.size 0 = 0 := rfl
    rw [files₁, ← Nat.zero_add files.length, ← nothing, ← total]
    rfl
  · intro canonical granted₁ granted₂
    have afresh : ∀ e ∈ produced₁, described t e.uri = some e ∧ e.uri.Canonical := by
      intro e member
      have entered : e ∈ (files.foldl (Ledger.enter t) ⟨0, x.graph.forward?⟩).account.produced :=
        ledger₁ ▸ Multiset.mem_coe.mpr member
      obtain ⟨called, _, p, listed, named⟩ := Ledger.produced_afresh rfl entered
      exact ⟨called, named ▸ canonical p listed⟩
    apply Multiset.coe_eq_coe.mp
    calc after₁.2.store.forwardRows = produced₁.foldl Store.write x.store.forwardRows := rows₁ granted₁
      _ = produced₂.foldl Store.write x.store.forwardRows :=
        write_perm (Multiset.coe_eq_coe.mp produced) (fun e member => (afresh e member).1)
          (fun e member => (afresh e member).2) _
      _ = after₂.2.store.forwardRows := (rows₂ granted₂).symm

/-! ## Two documents at the same time

The first document imports the second. Both are parsed before either is resident, the second is resident first,
and the first is counted first. -/

namespace Overlap

open Running Relation Sample

def first : Path := root.child "A.qml"

def second : Path := root.child "B.qml"

def files : List Path := [first, second]

def document (text : String) : Node := .file ⟨text.toUTF8, 5⟩

def tree : FileTree where
  nodes := ((FileTree.empty.nodes.insert root (.directory 1)).insert first (document "import \"B.qml\"\nItem \x7b\x7d\n")).insert
    second (document "Item \x7b\x7d\n")

def index : SourceIndex := ⟨.empty, .empty⟩

def entry (u : FileUri) : SourceEntry := (described tree u).getD default

def early : SourceEntry × SourceIndex := index.commit (entry second) false

def late : SourceEntry × SourceIndex := early.2.commit (entry first) false

-- The batch before it starts, when both entries are resident, and when all members are counted.
def initial : Progress := ⟨{ files := 2 }, [], index⟩

def resident : Progress := { initial with index := late.2 }

def final : Progress := (resident.count first (.ok (late.1, .parsed))).count second (.ok (early.1, .parsed))

set_option maxRecDepth 10000 in
theorem looks :
    examine tree first.normalize none = some (.ok (entry first, .parsed)) ∧
      examine tree second.normalize none = some (.ok (entry second, .parsed)) := by
  decide +kernel

theorem run : Runs tree files initial final := by
  have parse_first : Step tree ⟨files, 0, 0, initial⟩ ⟨second ::ₘ 0, (first, entry first) ::ₘ 0, 0, initial⟩ :=
    .parse rfl (by simp [locked]) looks.1
  have parse_second : Step tree ⟨second ::ₘ 0, (first, entry first) ::ₘ 0, 0, initial⟩
      ⟨0, (second, entry second) ::ₘ (first, entry first) ::ₘ 0, 0, initial⟩ :=
    .parse rfl (by simp [locked]; decide) looks.2
  have commit_second : Step tree ⟨0, (second, entry second) ::ₘ (first, entry first) ::ₘ 0, 0, initial⟩
      ⟨0, (first, entry first) ::ₘ 0, (second, .ok (early.1, .parsed)) ::ₘ 0, { initial with index := early.2 }⟩ :=
    .commit rfl
  have commit_first : Step tree
      ⟨0, (first, entry first) ::ₘ 0, (second, .ok (early.1, .parsed)) ::ₘ 0, { initial with index := early.2 }⟩
      ⟨0, 0, (first, .ok (late.1, .parsed)) ::ₘ (second, .ok (early.1, .parsed)) ::ₘ 0, resident⟩ :=
    .commit rfl
  have join_first : Step tree
      ⟨0, 0, (first, .ok (late.1, .parsed)) ::ₘ (second, .ok (early.1, .parsed)) ::ₘ 0, resident⟩
      ⟨0, 0, (second, .ok (early.1, .parsed)) ::ₘ 0, resident.count first (.ok (late.1, .parsed))⟩ :=
    .join rfl
  have join_second : Step tree
      ⟨0, 0, (second, .ok (early.1, .parsed)) ::ₘ 0, resident.count first (.ok (late.1, .parsed))⟩ ⟨0, 0, 0, final⟩ :=
    .join rfl
  exact .head parse_first <| .head parse_second <| .head commit_second <| .head commit_first <|
    .head join_first <| .single join_second

theorem canonical : ∀ p ∈ files, FileUri.Canonical p.normalize := by
  intro p listed
  simp only [files, List.mem_cons, List.not_mem_nil, or_false] at listed
  rcases listed with rfl | rfl <;> rfl

def overlapped : SourceIndex := final.index.persist final.produced

def scanned : ScanStats × SourceIndex := (final.stats, { overlapped with graph := overlapped.graph.rebuild })

theorem overlapping : ∃ answers, index.Scans tree files 2 answers scanned := by
  have one : pieces 1 files = [files] := by simp [pieces, files]
  have batch : Batches tree ({ files := 2 }, index) [files] _ (final.stats, overlapped) := .cons run (.nil _)
  rw [← one] at batch
  exact ⟨_, _, batch, rfl⟩

end Overlap

open Overlap in
theorem scan_order_irrelevant_overlapping :
    ∃ single, index.scanBatches tree (pieces 0 files) = some single ∧ single.2.graph = scanned.2.graph ∧
      single.1.files = single.1.parsed + single.1.cached + single.1.failures.length ∧
      (∃ d, single.2.graph.get? first = some d ∧ d.forward = entry first) ∧
      (single.2.store.sources.map SourceRow.forward).Perm (scanned.2.store.sources.map SourceRow.forward) := by
  obtain ⟨_, ends, agree⟩ := scan_order_irrelevant index tree
  obtain ⟨answers, overlapping⟩ := overlapping
  have settles := (ends files 2).mp ⟨answers, scanned, overlapping⟩
  obtain ⟨single, returns⟩ := exists_scanBatches_iff (x := index) |>.mpr ((flatten_pieces 0 files).symm ▸ settles)
  obtain ⟨others, alone⟩ : ∃ answers, index.Scans tree files 0 answers single := Scans.scanBatches returns
  obtain ⟨graph, _, _, _, total, _, resident, rows⟩ := agree files 0 2 _ _ _ _ alone overlapping
  obtain ⟨d, live, same⟩ := resident first (by simp [files]) _ _ looks.1
  have whole : (entry first).forward = entry first := (described_uri (Ledger.described_of_parsed looks.1)).2
  have yields : index.store.Yields .sources := Store.yields_of_refusals rfl .sources
  exact ⟨single, returns, graph, total, ⟨d, live, same.trans whole⟩,
    rows canonical (alone.granted yields canonical) (overlapping.granted yields canonical)⟩

end SourceIndex

end QmlIndex
