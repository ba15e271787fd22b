import KeepBlame.Proofs.EachOnce
import KeepBlame.Proofs.Exchanges

/-! What a run of batches leaves alone. A file changes only after it was opened for editing, and from then on its path is
reported as modified, whether the run succeeds or stops anywhere; a run that succeeds has opened every file of its batches. -/
namespace KeepBlame

def Partition.paths (p : Partition) : List Path :=
  (p.groups.flatMap AuthorGroup.files ++ p.unattributed).map FileEdits.path

namespace Worksite

section Marked
variable {p m : Path} {modified : List Path} (sorted : modified.Pairwise fun a b => a.components < b.components)
include sorted

theorem markMem : m ∈ markModified p modified ↔
    m ∈ modified ∨ (m = p ∧ ∀ q ∈ modified, q.components ≠ p.components) := by
  unfold markModified
  rw [Ordered.alterMem sorted]
  grind

theorem markSorted : (markModified p modified).Pairwise fun a b => a.components < b.components :=
  Ordered.alterSorted (fun _ => rfl) rfl sorted

theorem markSame : ∃ m ∈ markModified p modified, m.same p = true := by
  by_cases marked : ∃ q ∈ modified, q.components = p.components
  · obtain ⟨q, mem, same⟩ := marked
    exact ⟨q, (markMem sorted).mpr (.inl mem), by simpa [Path.same] using same⟩
  · exact ⟨p, (markMem sorted).mpr (.inr ⟨rfl, fun q mem same => marked ⟨q, mem, same⟩⟩), by simp [Path.same]⟩

end Marked

/-- The worksite differs from `disk` in the files of its modified paths at most, and these are among `paths`. -/
structure Kept (disk : Disk) (paths : List Path) (w : Worksite) : Prop where
  shape : Disk.SameShape w.disk disk
  sorted : w.modified.Pairwise fun a b => a.components < b.components
  listed : ∀ m ∈ w.modified, m ∈ paths
  located : ∀ m ∈ w.modified, ∃ place, disk.locate m true = .ok place
  others : ∀ place, (∀ m ∈ w.modified, disk.locate m true ≠ .ok place) → w.disk.node? place = disk.node? place

section Kept
variable {disk : Disk} {paths : List Path} {w : Worksite}

theorem startKept (here : w.disk = disk) (fresh : w.modified = []) : Kept disk paths w where
  shape := here ▸ Disk.sameShapeRefl _
  sorted := fresh ▸ .nil
  listed := by simp [fresh]
  located := by simp [fresh]
  others := fun _ _ => by rw [here]

theorem editKept (kept : Kept disk paths w) {p : Path} (mem : p ∈ paths) {place : Place} {old : Bytes}
    (opened : w.disk.openFile p = .ok (place, old)) (left : EditSet) (bytes : Bytes) :
    Kept disk paths (w.edit p place left bytes) := by
  obtain ⟨there, file⟩ := Disk.openFileOk opened
  rw [Disk.locateSameShape kept.shape] at there
  have located : ∀ m ∈ markModified p w.modified, ∃ place, disk.locate m true = .ok place := by
    intro m marked
    rcases (markMem kept.sorted).mp marked with early | ⟨rfl, _⟩
    · exact kept.located m early
    · exact ⟨place, there⟩
  refine ⟨Disk.sameShapeTrans (Disk.writeSameShape file bytes) kept.shape, markSorted kept.sorted, ?_, located, ?_⟩
  · intro m marked
    rcases (markMem kept.sorted).mp marked with early | ⟨rfl, _⟩
    · exact kept.listed m early
    · exact mem
  · intro other free
    -- The path stands in the list, in one spelling or another, and all its spellings lead to one place.
    have away : other ≠ place := by
      rintro rfl
      obtain ⟨m, marked, same⟩ := markSame (p := p) kept.sorted
      obtain ⟨found, leads⟩ := located m marked
      cases Disk.locateSame same leads there
      exact free m marked leads
    change (w.disk.write place bytes).node? other = _
    rw [Disk.writeNode file, if_neg away]
    exact kept.others other fun m early => free m ((markMem kept.sorted).mpr (.inl early))

theorem stepKept {f : FileEdits} {outcome : Outcome ApplyCause Unit} {next : Worksite} (kept : Kept disk paths w)
    (mem : f.path ∈ paths) (step : FileStep w f outcome next) : Kept disk paths next := by
  cases step with
  | missing absent => exact kept
  | closed held unopened => exact kept
  | opened held opened ran => exact editKept kept mem opened _ _

theorem applyFilesKept {files : List FileEdits} (kept : Kept disk paths w) (listed : ∀ f ∈ files, f.path ∈ paths) :
    Kept disk paths (w.applyFiles files).2 := by
  induction files generalizing w with
  | nil => exact kept
  | cons f rest ih =>
    have next := stepKept kept (listed f List.mem_cons_self) (applyFileStep w f)
    simp only [applyFiles]
    split
    · rename_i after edited
      rw [edited] at next
      exact ih next fun g mem => listed g (List.mem_cons_of_mem f mem)
    · exact next

theorem sameKept {next : Worksite} (kept : Kept disk paths w) (same : SameFiles w next) : Kept disk paths next := by
  obtain ⟨shape, sorted, listed, located, others⟩ := kept
  rw [← same.modified] at sorted listed located others
  rw [← same.disk] at shape others
  exact ⟨shape, sorted, listed, located, others⟩

-- A run that panics reports nothing; it has opened the files that the worksite has as modified.
def reported : Outcome ApplyError ApplySummary × Worksite → List Path
  | (.ok summary, _) => summary.modified
  | (.error e, _) => e.modified
  | (.panic _, w) => w.modified

theorem applyBatchesKept {batches : List Batch} (kept : Kept disk paths w)
    (listed : ∀ b ∈ batches, ∀ f ∈ b.files, f.path ∈ paths) :
    Kept disk paths (w.applyBatches batches).2 ∧
      ∀ e, (w.applyBatches batches).1 = .error e → e.modified = (w.applyBatches batches).2.modified := by
  induction batches generalizing w with
  | nil => exact ⟨kept, by simp [applyBatches]⟩
  | cons b rest ih =>
    have edited := applyFilesKept kept (listed b List.mem_cons_self)
    simp only [applyBatches, applyBatch]
    cases ran : w.applyFiles b.files with
    | mk outcome middle =>
      rw [ran] at edited
      cases outcome with
      | panic panic => exact ⟨edited, by simp⟩
      | error cause => exact ⟨edited, by rintro e ⟨rfl⟩; rfl⟩
      | ok =>
        have submitted := sameKept edited (commitSame middle b)
        dsimp only
        cases answered : middle.commit b with
        | mk answer next =>
          rw [answered] at submitted
          cases answer with
          | error e => exact ⟨submitted, by rintro e ⟨rfl⟩; rfl⟩
          | ok id =>
            obtain ⟨later, failed⟩ := ih submitted fun other mem => listed other (List.mem_cons_of_mem b mem)
            exact ⟨later, fun e error => failed e (Outcome.mapErrorIff.mp error)⟩

theorem keptRead (kept : Kept disk paths w) {q : Path}
    (away : ∀ m ∈ w.modified, ∀ place, disk.locate m true = .ok place → disk.locate q true ≠ .ok place) :
    w.disk.read q = disk.read q := by
  unfold Disk.read Disk.fileAt Disk.nodeAt
  rw [Disk.locateSameShape kept.shape]
  cases there : disk.locate q true with
  | error e => rfl
  | ok place =>
    have same := kept.others place fun m marked leads => away m marked place leads there
    simp only [bind, Except.bind, same]

end Kept

structure Opened (before after : List Path) (files : List FileEdits) : Prop where
  sorted : after.Pairwise fun a b => a.components < b.components
  early : ∀ m ∈ before, m ∈ after
  covered : ∀ f ∈ files, ∃ m ∈ after, m.same f.path = true

theorem editedOpened {w last : Worksite} {files : List FileEdits} {log : List (Path × Span)}
    (edited : Edited w files log last) (sorted : w.modified.Pairwise fun a b => a.components < b.components) :
    Opened w.modified last.modified files := by
  induction edited with
  | nil w => exact ⟨sorted, fun _ mem => mem, by simp⟩
  | @cons w last f rest set now place bytes target log held opened made next ih =>
    obtain ⟨final, early, covered⟩ := ih (markSorted sorted)
    refine ⟨final, fun m mem => early m ((markMem sorted).mpr (.inl mem)), ?_⟩
    intro g mem
    rcases List.mem_cons.mp mem with rfl | later
    · obtain ⟨m, marked, same⟩ := markSame (p := g.path) sorted
      exact ⟨m, early m marked, same⟩
    · exact covered g later

theorem workedOpened {w last : Worksite} {batches : List Batch} {log : List (Path × Span)}
    (worked : Worked w batches log last) (sorted : w.modified.Pairwise fun a b => a.components < b.components) :
    Opened w.modified last.modified (batches.flatMap Batch.files) := by
  induction worked with
  | nil w => exact ⟨sorted, fun _ mem => mem, by simp⟩
  | @cons w middle next last b rest log more id edited committed later ih =>
    have first := editedOpened edited sorted
    have same := (commitSame middle b).modified
    rw [committed] at same
    rw [same] at ih
    obtain ⟨final, early, covered⟩ := ih first.sorted
    refine ⟨final, fun m mem => early m (first.early m mem), ?_⟩
    intro f mem
    rcases List.mem_append.mp (List.flatMap_cons ▸ mem) with here | there
    · obtain ⟨m, marked, spelled⟩ := first.covered f here
      exact ⟨m, early m marked, spelled⟩
    · exact covered f there

theorem batchesFiles (p : Partition) (o : CommitSettings) :
    (p.batches o).flatMap Batch.files = p.groups.flatMap AuthorGroup.files ++ p.unattributed := by
  simp only [Partition.batches, List.flatMap_append, List.flatMap_map]
  congr 1
  cases p.unattributed <;> simp [Partition.unattributedBatch]

theorem batchesMem {p : Partition} {o : CommitSettings} {b : Batch} (batch : b ∈ p.batches o) {f : FileEdits}
    (file : f ∈ b.files) : f ∈ p.groups.flatMap AuthorGroup.files ++ p.unattributed := by
  rw [← batchesFiles p o]
  exact List.mem_flatMap.mpr ⟨b, batch, file⟩

theorem batchesListed (p : Partition) (o : CommitSettings) : ∀ b ∈ p.batches o, ∀ f ∈ b.files, f.path ∈ p.paths :=
  fun _ batch _ file => List.mem_map_of_mem (batchesMem batch file)

-- Files are told apart by where they stand on the disk; where no two of the paths `named` lead to one file, by path.
theorem onlyReportedChange (disk : Disk) (repository : Option Git.Repository) (pending : PendingFiles) (p : Partition)
    (o : CommitSettings) :
    let answer := ({ disk, repository, pending } : Worksite).apply p o
    (∀ place, (∀ m ∈ reported answer, disk.locate m true ≠ .ok place) →
      answer.2.disk.node? place = disk.node? place) ∧
    (∀ named : Path → Prop, (∀ q ∈ p.paths, named q) →
      (∀ a b, named a → named b → a.same b = false →
        ∀ place, disk.locate a true = .ok place → disk.locate b true ≠ .ok place) →
      ∀ q, named q → (∀ m ∈ reported answer, m.same q = false) → answer.2.disk.read q = disk.read q) ∧
    ∀ summary, answer.1 = .ok summary →
      (summary.modified.Pairwise fun a b => a.components < b.components) ∧
      ∀ q, (∃ m ∈ summary.modified, m.same q = true) ↔ ∃ f ∈ p.paths, f.same q = true := by
  intro answer
  have start : Kept disk p.paths { disk, repository, pending } := startKept rfl rfl
  obtain ⟨kept, failed⟩ := applyBatchesKept start (batchesListed p o)
  cases went : ({ disk, repository, pending } : Worksite).applyBatches (p.batches o) with
  | mk outcome last =>
    rw [went] at kept failed
    have answered : answer = (outcome.map (ApplySummary.mk · last.modified), last) := by simp only [answer, apply, went]
    have modified : reported answer = last.modified := by
      rw [answered]
      cases outcome with
      | ok records => rfl
      | error e => exact failed e rfl
      | panic panic => rfl
    rw [modified, answered]
    refine ⟨kept.others, ?_, ?_⟩
    · intro named all apart q known absent
      exact keptRead kept fun m marked => apart m q (all m (kept.listed m marked)) known (absent m marked)
    · intro summary ok
      cases outcome <;> cases ok
      have worked := workedOpened (applyBatchesWorked went) .nil
      refine ⟨worked.sorted, fun q => ⟨?_, ?_⟩⟩
      · rintro ⟨m, marked, same⟩
        exact ⟨m, kept.listed m marked, same⟩
      · rintro ⟨path, mem, same⟩
        obtain ⟨f, file, rfl⟩ := List.mem_map.mp mem
        rw [← batchesFiles p o] at file
        obtain ⟨m, marked, spelled⟩ := worked.covered f file
        simp only [Path.same, beq_iff_eq] at same spelled ⊢
        exact ⟨m, marked, spelled.trans same⟩

end Worksite
end KeepBlame
