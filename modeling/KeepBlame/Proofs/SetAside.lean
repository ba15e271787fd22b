import KeepBlame.Proofs.Untouched

/-! What a run sets aside. A file that is skipped or clean keeps its bytes, belongs to no batch and is staged by no call.
A dry run writes nothing, and a run that is not to commit asks git for blames only. -/
namespace KeepBlame

def FileOutcome.IsSetAside : FileOutcome → Prop
  | .skipped _ => True
  | .clean => True
  | _ => False

namespace Worksite
open Git (Exchange Chunked staged)

section Named
variable {chunk : List Path} {x : Exchange}

theorem submittedAdd {b : Batch} {disk : Disk} {exchanges : List Exchange}
    {outcome : Except Git.Error (Option CommitId)} (submitted : b.Submitted disk exchanges outcome)
    (mem : x ∈ exchanges) (add : x.call = .add chunk) : ∃ chunks, Chunked b.paths chunks ∧ chunk ∈ chunks := by
  cases submitted with
  | unstaged chunked | unsure chunked | unchanged chunked | uncommitted chunked | committed chunked =>
    refine ⟨_, chunked, ?_⟩
    simp only [List.mem_append, List.mem_map, List.mem_cons, List.not_mem_nil, or_false] at mem ⊢
    grind [staged]

theorem submittedNamed {b : Batch} {disk : Disk} {exchanges : List Exchange}
    {outcome : Except Git.Error (Option CommitId)} (submitted : b.Submitted disk exchanges outcome)
    (mem : x ∈ exchanges) (add : x.call = .add chunk) {q : Path} (named : q ∈ chunk) : q ∈ b.paths := by
  obtain ⟨chunks, chunked, held⟩ := submittedAdd submitted mem add
  rw [← chunked.whole]
  exact List.mem_flatten.mpr ⟨chunk, held, named⟩

theorem traceNamed {w last : Worksite} {batches : List Batch} {trace : List Exchange}
    {outcome : Outcome ApplyError (List BatchRecord)} (ran : Trace w batches trace outcome last)
    (mem : x ∈ trace) (add : x.call = .add chunk) {q : Path} (named : q ∈ chunk) : ∃ b ∈ batches, q ∈ b.paths := by
  induction ran with
  | done | panicked | halted => cases mem
  | refused edited submitted same => exact ⟨_, List.mem_cons_self, submittedNamed submitted mem add named⟩
  | next edited submitted same later ih =>
    rcases List.mem_append.mp mem with here | there
    · exact ⟨_, List.mem_cons_self, submittedNamed submitted here add named⟩
    · obtain ⟨b, batch, path⟩ := ih there
      exact ⟨b, List.mem_cons_of_mem _ batch, path⟩

end Named

theorem filesRepository (w : Worksite) (files : List FileEdits) : (w.applyFiles files).2.repository = w.repository := by
  induction files generalizing w with
  | nil => rfl
  | cons f rest ih =>
    have kept := stepRepository (applyFileStep w f)
    simp only [applyFiles]
    split
    · rename_i next went
      rw [went] at kept
      exact (ih next).trans kept
    · exact kept

theorem batchesAlone {w : Worksite} (alone : w.repository = none) (batches : List Batch) :
    (w.applyBatches batches).2.repository = none := by
  induction batches generalizing w with
  | nil => exact alone
  | cons b rest ih =>
    have kept := (filesRepository w b.files).trans alone
    simp only [applyBatches, applyBatch]
    cases ran : w.applyFiles b.files with
    | mk outcome middle =>
      rw [ran] at kept
      cases outcome with
      | panic panic => exact kept
      | error cause => exact kept
      | ok =>
        have commit : middle.commit b = (.ok none, middle) := by
          unfold Worksite.commit
          rw [kept]
        simp only [commit]
        exact ih kept

end Worksite

namespace Run
open Worksite (Kept)

def calls (before : Option Git.Repository) (result : RunResult) : List Git.Call :=
  result.reports.filterMap FileReport.blame ++
    ((journal result.repository).drop (journal before).length).map Git.Asked.call

inductive Finished (disk : Disk) (repository : Option Git.Repository) (baseline : Option CommitId) (o : RunOptions)
    (reports : List FileReport) : RunResult → Prop where
  | panicked {panic : Panic} {warnings : List Log.Record} (found : reports.findSome? FileReport.panic? = some panic) :
      Finished disk repository baseline o reports ⟨.panic panic, disk, repository, reports, warnings⟩
  | dry {warnings : List Log.Record} (ordered : reports.findSome? FileReport.panic? = none) (mode : o.mode = .dryRun) :
      Finished disk repository baseline o reports ⟨.ok (summary reports baseline none), disk, repository, reports, warnings⟩
  | applied {warnings : List Log.Record} {answer : Outcome ApplyError ApplySummary × Worksite}
      (ordered : reports.findSome? FileReport.panic? = none) (mode : o.mode ≠ .dryRun)
      (went : (worksite disk repository o (generated reports)).apply (partition (generated reports)) o.commit = answer) :
      Finished disk repository baseline o reports
        ⟨answer.1.map fun applied => summary reports baseline (some applied), answer.2.disk,
          answer.2.repository <|> repository, reports, warnings⟩

theorem finishFinished (disk : Disk) (repository : Option Git.Repository) (baseline : Option CommitId) (o : RunOptions)
    (reports : List FileReport) (warnings : List Log.Record) :
    Finished disk repository baseline o reports (finish disk repository baseline o reports warnings) := by
  cases ordered : reports.findSome? FileReport.panic? with
  | some panic =>
    rw [finishPanicked ordered]
    exact .panicked ordered
  | none =>
    by_cases mode : o.mode = .dryRun
    · simp only [finish, ordered, mode]
      exact .dry ordered mode
    · rw [finishApplied ordered mode rfl]
      exact .applied ordered mode rfl

section Finished
variable {disk : Disk} {repository : Option Git.Repository} {baseline : Option CommitId} {o : RunOptions}
  {reports : List FileReport} {result : RunResult} (finished : Finished disk repository baseline o reports result)
include finished

theorem finishedReports : result.reports = reports := by
  cases finished <;> rfl

theorem finishedDry (mode : o.mode = .dryRun) : result.disk = disk ∧ result.repository = repository := by
  cases finished with
  | panicked found => exact ⟨rfl, rfl⟩
  | dry ordered mode => exact ⟨rfl, rfl⟩
  | applied ordered writes went => exact absurd mode writes

theorem finishedUncommitted (uncommitted : committer o repository = none) : result.repository = repository := by
  cases finished with
  | panicked found => rfl
  | dry ordered mode => rfl
  | applied ordered writes went =>
    subst went
    change ((Worksite.applyBatches _ _).2.repository <|> repository) = repository
    rw [Worksite.batchesAlone uncommitted]
    rfl

theorem finishedRead {q : Path} (away : ∀ m ∈ (partition (generated reports)).paths, ∀ place,
    disk.locate m true = .ok place → disk.locate q true ≠ .ok place) : result.disk.read q = disk.read q := by
  cases finished with
  | panicked found => rfl
  | dry ordered mode => rfl
  | applied ordered writes went =>
    subst went
    have start : Kept disk (partition (generated reports)).paths (worksite disk repository o (generated reports)) :=
      Worksite.startKept rfl rfl
    have kept := (Worksite.applyBatchesKept start (Worksite.batchesListed _ o.commit)).1
    exact Worksite.keptRead kept fun m marked => away m (kept.listed m marked)

theorem finishedJournal : ∃ asked, journal result.repository = journal repository ++ asked ∧
    ∀ a ∈ asked, ∀ chunk, a.call = .add chunk → ∀ q ∈ chunk, q ∈ (partition (generated reports)).paths := by
  cases held : committer o repository with
  | none => exact ⟨[], by rw [finishedUncommitted finished held, List.append_nil], by simp⟩
  | some r =>
    cases finished with
    | panicked found => exact ⟨[], (List.append_nil _).symm, by simp⟩
    | dry ordered mode => exact ⟨[], (List.append_nil _).symm, by simp⟩
    | applied ordered writes went =>
      subst went
      have working : (worksite disk repository o (generated reports)).repository = some r := held
      obtain ⟨trace, after, ran, left, told⟩ := Worksite.applyBatchesTrace (Git.toldNil r) working
        ((partition (generated reports)).batches o.commit)
      refine ⟨trace.map Git.Exchange.asked, ?_, ?_⟩
      · change journal ((Worksite.applyBatches _ _).2.repository <|> _) = _
        rw [left, committerSome held]
        exact told.journal
      · intro a mem chunk add q named
        obtain ⟨x, exchanged, rfl⟩ := List.mem_map.mp mem
        obtain ⟨b, batch, path⟩ := Worksite.traceNamed ran exchanged add named
        obtain ⟨f, file, rfl⟩ := List.mem_map.mp path
        exact Worksite.batchesListed _ o.commit b batch f file

end Finished

theorem runFinished (disk : Disk) (repository : Option Git.Repository) (formatter : Formatter) (files : List Path)
    (o : RunOptions) :
    Finished disk repository (baseline repository).1 o
      (files.map (generator disk repository formatter o).file) (run disk repository formatter files o) :=
  finishFinished ..

theorem partitionPaths {entries : List (Path × Generated)} {q : Path} (mem : q ∈ (partition entries).paths) :
    ∃ entry ∈ entries, q = entry.1 := by
  obtain ⟨f, file, rfl⟩ := List.mem_map.mp mem
  rw [← Worksite.batchesFiles _ {}] at file
  obtain ⟨b, batch, inside⟩ := List.mem_flatMap.mp file
  exact batchPaths batch inside

theorem fileBlame {g : Generator} {p : Path} {c : Git.Call} (asked : (g.file p).blame = some c) :
    ∃ revision path, c = .blame revision path := by
  have call : ∀ c, g.blameCall? p = some c → ∃ revision path, c = .blame revision path := by
    intro c here
    unfold Generator.blameCall? Snapshot.call? at here
    split at here
    · obtain ⟨path, _, rfl⟩ := Option.map_eq_some_iff.mp here
      exact ⟨_, path, rfl⟩
    · cases here
  unfold Generator.file Generator.skip Generator.attributed at asked
  repeat' split at asked
  all_goals first | exact call c asked | cases asked

theorem callsAsked {before : Option Git.Repository} {result : RunResult} {asked : List Git.Asked}
    (grown : journal result.repository = journal before ++ asked) :
    calls before result = result.reports.filterMap FileReport.blame ++ asked.map Git.Asked.call := by
  rw [calls, grown, List.drop_left]

theorem generatedAway {g : Generator} {files : List Path}
    (apart : files.Pairwise fun p q => p.same q = false ∧
      ∀ place, g.disk.locate p true = .ok place → g.disk.locate q true ≠ .ok place)
    {p : Path} (listed : p ∈ files) (aside : (g.file p).outcome.IsSetAside) {entry : Path × Generated}
    (mem : entry ∈ generated (files.map g.file)) :
    entry.1.same p = false ∧ ∀ place, g.disk.locate entry.1 true = .ok place → g.disk.locate p true ≠ .ok place := by
  -- A path has one outcome, so the entry is for another one.
  have other : entry.1 ≠ p := by
    rintro rfl
    rw [generatedOutcome mem] at aside
    exact aside
  have : Std.Symm fun p q : Path => p.same q = false ∧
      ∀ place, g.disk.locate p true = .ok place → g.disk.locate q true ≠ .ok place :=
    ⟨fun p q apart => ⟨Path.apartSymm apart.1, fun place there here => apart.2 place here there⟩⟩
  exact apart.forall (generatedCourse mem).1 listed other

-- The file of two lines again, with a lone line end and a file beside it whose only edit changes nothing.
def asideDisk : Disk where
  nodes := [(["r"], .directory), (["r", "f"], .file sharedBytes), (["r", "g"], .file [10]), (["r", "h"], .file [97, 10])]

def asideFormatter : Formatter :=
  ⟨fun p => if p.text = "/r/f" then sharedFormatter.replacements p else .ok [⟨⟨0, 1⟩, [97]⟩]⟩

def asideRun : RunResult :=
  run asideDisk (some sharedRepository) asideFormatter [⟨"/r/f"⟩, ⟨"/r/g"⟩, ⟨"/r/h"⟩] sharedOptions

def asideGenerator : Generator := generator asideDisk (some sharedRepository) asideFormatter sharedOptions

theorem asideApart : [⟨"/r/f"⟩, ⟨"/r/g"⟩, ⟨"/r/h"⟩].Pairwise fun p q : Path => p.same q = false ∧
    ∀ place, asideDisk.locate p true = .ok place → asideDisk.locate q true ≠ .ok place := by
  have first : asideDisk.locate ⟨"/r/f"⟩ true = .ok ["r", "f"] := by decide +kernel
  have second : asideDisk.locate ⟨"/r/g"⟩ true = .ok ["r", "g"] := by decide +kernel
  have third : asideDisk.locate ⟨"/r/h"⟩ true = .ok ["r", "h"] := by decide +kernel
  have away : ∀ (p q : Path) (a b : Place), asideDisk.locate p true = .ok a → asideDisk.locate q true = .ok b → a ≠ b →
      p.same q = false ∧ ∀ place, asideDisk.locate p true = .ok place → asideDisk.locate q true ≠ .ok place := by
    intro p q a b left right other
    refine ⟨Bool.eq_false_iff.mpr fun same => other (Disk.locateSame same left right), ?_⟩
    intro place here there
    exact other (Except.ok.inj ((left.symm.trans here).trans (there.symm.trans right)))
  simp only [List.pairwise_cons, List.mem_cons, List.not_mem_nil, or_false, forall_eq_or_imp, forall_eq]
  exact ⟨⟨away _ _ _ _ first second (by decide), away _ _ _ _ first third (by decide)⟩,
    away _ _ _ _ second third (by decide), by simp, .nil⟩

end Run
end KeepBlame
