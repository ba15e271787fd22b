import KeepBlame.Apply
import KeepBlame.Generation

/-!
A run over a list of files. First every file gets its edits, against the commit that the repository is at; then the
edits are made and committed author by author, as far as the mode of the run allows.
-/
namespace KeepBlame

inductive Mode where
  | dryRun
  | noCommit
  | commit
  deriving DecidableEq, Repr

structure RunOptions where
  mode : Mode
  generate : GenerateOptions
  commit : CommitSettings
  deriving DecidableEq, Repr

structure RunSummary where
  files : Nat
  formatted : List Path
  skipped : Nat
  baseline : Option CommitId
  applied : Option ApplySummary
  deriving DecidableEq, Repr

structure RunResult where
  outcome : Outcome ApplyError RunSummary
  disk : Disk
  repository : Option Git.Repository
  reports : List FileReport
  warnings : List Log.Record

namespace Run

def generatedOf (report : FileReport) : Option (Path × Generated) :=
  match report.outcome with
  | .formatted g => some (report.path, g)
  | _ => none

def generated (reports : List FileReport) : List (Path × Generated) := reports.filterMap generatedOf

def isSkipped (report : FileReport) : Bool :=
  match report.outcome with
  | .skipped _ => true
  | _ => false

def attributedOf (entry : Path × Generated) : List AttributedEdit :=
  match entry.2.attribution with
  | .attributed edits => edits.map fun (id, attribution) => ⟨entry.1, id, attribution⟩
  | .unattributed _ => []

def unattributedOf (entry : Path × Generated) : List (Path × Span) :=
  match entry.2.attribution with
  | .attributed _ => []
  | .unattributed _ => entry.2.set.ids.map fun id => (entry.1, id)

def partition (entries : List (Path × Generated)) : Partition :=
  Partition.build (entries.flatMap attributedOf) (entries.flatMap unattributedOf)

def pendingFiles (entries : List (Path × Generated)) : PendingFiles :=
  entries.foldl (fun files (path, g) => files.put path g.set) []

def noHead (cause : Git.Error) : Log.Record where
  level := .warn
  message := "no HEAD commit, all edits will be unattributed"
  fields := [{ name := "error", value := cause.message }]

def baseline : Option Git.Repository → Option CommitId × List Log.Record
  | none => (none, [])
  | some r =>
    match r.resolve "HEAD" with
    | .ok id => (some id, [])
    | .error e => (none, [noHead e])

def summary (reports : List FileReport) (baseline : Option CommitId) (applied : Option ApplySummary) : RunSummary where
  files := reports.length
  formatted := (generated reports).map Prod.fst
  skipped := reports.countP isSkipped
  baseline := baseline
  applied := applied

def finish (disk : Disk) (repository : Option Git.Repository) (baseline : Option CommitId) (o : RunOptions)
    (reports : List FileReport) (warnings : List Log.Record) : RunResult :=
  -- Files are generated side by side, so that a panic in one of them shows when all have been seen.
  match reports.findSome? FileReport.panic? with
  | some panic => ⟨.panic panic, disk, repository, reports, warnings⟩
  | none =>
    match o.mode with
    | .dryRun => ⟨.ok (summary reports baseline none), disk, repository, reports, warnings⟩
    | mode =>
      let committer := if mode = .commit then repository else none
      let w : Worksite := { disk, repository := committer, pending := pendingFiles (generated reports) }
      let (outcome, w) := w.apply (partition (generated reports)) o.commit
      { outcome := outcome.map fun applied => summary reports baseline (some applied)
        disk := w.disk
        repository := w.repository <|> repository
        reports
        warnings := warnings ++ w.warnings }

end Run

def run (disk : Disk) (repository : Option Git.Repository) (formatter : Formatter) (files : List Path)
    (o : RunOptions) : RunResult :=
  let (baseline, missing) := Run.baseline repository
  let g : Generator := { disk, repository, baseline, formatter, options := o.generate }
  let reports := files.map g.file
  Run.finish disk repository baseline o reports (missing ++ reports.flatMap FileReport.warnings)

end KeepBlame
