import KeepBlame.EditSet
import KeepBlame.Git.Repository
import KeepBlame.Log
import KeepBlame.Partition
import KeepBlame.Settings

/-!
Making the edits of a run: one batch after the other, the authors' in ascending order and the unattributed edits last.
All files of a batch are edited in place before it is staged and committed. The first failure or panic ends it all; what
has been written stays.
-/
namespace KeepBlame

structure Batch where
  label : String
  files : List FileEdits
  message : String
  author : Option Author
  sourceCommits : Nat
  deriving DecidableEq, Repr

namespace Partition

def authorBatch (o : CommitSettings) (g : AuthorGroup) : Batch where
  label := g.author.ident
  files := g.files
  message := o.message
  author := some g.author
  sourceCommits := g.commits.length

def unattributedBatch (o : CommitSettings) (files : List FileEdits) : Batch where
  label := "unattributed edits"
  files := files
  message := o.unattributedMessage
  author := o.fallbackAuthor
  sourceCommits := 0

def batches (p : Partition) (o : CommitSettings) : List Batch :=
  p.groups.map (authorBatch o) ++ if p.unattributed.isEmpty then [] else [unattributedBatch o p.unattributed]

end Partition

abbrev PendingFiles := List (Path × EditSet)

namespace PendingFiles

def get? (files : PendingFiles) (p : Path) : Option EditSet := (files.find? (·.1.same p)).map Prod.snd

def put (files : PendingFiles) (p : Path) (set : EditSet) : PendingFiles :=
  if (get? files p).isSome then files.map fun f => if f.1.same p then (f.1, set) else f
  else files ++ [(p, set)]

end PendingFiles

inductive ApplyCause where
  | missingFile (path : Path)
  | cannotOpen (path : Path) (cause : OsError)
  | cannotEdit (path : Path) (cause : EditError)
  | git (cause : Git.Error)
  deriving DecidableEq, Repr

def ApplyCause.message : ApplyCause → String
  | missingFile path => s!"no generated edits for {path.text}"
  | cannotOpen path cause => s!"could not open {path.text} for editing: {cause.message}"
  | cannotEdit path cause => s!"could not edit {path.text}: {cause.message}"
  | git cause => cause.message

def ApplyCause.deeper : ApplyCause → List String
  | cannotOpen _ cause => [cause.message]
  | cannotEdit _ cause => [cause.message]
  | _ => []

/-- The files of `modified` have been opened for editing and are left as they are. -/
structure ApplyError where
  batch : String
  modified : List Path
  cause : ApplyCause
  deriving DecidableEq, Repr

def ApplyError.message (e : ApplyError) : String :=
  let left := String.intercalate ", " (e.modified.map Path.text)
  let tail :=
    if e.modified.isEmpty then ""
    else s!"; {e.modified.length} file(s) already modified and left in place: {left}"
  s!"applying edits for {e.batch} failed{tail}"

structure BatchRecord where
  author : Option Author
  files : Nat
  edits : Nat
  sourceCommits : Nat
  commit : Option CommitId
  deriving DecidableEq, Repr

structure ApplySummary where
  batches : List BatchRecord
  modified : List Path
  deriving DecidableEq, Repr

def ApplySummary.commits (s : ApplySummary) : Nat := s.batches.countP (·.commit.isSome)

structure Worksite where
  disk : Disk
  repository : Option Git.Repository
  pending : PendingFiles
  modified : List Path := []
  warnings : List Log.Record := []
  deriving DecidableEq, Repr

namespace Worksite

def applyIds (set : EditSet) (target : Stream) : List Span → EditSet.Step Unit
  | [] => .made () set target
  | id :: rest =>
    match set.apply id target with
    | .made _ set target => applyIds set target rest
    | .refused cause set target => .refused cause set target
    | .panicked panic target => .panicked panic target

-- A path counts as modified once its file is open.
def markModified (p : Path) (modified : List Path) : List Path :=
  Ordered.alter Path.components p.components p id modified

def edit (w : Worksite) (p : Path) (place : Place) (left : EditSet) (bytes : Bytes) : Worksite :=
  { w with
    disk := w.disk.write place bytes
    pending := w.pending.put p left
    modified := markModified p w.modified }

def applyFile (w : Worksite) (f : FileEdits) : Outcome ApplyCause Unit × Worksite :=
  match w.pending.get? f.path with
  | none => (.error (.missingFile f.path), w)
  | some set =>
    match w.disk.openFile f.path with
    | .error e => (.error (.cannotOpen f.path e), w)
    | .ok (place, bytes) =>
      let step := applyIds set ⟨bytes, 0⟩ f.ids
      (step.result.mapError (.cannotEdit f.path), w.edit f.path place (step.set?.getD set) step.target.bytes)

def applyFiles (w : Worksite) : List FileEdits → Outcome ApplyCause Unit × Worksite
  | [] => (.ok (), w)
  | f :: rest =>
    match w.applyFile f with
    | (.ok (), w) => w.applyFiles rest
    | stopped => stopped

def nothingStaged (label : String) : Log.Record where
  level := .warn
  message := "nothing staged, skipping commit"
  fields := [{ name := "group", value := label, quoted := true }]

def commitTo (w : Worksite) (r : Git.Repository) (b : Batch) : Except Git.Error (Option CommitId) × Worksite :=
  match r.stage w.disk (b.files.map FileEdits.path) with
  | (.error e, r) => (.error e, { w with repository := some r })
  | (.ok (), r) =>
    match r.hasStaged w.disk with
    | (.error e, r) => (.error e, { w with repository := some r })
    | (.ok false, r) =>
      (.ok none, { w with repository := some r, warnings := w.warnings ++ [nothingStaged b.label] })
    | (.ok true, r) =>
      match r.commit w.disk b.message b.author with
      | (.error e, r) => (.error e, { w with repository := some r })
      | (.ok id, r) => (.ok (some id), { w with repository := some r })

def commit (w : Worksite) (b : Batch) : Except Git.Error (Option CommitId) × Worksite :=
  match w.repository with
  | none => (.ok none, w)
  | some r => w.commitTo r b

def batchRecord (b : Batch) (commit : Option CommitId) : BatchRecord where
  author := b.author
  files := b.files.length
  edits := FileEdits.count b.files
  sourceCommits := b.sourceCommits
  commit := commit

def applyBatch (w : Worksite) (b : Batch) : Outcome ApplyCause BatchRecord × Worksite :=
  match w.applyFiles b.files with
  | (.panic panic, w) => (.panic panic, w)
  | (.error cause, w) => (.error cause, w)
  | (.ok (), w) =>
    match w.commit b with
    | (.error e, w) => (.error (.git e), w)
    | (.ok id, w) => (.ok (batchRecord b id), w)

def applyBatches (w : Worksite) : List Batch → Outcome ApplyError (List BatchRecord) × Worksite
  | [] => (.ok [], w)
  | b :: rest =>
    match w.applyBatch b with
    | (.panic panic, w) => (.panic panic, w)
    | (.error cause, w) => (.error ⟨b.label, w.modified, cause⟩, w)
    | (.ok record, w) =>
      let (outcome, w) := w.applyBatches rest
      (outcome.map (record :: ·), w)

def apply (w : Worksite) (p : Partition) (o : CommitSettings) : Outcome ApplyError ApplySummary × Worksite :=
  let (outcome, w) := w.applyBatches (p.batches o)
  (outcome.map (⟨·, w.modified⟩), w)

end Worksite
end KeepBlame
