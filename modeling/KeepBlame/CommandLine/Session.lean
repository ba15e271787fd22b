import KeepBlame.CommandLine.Failure
import KeepBlame.CommandLine.Flags
import KeepBlame.Disk.Find

/-!
One call of the command line: the repository is opened, settings are loaded, the formatter is asked for its version, files
are searched for, and the run follows. The first of these that fails is the failure of the call.
-/
namespace KeepBlame.CommandLine

structure Host where
  disk : Disk
  directory : Path
  store : Option Git.Store
  tools : Toolbox

structure Ending where
  mode : Mode
  outcome : Outcome Failure RunSummary
  disk : Disk
  repository : Option Git.Repository
  formatterCalls : List (List String)
  blames : List Git.Call
  records : List Log.Record

def programVersion : String := "blamefmt 0.4.0"

namespace Host

def here (h : Host) : Path :=
  match h.disk.canonical h.directory with
  | .ok p => p
  | .error _ => h.directory

def target (h : Host) (f : Flags) : Path :=
  match f.path with
  | some p => h.here.join p
  | none => h.here

def noRepository (cause : Git.OpenError) : Log.Record where
  level := .warn
  message := "not inside a git repository, formatting without commits"
  fields := [{ name := "error", value := cause.message }]

def openRepository (h : Host) (f : Flags) : Except Failure (Option Git.Repository × List Log.Record) :=
  match f.repo with
  | some directory =>
    match Git.discover h.disk h.store (h.here.join directory) with
    | .ok r => .ok (some r, [])
    | .error _ => .error (.notARepository directory)
  | none =>
    let target := h.target f
    let start := if h.disk.isFile target then target.parent?.getD target else target
    match Git.discover h.disk h.store start with
    | .ok r => .ok (some r, [])
    | .error e => .ok (none, [noRepository e])

def loadSettings (h : Host) (f : Flags) (r : Option Git.Repository) : Except Failure Settings :=
  let shown := match f.config with
    | some file => ⟨file⟩
    | none => ((r.map Git.Repository.workTree).getD h.here).join Settings.fileName
  match Settings.load h.disk (h.here.join shown.text) shown with
  | .ok settings => .ok settings
  | .error e => .error (.settings e)

def searchRoot (h : Host) (f : Flags) (r : Option Git.Repository) : Except Failure Path :=
  match f.path, r with
  | none, some r => .ok r.workTree
  | _, _ =>
    match h.disk.canonical (h.target f) with
    | .ok p => .ok p
    | .error e => .error (.noSuchPath (h.target f) e)

def exclusion (h : Host) (raw : String) : Except Failure Exclusion :=
  match Exclusion.parse raw h.here with
  | .ok e => .ok e
  | .error e => .error (.badExclusion raw e)

def mode (f : Flags) : Mode := if f.dryRun then .dryRun else if f.noCommit then .noCommit else .commit

def banner (h : Host) (f : Flags) (settings : Settings) : Except Failure (Option Bytes) :=
  match f.copyright, f.copyrightFile with
  | some text, _ => .ok (some (Utf8.ofText text))
  | none, some file =>
    match h.disk.read (h.here.join file) with
    | .ok bytes => .ok (some bytes)
    | .error e => .error (.unreadableBanner file e)
  | none, none => .ok (settings.format.copyright.map Utf8.ofText)

def identity (r : Git.Repository) : Option Author := do
  return ⟨← r.setting? "user.name", ← r.setting? "user.email"⟩

def fallbackAuthor (f : Flags) (settings : Settings) (r : Option Git.Repository) : Option Author :=
  f.author <|> settings.commit.fallbackAuthor <|> r.bind identity

def maxBytes (f : Flags) (settings : Settings) : UInt64 :=
  (min ((f.limit.getD settings.format.maxFileKb) * 1024) Text.wordLimit).toUInt64

def options (h : Host) (f : Flags) (settings : Settings) (r : Option Git.Repository) : Except Failure RunOptions := do
  let copyright ← h.banner f settings
  if f.jobs = some 0 then .error .noJobs
  else
    return {
      mode := mode f
      generate := { maxBytes := maxBytes f settings, copyright }
      commit := { settings.commit with fallbackAuthor := fallbackAuthor f settings r } }

def plan (h : Host) (f : Flags) (settings : Settings) (r : Option Git.Repository) :
    Except Failure (List Path × RunOptions) := do
  let root ← h.searchRoot f r
  let exclusions ← f.exclude.mapM h.exclusion
  let files := h.disk.find root ⟨exclusions, settings.wants⟩
  return (files, ← h.options f settings r)

def formatCommand (f : Flags) (settings : Settings) : FormatCommand :=
  ⟨settings.format.command, f.style.getD settings.format.style⟩

def failed (h : Host) (f : Flags) (e : Failure) (formatterCalls : List (List String)) (records : List Log.Record) :
    Ending where
  mode := mode f
  outcome := .error e
  disk := h.disk
  repository := none
  formatterCalls := formatterCalls
  blames := []
  records := records

def ofRun (command : FormatCommand) (mode : Mode) (records : List Log.Record) (result : RunResult) : Ending where
  mode := mode
  outcome := result.outcome.mapError .run
  disk := result.disk
  repository := result.repository
  formatterCalls := FormatCommand.versionArguments ::
    (result.reports.filter FileReport.formatterAsked).map fun r => command.fileArguments r.path
  blames := result.reports.filterMap FileReport.blame
  records := records ++ result.warnings

def session (h : Host) (f : Flags) : Ending :=
  match h.openRepository f with
  | .error e => h.failed f e [] []
  | .ok (r, records) =>
    match h.loadSettings f r with
    | .error e => h.failed f e [] records
    | .ok settings =>
      let command := formatCommand f settings
      let asked := if h.tools.names.contains command.program then [FormatCommand.versionArguments] else []
      match command.version h.tools with
      | .error e => h.failed f (.formatterMissing command.program e) asked records
      | .ok _ =>
        match h.plan f settings r with
        | .error e => h.failed f e asked records
        | .ok (files, o) =>
          ofRun command o.mode records (run h.disk r (command.formatter h.tools) files o)

end Host

namespace Ending

def exitCode (e : Ending) : Nat :=
  match e.outcome with
  | .ok _ => 0
  | .error _ => 1
  | .panic _ => 101

def batchLine (b : BatchRecord) (id : CommitId) : String :=
  let who := (b.author.map Author.ident).getD "configured user"
  s!"{id.short} {who}: {b.edits} edit(s) in {b.files} file(s)"

def summaryLines (mode : Mode) (s : RunSummary) (elapsed : String) : List String :=
  let paths := if mode = .dryRun then s.formatted.map Path.text else []
  let batches := (s.applied.map ApplySummary.batches).getD []
  let commits := batches.filterMap fun b => b.commit.map (batchLine b)
  let verb := if mode = .dryRun then "can be formatted" else "formatted"
  let total := s!"Time elapsed: {elapsed}s. {s.formatted.length} of {s.files} file(s) {verb}."
  let skipped := if s.skipped > 0 then [s!"{s.skipped} file(s) skipped, see warnings above."] else []
  paths ++ commits ++ total :: skipped

def output (e : Ending) (elapsed : String) : List String :=
  match e.outcome with
  | .ok summary => summaryLines e.mode summary elapsed
  | _ => []

def errorReport? (e : Ending) : Option String :=
  match e.outcome with
  | .ok _ => none
  | .error f => some f.report
  | .panic p => some s!"panicked: {p.message}"

end Ending
end KeepBlame.CommandLine
