import KeepBlame.Formatter
import KeepBlame.Glob
import KeepBlame.Run
import KeepBlame.Settings.Load

/-! Why a call of the command line fails, and how that is reported. -/
namespace KeepBlame.CommandLine

inductive Failure where
  | notARepository (directory : String)
  | settings (cause : LoadError)
  | formatterMissing (program : String) (cause : FormatterError)
  | noSuchPath (path : Path) (cause : OsError)
  | badExclusion (raw : String) (cause : Glob.PatternError)
  | unreadableBanner (file : String) (cause : OsError)
  | noJobs
  | run (cause : ApplyError)
  deriving DecidableEq, Repr

namespace Failure

def message : Failure → String
  | notARepository directory => s!"{directory} is not a git repository"
  | settings cause => cause.message
  | formatterMissing program _ => s!"`{program}` is required"
  | noSuchPath path _ => s!"no such path: {path.text}"
  | badExclusion raw _ => s!"bad --exclude: {raw}"
  | unreadableBanner file _ => s!"could not read copyright file {file}"
  | noJobs => "--jobs must be at least 1"
  | run cause => cause.message

def formatterCauses (e : FormatterError) : List String :=
  match e with
  | .spawn _ cause => [e.message, cause.message]
  | _ => [e.message]

def causes : Failure → List String
  | formatterMissing _ cause => formatterCauses cause
  | noSuchPath _ cause => [cause.message]
  | badExclusion _ cause => [cause.message]
  | unreadableBanner _ cause => [cause.message]
  | run e => e.cause.message :: e.cause.deeper
  | _ => []

def indent (first later text : String) : String :=
  first ++ String.intercalate ("\n" ++ later) ((text.toList.splitOn '\n').map String.ofList)

def numbered (n : Nat) (text : String) : String :=
  let digits := toString n
  indent (String.ofList (List.replicate (5 - digits.length) ' ') ++ digits ++ ": ") "       " text

def causeLines : List String → List String
  | [cause] => [indent "    " "    " cause]
  | causes => causes.mapIdx numbered

def report (f : Failure) : String :=
  let causes := f.causes
  if causes.isEmpty then s!"Error: {f.message}"
  else s!"Error: {f.message}\n\nCaused by:\n" ++ String.intercalate "\n" (causeLines causes)

end Failure
end KeepBlame.CommandLine
