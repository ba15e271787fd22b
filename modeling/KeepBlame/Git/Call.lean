import KeepBlame.Blame.Porcelain
import KeepBlame.Path

/-! What git is asked to do, and how it can fail. -/
namespace KeepBlame.Git

inductive Call where
  | blame (revision : CommitId) (path : Path)
  | add (paths : List Path)
  | diff
  | commit (message : String) (author : Option Author)
  deriving DecidableEq, Repr

namespace Call

def arguments : Call → List String
  | blame revision path => ["blame", "--porcelain", revision.text, "--", path.text]
  | add paths => "add" :: "--" :: paths.map Path.text
  | diff => ["diff", "--cached", "--quiet"]
  | commit message author =>
    ["commit", "--quiet", "--no-verify", "-m", message] ++ (author.map fun a => s!"--author={a.ident}").toList

def text (c : Call) : String := String.intercalate " " ("git" :: c.arguments)

end Call

inductive Error where
  | notFound (name detail : String)
  | notTracked (path : Path) (revision : CommitId)
  | commandFailed (call : Call) (code : Nat) (complaint : String)
  | malformedOutput (call : Call) (cause : Porcelain.ReadError)
  deriving DecidableEq, Repr

def Error.message : Error → String
  | notFound name detail => s!"not found: rev-parse '{name}': {detail}"
  | notTracked path revision => s!"{path.text} is not tracked at {revision.text}"
  | commandFailed call code complaint => s!"`{call.text}` failed (exit code Some({code})): {complaint}"
  | malformedOutput call cause => s!"malformed output from `{call.text}`: {cause.message}"

end KeepBlame.Git
