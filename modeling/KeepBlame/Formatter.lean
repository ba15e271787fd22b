import KeepBlame.OsError
import KeepBlame.Path
import KeepBlame.Replacements
import KeepBlame.Reply
import KeepBlame.Text.Lines

/-!
Formatters propose edits for a file. The formatter of a run is a program: it is asked for the replacements of one file
at a time and writes them as a document.
-/
namespace KeepBlame

inductive FormatterError where
  | spawn (program : String) (cause : OsError)
  | failed (program status complaint : String)
  | output (cause : Replacements.ReadError)
  deriving DecidableEq, Repr

def FormatterError.message : FormatterError → String
  | spawn program cause => s!"could not run `{program}`: {cause.message}"
  | failed program status complaint => s!"`{program}` exited with {status}: {complaint}"
  | output cause => s!"unreadable formatter output: {cause.message}"

structure Formatter where
  replacements : Path → Except FormatterError (List Edit)

structure Toolbox where
  names : List String
  version : Reply
  reply : Path → Reply

structure FormatCommand where
  program : String
  style : String
  deriving DecidableEq, Repr

namespace FormatCommand

def versionArguments : List String := ["--version"]

def fileArguments (c : FormatCommand) (p : Path) : List String :=
  ["--output-replacements-xml", s!"--style={c.style}", p.text]

def output (c : FormatCommand) (tools : Toolbox) (reply : Reply) : Except FormatterError (List Char) :=
  if !tools.names.contains c.program then .error (.spawn c.program .notFound)
  else if reply.succeeded then .ok reply.text
  else .error (.failed c.program s!"exit status: {reply.code}" reply.complaint)

def version (c : FormatCommand) (tools : Toolbox) : Except FormatterError String :=
  match c.output tools tools.version with
  | .ok text => .ok (String.ofList (Text.trim ((Text.lines text).headD [])))
  | .error e => .error e

def replacements (c : FormatCommand) (tools : Toolbox) (p : Path) : Except FormatterError (List Edit) :=
  match c.output tools (tools.reply p) with
  | .error e => .error e
  | .ok text =>
    match Replacements.read text with
    | .ok edits => .ok edits
    | .error e => .error (.output e)

def formatter (c : FormatCommand) (tools : Toolbox) : Formatter := ⟨c.replacements tools⟩

end FormatCommand
end KeepBlame
