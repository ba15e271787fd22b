import KeepBlame.Author
import KeepBlame.Text.Numeral

/-!
The flags of the command line. A flag is a switch or takes a value; `--flag value`, `--flag=value` and `-fvalue` mean
the same, and switches of one letter can share a dash. Each flag is given once, but for exclusions.
-/
namespace KeepBlame.CommandLine

structure Flags where
  repo : Option String := none
  path : Option String := none
  exclude : List String := []
  jobs : Option Nat := none
  limit : Option Nat := none
  dryRun : Bool := false
  noCommit : Bool := false
  author : Option Author := none
  copyright : Option String := none
  copyrightFile : Option String := none
  style : Option String := none
  config : Option String := none
  quiet : Bool := false
  deriving DecidableEq, Repr

inductive UsageError where
  | unknownFlag (text : String)
  | unexpectedArgument (text : String)
  | missingValue (flag : String)
  | unexpectedValue (flag : String)
  | badValue (flag value : String)
  | repeatedFlag (flag : String)
  | conflictingFlags (first second : String)
  deriving DecidableEq, Repr

def UsageError.message : UsageError → String
  | unknownFlag text => s!"unknown flag '{text}'"
  | unexpectedArgument text => s!"unexpected argument '{text}'"
  | missingValue flag => s!"'--{flag}' needs a value"
  | unexpectedValue flag => s!"'--{flag}' takes no value"
  | badValue flag value => s!"bad value '{value}' for '--{flag}'"
  | repeatedFlag flag => s!"'--{flag}' was given twice"
  | conflictingFlags first second => s!"'--{first}' cannot be used with '--{second}'"

inductive Request where
  | run (flags : Flags)
  | version
  deriving DecidableEq, Repr

inductive Kind where
  | switch
  | value
  deriving DecidableEq, Repr

structure FlagName where
  long : String
  short : Option Char
  kind : Kind
  deriving DecidableEq, Repr

def excludeName : String := "exclude"

def versionName : String := "version"

def flagNames : List FlagName := [
  ⟨"repo", none, .value⟩, ⟨"path", none, .value⟩, ⟨excludeName, none, .value⟩, ⟨"jobs", some 'j', .value⟩,
  ⟨"limit", none, .value⟩, ⟨"dry-run", none, .switch⟩, ⟨"no-commit", some 'n', .switch⟩, ⟨"author", none, .value⟩,
  ⟨"copyright", none, .value⟩, ⟨"copyright-file", none, .value⟩, ⟨"style", none, .value⟩, ⟨"config", none, .value⟩,
  ⟨"quiet", some 'q', .switch⟩, ⟨versionName, some 'V', .switch⟩]

structure Use where
  flag : String
  value : String := ""
  deriving DecidableEq, Repr

abbrev Uses := List Use × Option UsageError

def looksLikeFlag (arg : String) : Bool :=
  match arg.toList with
  | '-' :: _ :: _ => true
  | _ => false

structure Taken where
  uses : List Use := []
  open? : Option String := none
  mistake : Option UsageError := none
  deriving DecidableEq, Repr

def takeLong (cs : List Char) : Taken :=
  let name := String.ofList (cs.takeWhile (· != '='))
  let attached := cs.dropWhile (· != '=')
  match flagNames.find? (·.long == name) with
  | none => { mistake := some (.unknownFlag name) }
  | some flag =>
    match flag.kind, attached with
    | .switch, [] => { uses := [⟨name, ""⟩] }
    | .switch, _ => { mistake := some (.unexpectedValue name) }
    | .value, [] => { open? := some name }
    | .value, _ :: value => { uses := [⟨name, String.ofList value⟩] }

def takeShort : List Char → Taken
  | [] => {}
  | c :: rest =>
    match flagNames.find? (·.short == some c) with
    | none => { mistake := some (.unknownFlag (String.ofList [c])) }
    | some flag =>
      match flag.kind with
      | .switch =>
        let later := takeShort rest
        { later with uses := ⟨flag.long, ""⟩ :: later.uses }
      | .value =>
        match rest with
        | [] => { open? := some flag.long }
        | '=' :: value => { uses := [⟨flag.long, String.ofList value⟩] }
        | value => { uses := [⟨flag.long, String.ofList value⟩] }

def take (arg : String) : Taken :=
  match arg.toList with
  | '-' :: '-' :: cs => takeLong cs
  | '-' :: c :: cs => takeShort (c :: cs)
  | _ => { mistake := some (.unexpectedArgument arg) }

def endOfFlags : List String → Uses
  | [] => ([], none)
  | arg :: _ => ([], some (.unexpectedArgument arg))

def uses : List String → Uses
  | [] => ([], none)
  | arg :: rest =>
    if arg = "--" then endOfFlags rest
    else
      let taken := take arg
      match taken.mistake, taken.open? with
      | some mistake, _ => (taken.uses, some mistake)
      | none, none =>
        let later := uses rest
        (taken.uses ++ later.1, later.2)
      | none, some flag =>
        match rest with
        | [] => (taken.uses, some (.missingValue flag))
        | value :: rest =>
          if looksLikeFlag value then (taken.uses, some (.missingValue flag))
          else
            let later := uses rest
            (taken.uses ++ ⟨flag, value⟩ :: later.1, later.2)

def numberValue (u : Use) : Except UsageError Nat :=
  match Text.readNat? Text.wordLimit u.value.toList with
  | some n => .ok n
  | none => .error (.badValue u.flag u.value)

def pathValue (u : Use) : Except UsageError String :=
  if u.value.isEmpty then .error (.badValue u.flag u.value) else .ok u.value

def authorValue (u : Use) : Except UsageError Author :=
  match Author.parse u.value with
  | .ok a => .ok a
  | .error _ => .error (.badValue u.flag u.value)

def Flags.set (f : Flags) (u : Use) : Except UsageError Flags := do
  match u.flag with
  | "repo" => return { f with repo := some (← pathValue u) }
  | "path" => return { f with path := some (← pathValue u) }
  | "exclude" => return { f with exclude := f.exclude ++ [u.value] }
  | "jobs" => return { f with jobs := some (← numberValue u) }
  | "limit" => return { f with limit := some (← numberValue u) }
  | "dry-run" => return { f with dryRun := true }
  | "no-commit" => return { f with noCommit := true }
  | "author" => return { f with author := some (← authorValue u) }
  | "copyright" => return { f with copyright := some u.value }
  | "copyright-file" => return { f with copyrightFile := some (← pathValue u) }
  | "style" => return { f with style := some u.value }
  | "config" => return { f with config := some (← pathValue u) }
  | "quiet" => return { f with quiet := true }
  | other => .error (.unknownFlag other)

def checkConflict (f : Flags) : Except UsageError Request :=
  if f.copyright.isSome && f.copyrightFile.isSome then .error (.conflictingFlags "copyright" "copyright-file")
  else .ok (.run f)

def followUses (seen : List String) (f : Flags) (mistake : Option UsageError) : List Use → Except UsageError Request
  | [] =>
    match mistake with
    | some e => .error e
    | none => checkConflict f
  | u :: rest =>
    if u.flag = versionName then .ok .version
    else if u.flag ≠ excludeName && seen.contains u.flag then .error (.repeatedFlag u.flag)
    else
      match f.set u with
      | .error e => .error e
      | .ok f => followUses (u.flag :: seen) f mistake rest

def parse (args : List String) : Except UsageError Request :=
  followUses [] {} (uses args).2 (uses args).1

end KeepBlame.CommandLine
