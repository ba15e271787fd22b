import KeepBlame.Author
import KeepBlame.Path
import KeepBlame.Toml.Document

/-!
Settings of a run: how files are formatted and how the result is committed. They are read from a TOML document with a
table for each of the two; a key that is left out has its default, and a key that is not known is refused.
-/
namespace KeepBlame

structure FormatSettings where
  command : String := "clang-format"
  style : String := "file"
  extensions : List String := ["c", "cc", "cpp", "cxx", "h", "hh", "hpp"]
  maxFileKb : Nat := 256
  copyright : Option String := none
  deriving DecidableEq, Repr

structure CommitSettings where
  message : String := "blamefmt: reformat and keep blame info"
  unattributedMessage : String := "blamefmt: format uncommitted code"
  fallbackAuthor : Option Author := none
  deriving DecidableEq, Repr

structure Settings where
  format : FormatSettings := {}
  commit : CommitSettings := {}
  deriving DecidableEq, Repr

inductive SettingsError where
  | notToml
  | unknownField (name : String) (known : List String)
  | invalidType (found wanted : String)
  | negative (n : Int)
  | badAuthor (value : String) (cause : Author.ParseError)
  deriving DecidableEq, Repr

def SettingsError.choice : List String → String
  | [] => "there are no fields"
  | [a] => s!"expected `{a}`"
  | [a, b] => s!"expected `{a}` or `{b}`"
  | names => "expected one of " ++ String.intercalate ", " (names.map fun n => s!"`{n}`")

def SettingsError.message : SettingsError → String
  | notToml => "syntax error"
  | unknownField name known => s!"unknown field `{name}`, {choice known}"
  | invalidType found wanted => s!"invalid type: {found}, expected {wanted}"
  | negative n => s!"invalid value: integer `{n}`, expected u64"
  | badAuthor value cause => cause.message value

structure SettingsFault where
  line : Nat
  error : SettingsError
  deriving DecidableEq, Repr

def SettingsFault.message (f : SettingsFault) : String := s!"line {f.line}: {f.error.message}"

namespace Settings

def fileName : String := ".blamefmt.toml"

def wants (s : Settings) (p : Path) : Bool :=
  match p.extension? with
  | some e => s.format.extensions.contains e
  | none => false

open Toml (Located Value Entries)

abbrev Decode (α : Type) := Except SettingsFault α

def found : Value → String
  | .text s => s!"string {Text.quoted s}"
  | .integer n => s!"integer `{n}`"
  | .float x => s!"floating point `{x.text}`"
  | .boolean b => if b then "boolean `true`" else "boolean `false`"
  | .moment => "map"
  | .array _ => "sequence"
  | .table .. => "map"
  | .tables _ => "sequence"

def refuse {α : Type} (v : Located Value) (wanted : String) : Decode α :=
  .error ⟨v.line, .invalidType (found v.value) wanted⟩

def text (v : Located Value) : Decode String :=
  match v.value with
  | .text s => .ok s
  | _ => refuse v "a string"

def texts (v : Located Value) : Decode (List String) :=
  match v.value with
  | .array items => items.mapM text
  | .tables items => items.mapM fun t => text ⟨t.line, .table .headed t.value⟩
  | _ => refuse v "a sequence"

def count (v : Located Value) : Decode Nat :=
  match v.value with
  | .integer n => if n < 0 then .error ⟨v.line, .negative n⟩ else .ok n.toNat
  | _ => refuse v "u64"

def author (v : Located Value) : Decode Author := do
  let s ← text v
  match Author.parse s with
  | .ok a => .ok a
  | .error e => .error ⟨v.line, .badAuthor s e⟩

abbrev Fields (α : Type) := List (String × (α → Located Value → Decode α))

def formatFields : Fields FormatSettings := [
  ("command", fun s v => do .ok { s with command := ← text v }),
  ("style", fun s v => do .ok { s with style := ← text v }),
  ("extensions", fun s v => do .ok { s with extensions := ← texts v }),
  ("max_file_kb", fun s v => do .ok { s with maxFileKb := ← count v }),
  ("copyright", fun s v => do .ok { s with copyright := some (← text v) })]

def commitFields : Fields CommitSettings := [
  ("message", fun s v => do .ok { s with message := ← text v }),
  ("unattributed_message", fun s v => do .ok { s with unattributedMessage := ← text v }),
  ("fallback_author", fun s v => do .ok { s with fallbackAuthor := some (← author v) })]

def byName {α : Type} (fields : Fields α) (start : α) (entries : Entries) : Decode α :=
  entries.foldlM (fun s (key, v) =>
    match fields.lookup key.name with
    | some field => field s v
    | none => .error ⟨key.line, .unknownField key.name (fields.map Prod.fst)⟩) start

def byPosition {α : Type} (fields : Fields α) (start : α) (items : List (Located Value)) : Decode α :=
  (fields.zip items).foldlM (fun s (field, v) => field.2 s v) start

def momentField : String := "$__toml_private_datetime"

def readSection {α : Type} (title : String) (fields : Fields α) (start : α) (v : Located Value) : Decode α :=
  match v.value with
  | .table _ entries => byName fields start entries
  | .array items => byPosition fields start items
  | .tables items => byPosition fields start (items.map fun t => ⟨t.line, .table .headed t.value⟩)
  | .moment => .error ⟨v.line, .unknownField momentField (fields.map Prod.fst)⟩
  | _ => refuse v title

def rootFields : Fields Settings := [
  ("format", fun s v => do .ok { s with format := ← readSection "struct FormatConfig" formatFields {} v }),
  ("commit", fun s v => do .ok { s with commit := ← readSection "struct CommitConfig" commitFields {} v })]

def parse (document : String) : Decode Settings :=
  match Toml.read document.toList with
  | .error line => .error ⟨line, .notToml⟩
  | .ok entries => byName rootFields {} entries

end Settings
end KeepBlame
