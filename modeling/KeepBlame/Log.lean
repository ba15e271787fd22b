import KeepBlame.Ordered
import KeepBlame.Text.Quoted

/-! Log records, written as a line of text or as an object with sorted fields. -/
namespace KeepBlame.Log

inductive Level where
  | warn
  | error
  deriving DecidableEq, Repr

def Level.text : Level → String
  | warn => "WARN"
  | error => "ERROR"

structure Field where
  name : String
  value : String
  quoted : Bool := false
  deriving DecidableEq, Repr

structure Record where
  level : Level
  message : String
  fields : List Field := []
  deriving DecidableEq, Repr

inductive Format where
  | compact
  | json
  deriving DecidableEq, Repr

def Format.ofSetting (value : Option String) : Format :=
  match value with
  | some v => if v.toList.map Char.toLower = "json".toList then json else compact
  | none => compact

def Field.text (f : Field) : String := s!"{f.name}={if f.quoted then Text.quoted f.value else f.value}"

def Record.line (r : Record) : String :=
  let level := String.ofList (List.replicate (5 - r.level.text.length) ' ') ++ r.level.text
  String.intercalate " " (level :: r.message :: r.fields.map Field.text)

def jsonChar (c : Char) : List Char :=
  match c with
  | '"' => ['\\', '"']
  | '\\' => ['\\', '\\']
  | '\n' => ['\\', 'n']
  | '\r' => ['\\', 'r']
  | '\t' => ['\\', 't']
  | c =>
    if c.toNat = 8 then ['\\', 'b']
    else if c.toNat = 12 then ['\\', 'f']
    else if c.toNat < 32 then
      ['\\', 'u', '0', '0', (c.toNat / 16).digitChar, (c.toNat % 16).digitChar]
    else [c]

def jsonText (s : String) : String := String.ofList ('"' :: s.toList.flatMap jsonChar ++ ['"'])

def Field.json (f : Field) : String := jsonText f.name ++ ":" ++ jsonText f.value

def Record.json (r : Record) : String :=
  let fields := Ordered.sortBy Field.name (⟨"message", r.message, false⟩ :: r.fields)
  "\x7b\"fields\":\x7b" ++ String.intercalate "," (fields.map Field.json) ++ "\x7d,\"level\":" ++
    jsonText r.level.text ++ "\x7d"

def Record.render (format : Format) (r : Record) : String :=
  match format with
  | .compact => r.line
  | .json => r.json

def shown (quiet : Bool) (records : List Record) : List Record :=
  records.filter fun r => r.level = .error || !quiet

end KeepBlame.Log
