import KeepBlame.Edit
import KeepBlame.Markup.Event

/-!
The document in which a formatter proposes edits: a `replacement` element for each, with the span in its attributes
and the new content as its text.
-/
namespace KeepBlame.Replacements

open Markup (Event Tag)

inductive ReadError where
  | badMarkup (cause : Markup.Mistake)
  | badAttribute (cause : Markup.AttributeError)
  | badValue (cause : Markup.ValueError)
  | badReference (cause : Markup.ReferenceError)
  | missing (key : String)
  | notANumber (key : String) (value : List Char)
  | overflow (offset length : Nat)
  | unbalanced
  | unterminated
  deriving DecidableEq, Repr

def ReadError.message : ReadError → String
  | badMarkup cause => cause.message
  | badAttribute cause => cause.message
  | badValue cause => cause.message
  | badReference cause => cause.message
  | missing key => s!"replacement without `{key}`"
  | notANumber key value =>
    s!"replacement `{key}` is not a number: {String.ofList (Text.quote value)}"
  | overflow offset length => s!"replacement range {offset}+{length} overflows"
  | unbalanced => "unbalanced </replacement>"
  | unterminated => "unterminated <replacement>"

def valueOf? (tag : Tag) (key : String) : Except ReadError (Option (List Char)) :=
  match tag.find? key.toList with
  | .error e => .error (.badAttribute e)
  | .ok none => .ok none
  | .ok (some a) =>
    match Markup.unescape a.value with
    | .ok value => .ok (some value)
    | .error e => .error (.badValue e)

def number (tag : Tag) (key : String) : Except ReadError Nat := do
  match ← valueOf? tag key with
  | none => .error (.missing key)
  | some value =>
    match Text.readNat? Text.wordLimit value with
    | some n => .ok n
    | none => .error (.notANumber key value)

def start (tag : Tag) : Except ReadError Edit := do
  let offset ← number tag "offset"
  let length ← number tag "length"
  if Text.wordLimit < offset + length then .error (.overflow offset length)
  else .ok (Edit.ofNats offset length [])

structure Progress where
  edits : List Edit := []
  current : Option Edit := none
  deriving DecidableEq, Repr

def Progress.extend (p : Progress) (cs : List Char) : Progress :=
  { p with current := p.current.map fun e => { e with content := e.content ++ Utf8.encode cs } }

def step (p : Progress) : Event → Except ReadError Progress
  | .opening tag =>
    if tag.name = "replacement".toList then do .ok { p with current := some (← start tag) }
    else if tag.name = "replacements".toList then do
      let _ ← valueOf? tag "incomplete_format"
      .ok p
    else .ok p
  | .empty tag =>
    if tag.name = "replacement".toList then do .ok { p with edits := p.edits ++ [← start tag] }
    else if tag.name = "replacements".toList then do
      let _ ← valueOf? tag "incomplete_format"
      .ok p
    else .ok p
  | .closing name =>
    if name = "replacement".toList then
      match p.current with
      | none => .error .unbalanced
      | some e => .ok ⟨p.edits ++ [e], none⟩
    else .ok p
  | .text cs => .ok (p.extend cs)
  | .reference name =>
    if p.current.isNone then .ok p
    else
      match Markup.resolve name with
      | .ok c => .ok (p.extend [c])
      | .error e => .error (.badReference e)

def read (document : List Char) : Except ReadError (List Edit) := do
  let (events, mistake) := Markup.events document
  let p ← events.foldlM step {}
  match mistake with
  | some e => .error (.badMarkup e)
  | none => if p.current.isSome then .error .unterminated else .ok p.edits

end KeepBlame.Replacements
