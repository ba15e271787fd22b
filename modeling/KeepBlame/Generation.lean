import KeepBlame.Blame.Snapshot
import KeepBlame.EditSet
import KeepBlame.Formatter
import KeepBlame.Log
import KeepBlame.Notice

/-!
The edits of each file. A file is read, formatted and blamed on its own, and nothing is written; one that cannot be
handled is skipped with a reason. Either all edits of a file are attributed or none.
-/
namespace KeepBlame

inductive SkipReason where
  | tooLarge (size limit : Nat)
  | empty
  | accessDenied
  | formatter (cause : FormatterError)
  | unusable (cause : EditError)
  | io (cause : OsError)
  deriving DecidableEq, Repr

namespace SkipReason

def kilobytes (n : Nat) : Nat := n / 1024

def message : SkipReason → String
  | tooLarge size limit => s!"file is {kilobytes size} KB, over the {kilobytes limit} KB limit"
  | empty => "file is empty"
  | accessDenied => "permission denied"
  | formatter cause => s!"formatter failed: {cause.message}"
  | unusable cause => s!"formatter proposed unusable edits: {cause.message}"
  | io cause => s!"I/O error: {cause.message}"

def ofOsError (e : OsError) : SkipReason := if e.isRefusal then accessDenied else io e

end SkipReason

inductive FileAttribution where
  | attributed (edits : List (Span × Attribution))
  | unattributed (reason : BlameError)
  deriving DecidableEq, Repr

structure Generated where
  set : EditSet
  attribution : FileAttribution
  deriving DecidableEq, Repr

inductive FileOutcome where
  | skipped (reason : SkipReason)
  | clean
  | formatted (generated : Generated)
  | panicked (panic : Panic)
  deriving DecidableEq, Repr

structure FileReport where
  path : Path
  outcome : FileOutcome
  formatterAsked : Bool := true
  blame : Option Git.Call := none
  warnings : List Log.Record := []
  deriving DecidableEq, Repr

def FileReport.panic? (report : FileReport) : Option Panic :=
  match report.outcome with
  | .panicked panic => some panic
  | _ => none

structure GenerateOptions where
  maxBytes : UInt64
  copyright : Option Bytes := none
  deriving DecidableEq, Repr

structure Generator where
  disk : Disk
  repository : Option Git.Repository
  baseline : Option CommitId
  formatter : Formatter
  options : GenerateOptions

namespace Generator

def emptySize : Nat := 1

def load (g : Generator) (p : Path) : Except SkipReason Bytes :=
  match g.disk.size p with
  | .error e => .error (.ofOsError e)
  | .ok size =>
    if size > g.options.maxBytes.toNat then .error (.tooLarge size g.options.maxBytes.toNat)
    else if size ≤ emptySize then .error .empty
    else
      match g.disk.read p with
      | .error e => .error (.ofOsError e)
      | .ok bytes => .ok bytes

def trimAll (pristine : Bytes) (proposed : List Edit) : List Edit :=
  (proposed.map (Edit.trim pristine)).filter (!·.isNoop)

def withBanner (g : Generator) (pristine : Bytes) (edits : List Edit) : List Edit :=
  match g.options.copyright with
  | some banner => Notice.inject pristine banner edits
  | none => edits

def propose (g : Generator) (p : Path) (pristine : Bytes) : Except SkipReason (List Edit) :=
  match g.formatter.replacements p with
  | .error e => .error (.formatter e)
  | .ok proposed =>
    let edits := trimAll pristine proposed
    match edits.find? (·.span.stop > pristine.length) with
    | some e => .error (.unusable (.outOfBounds e.span pristine.length))
    | none => .ok (g.withBanner pristine edits)

def blame (g : Generator) (p : Path) : Snapshot :=
  match g.repository, g.baseline with
  | some r, some c => Snapshot.take r g.disk c p
  | _, _ => .unavailable .noBaseline

def blameCall? (g : Generator) (p : Path) : Option Git.Call :=
  match g.repository, g.baseline with
  | some r, some c => Snapshot.call? r g.disk c p
  | _, _ => none

def ambiguityWarning (p : Path) (r : Resolution) : Log.Record where
  level := .warn
  message := "edit spans lines of several authors, attributing to the last one"
  fields := [
    { name := "path", value := p.text },
    { name := "lines", value := s!"{r.firstLine}-{r.lastLine}" },
    { name := "authors", value := String.intercalate ", " (r.contenders.map Author.ident) },
    { name := "chosen", value := r.attribution.author.ident }]

def resolveAll (map : LineMap) (pristine : Bytes) (set : EditSet) : Option (List (Span × Resolution)) :=
  set.pending.mapM fun pending => do return (pending.id, ← map.attribute? pristine pending.edit.span)

def skip (p : Path) (reason : SkipReason) (formatterAsked : Bool) : FileReport where
  path := p
  outcome := .skipped reason
  formatterAsked := formatterAsked
  warnings := [⟨.warn, "skipping file", [⟨"path", p.text, false⟩, ⟨"reason", reason.message, false⟩]⟩]

def attributed (g : Generator) (p : Path) (pristine : Bytes) (set : EditSet) : FileReport :=
  let blame := g.blameCall? p
  match g.blame p with
  | .panicked panic => { path := p, outcome := .panicked panic, blame }
  | .unavailable reason => { path := p, outcome := .formatted ⟨set, .unattributed reason⟩, blame }
  | .lines map =>
    match resolveAll map pristine set with
    | none => { path := p, outcome := .formatted ⟨set, .unattributed .noHistory⟩, blame }
    | some resolved =>
      { path := p
        outcome := .formatted ⟨set, .attributed (resolved.map fun (id, r) => (id, r.attribution))⟩
        blame
        warnings := (resolved.filter (!·.2.contenders.isEmpty)).map fun (_, r) => ambiguityWarning p r }

def file (g : Generator) (p : Path) : FileReport :=
  match g.load p with
  | .error reason => skip p reason false
  | .ok pristine =>
    match g.propose p pristine with
    | .error reason => skip p reason true
    | .ok edits =>
      if edits.isEmpty then { path := p, outcome := .clean }
      else
        match EditSet.ofEdits edits with
        | .error e => skip p (.unusable e) true
        | .ok set => g.attributed p pristine set

end Generator
end KeepBlame
