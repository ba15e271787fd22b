import KeepBlame.Author
import KeepBlame.CommitId
import KeepBlame.Edit

/-!
Who wrote each line of a file. Hunks name the commit and author of consecutive lines; a line map holds one entry per
line; an edit belongs to the entry that appears last, for the first time, among the lines it touches.
-/
namespace KeepBlame

structure Attribution where
  commit : CommitId
  author : Author
  deriving DecidableEq, Repr

structure Hunk where
  attribution : Attribution
  startLine : Nat
  lineCount : Nat
  deriving DecidableEq, Repr

structure LineMap where
  lines : List Attribution
  deriving DecidableEq, Repr

structure Resolution where
  attribution : Attribution
  firstLine : Nat
  lastLine : Nat
  contenders : List Author
  deriving DecidableEq, Repr

namespace Hunk

def contiguousFrom (next : Nat) : List Hunk → Bool
  | [] => true
  | h :: rest => h.startLine == next && contiguousFrom (next + h.lineCount) rest

end Hunk

namespace LineMap

def ofHunks? (hunks : List Hunk) : Option LineMap :=
  if Hunk.contiguousFrom 1 hunks then
    some ⟨hunks.flatMap fun h => List.replicate h.lineCount h.attribution⟩
  else none

def size (map : LineMap) : Nat := map.lines.length

/-- Lines are counted from 1. Lines that the map does not know count as its first. -/
def line? (map : LineMap) (n : Nat) : Option Attribution := map.lines[n - 1]? <|> map.lines.head?

def lineOf (content : Bytes) (offset : Nat) : Nat := (content.take offset).count 10 + 1

def firstLine (content : Bytes) (span : Span) : Nat := lineOf content span.start

def lastLine (content : Bytes) (span : Span) : Nat :=
  lineOf content (min (span.start + (span.size - 1)) Span.limit)

def attribute? (map : LineMap) (content : Bytes) (span : Span) : Option Resolution :=
  let first := firstLine content span
  let last := lastLine content span
  match (List.range' first (last + 1 - first)).mapM map.line? with
  | none => none
  | some entries =>
    let authors := (entries.map Attribution.author).eraseDups
    entries.eraseDups.getLast?.map fun attribution =>
      ⟨attribution, first, last, if authors.length < 2 then [] else authors⟩

end LineMap
end KeepBlame
