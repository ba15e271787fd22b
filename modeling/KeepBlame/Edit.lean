import KeepBlame.Ordered
import KeepBlame.Span
import KeepBlame.Text.Quoted
import KeepBlame.Text.Utf8

/-! An edit replaces a span of a file by new content. Trimming leaves only the bytes that differ. -/
namespace KeepBlame

structure Edit where
  span : Span
  content : Bytes
  deriving DecidableEq, Repr

namespace Edit

def ofNats (offset length : Nat) (content : Bytes) : Edit := ⟨⟨offset.toUInt64, length.toUInt64⟩, content⟩

def isNoop (e : Edit) : Bool := e.span.size == 0 && e.content.isEmpty

def sizeLimit : Nat := 0x7fffffffffffffff

def delta (e : Edit) : Int := (min e.content.length sizeLimit : Nat) - (min e.span.size sizeLimit : Nat)

def commonStart (a b : Bytes) : Nat := ((a.zip b).takeWhile fun (x, y) => x == y).length

/-- Drops what the content shares with the end of the replaced bytes, then what the remainder shares with their
start. An edit that reaches past `pristine` stays as it is. -/
def trim (pristine : Bytes) (e : Edit) : Edit :=
  if e.span.stop ≤ pristine.length then
    let replaced := (pristine.drop e.span.start).take (e.span.stop - e.span.start)
    let tail := commonStart replaced.reverse e.content.reverse
    let content := e.content.take (e.content.length - tail)
    let head := commonStart (replaced.take (replaced.length - tail)) content
    { span := ⟨e.span.offset + head.toUInt64, e.span.length - (tail + head).toUInt64⟩
      content := content.drop head }
  else e

def describe (e : Edit) : String :=
  let content := Text.quoted (Utf8.toText e.content)
  s!"Edit \x7b offset: {e.span.start}, length: {e.span.size}, content: {content} \x7d"

/-- All edits at once: `edits` stand in file order and each starts where the one before it ends, or later. `cursor`
counts the bytes of the file that are behind us. -/
def onePassFrom (cursor : Nat) (pristine : Bytes) : List Edit → Bytes
  | [] => pristine.drop cursor
  | e :: rest =>
    (pristine.drop cursor).take (e.span.start - cursor) ++ e.content ++ onePassFrom e.span.stop pristine rest

def onePass (pristine : Bytes) (edits : List Edit) : Bytes :=
  onePassFrom 0 pristine (Ordered.sortBy Edit.span (edits.filter (!·.isNoop)))

end Edit
end KeepBlame
