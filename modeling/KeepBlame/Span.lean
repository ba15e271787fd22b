/-!
Byte ranges with 64-bit offset and length. A range that runs past the largest position ends at it.
-/
namespace KeepBlame

structure Span where
  offset : UInt64
  length : UInt64
  deriving DecidableEq, Repr

namespace Span

def limit : Nat := 0xffffffffffffffff

def start (s : Span) : Nat := s.offset.toNat

def size (s : Span) : Nat := s.length.toNat

def stop (s : Span) : Nat := min (s.start + s.size) limit

instance : LT Span where
  lt a b := a.offset < b.offset ∨ (a.offset = b.offset ∧ a.length < b.length)

instance (a b : Span) : Decidable (a < b) :=
  inferInstanceAs (Decidable (a.offset < b.offset ∨ (a.offset = b.offset ∧ a.length < b.length)))

def text (s : Span) : String := s!"{s.start}+{s.size}"

def shift? (delta : Int) (s : Span) : Option Span :=
  let moved := s.start + delta
  if 0 ≤ moved ∧ moved ≤ limit then some { s with offset := moved.toNat.toUInt64 } else none

end Span
end KeepBlame
