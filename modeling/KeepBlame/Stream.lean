import KeepBlame.Text.Utf8

/-! A byte stream with a position: the handle through which a file is edited in place. -/
namespace KeepBlame

structure Stream where
  bytes : Bytes
  position : Nat := 0
  deriving DecidableEq, Repr

namespace Stream

def size (s : Stream) : Nat := s.bytes.length

def seek (position : Nat) (s : Stream) : Stream := { s with position }

def seekEnd (s : Stream) : Stream := s.seek s.size

def readToEnd (s : Stream) : Bytes × Stream := (s.bytes.drop s.position, s.seek (max s.position s.size))

def write (data : Bytes) (s : Stream) : Stream :=
  let before := (s.bytes ++ List.replicate (s.position - s.size) 0).take s.position
  { bytes := before ++ data ++ s.bytes.drop (s.position + data.length)
    position := s.position + data.length }

def truncate (size : Nat) (s : Stream) : Stream := { s with bytes := s.bytes.take size }

end Stream
end KeepBlame
