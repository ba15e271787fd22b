import KeepBlame.Text.Blank
import KeepBlame.Text.Utf8

/-! What a program that was run leaves behind: its output, its complaints and its exit status. -/
namespace KeepBlame

structure Reply where
  out : Bytes := []
  err : Bytes := []
  code : Nat := 0
  deriving DecidableEq, Repr

namespace Reply

def succeeded (r : Reply) : Bool := r.code == 0

def text (r : Reply) : List Char := Utf8.decodeLossy r.out

def complaint (r : Reply) : String := String.ofList (Text.trim (Utf8.decodeLossy r.err))

end Reply
end KeepBlame
