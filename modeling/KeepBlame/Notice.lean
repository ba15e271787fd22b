import KeepBlame.Edit
import KeepBlame.Text.Search

/-! Copyright notices: a banner goes to the start of a file that does not begin with a notice. -/
namespace KeepBlame.Notice

def scanSize : Nat := 300

def marker : Bytes := Utf8.ofText "Copyright"

def isPresent (content : Bytes) : Bool := Text.occurs marker (content.take scanSize)

def inject (content banner : Bytes) (edits : List Edit) : List Edit :=
  if banner.isEmpty || isPresent content then edits
  else
    let before := edits.takeWhile (·.span.start != 0)
    match edits.drop before.length with
    | first :: after => before ++ { first with content := banner ++ first.content } :: after
    | [] => ⟨⟨0, 0⟩, banner⟩ :: edits

end KeepBlame.Notice
