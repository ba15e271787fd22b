import KeepBlame.Text.Blank
import KeepBlame.Text.Quoted

/-! Authors, written as a name and an email in angle brackets. -/
namespace KeepBlame

structure Author where
  name : String
  email : String
  deriving DecidableEq, Repr

namespace Author

instance : LT Author where
  lt a b := a.name < b.name ∨ (a.name = b.name ∧ a.email < b.email)

instance (a b : Author) : Decidable (a < b) :=
  inferInstanceAs (Decidable (a.name < b.name ∨ (a.name = b.name ∧ a.email < b.email)))

def ident (a : Author) : String := s!"{a.name} <{a.email}>"

inductive ParseError where
  | noEmail
  | unclosedEmail
  | emptyName
  | bracketInEmail
  deriving DecidableEq, Repr

def ParseError.reason : ParseError → String
  | noEmail => "expected `Name <email>`"
  | unclosedEmail => "email must be closed with `>`"
  | emptyName => "name must not be empty"
  | bracketInEmail => "email must not contain angle brackets"

def ParseError.message (value : String) (e : ParseError) : String :=
  s!"invalid author {Text.quoted value}: {e.reason}"

def parse (s : String) : Except ParseError Author :=
  let cs := Text.trim s.toList
  let name := cs.takeWhile (· != '<')
  if name.length = cs.length then .error .noEmail
  else if cs.getLast? ≠ some '>' then .error .unclosedEmail
  else if (Text.trim name).isEmpty then .error .emptyName
  else
    let email := Text.trim (cs.dropLast.drop (name.length + 1))
    if email.any fun c => c == '<' || c == '>' then .error .bracketInEmail
    else .ok ⟨String.ofList (Text.trim name), String.ofList email⟩

end Author
end KeepBlame
