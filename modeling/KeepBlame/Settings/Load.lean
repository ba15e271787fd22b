import KeepBlame.Disk.Basic
import KeepBlame.Settings

/-! Settings from a file. Where there is no file, the defaults hold. -/
namespace KeepBlame

inductive LoadCause where
  | unreadable (error : OsError)
  | notText
  | fault (f : SettingsFault)
  deriving DecidableEq, Repr

def LoadCause.message : LoadCause → String
  | unreadable error => s!"could not read file: {error.message}"
  | notText => "could not read file: stream did not contain valid UTF-8"
  | fault f => f.message

structure LoadError where
  path : Path
  cause : LoadCause
  deriving DecidableEq, Repr

def LoadError.message (e : LoadError) : String := s!"{e.path.text}: {e.cause.message}"

def Settings.load (d : Disk) (path shown : Path) : Except LoadError Settings :=
  match d.read path with
  | .error e => if e = .notFound then .ok {} else .error ⟨shown, .unreadable e⟩
  | .ok bytes =>
    match Utf8.toText? bytes with
    | none => .error ⟨shown, .notText⟩
    | some text =>
      match Settings.parse text with
      | .ok s => .ok s
      | .error f => .error ⟨shown, .fault f⟩

end KeepBlame
