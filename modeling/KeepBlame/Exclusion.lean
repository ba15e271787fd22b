import KeepBlame.Glob
import KeepBlame.Path

/-!
What a search for files leaves out: a path with all that is below it, or whatever a pattern matches. A relative
exclusion counts from a base directory.
-/
namespace KeepBlame

inductive Exclusion where
  | path (p : Path)
  | glob (g : Glob)
  deriving DecidableEq, Repr

namespace Exclusion

def isPattern (raw : String) : Bool := raw.toList.any fun c => c == '*' || c == '?' || c == '['

def below (base : Path) (raw : String) : String :=
  String.ofList (Glob.escape base.text.toList ++ '/' :: raw.toList)

def parse (raw : String) (base : Path) : Except Glob.PatternError Exclusion :=
  if isPattern raw then
    match Glob.parse (if (Path.mk raw).isAbsolute then raw else below base raw) with
    | .ok g => .ok (.glob g)
    | .error e => .error e
  else .ok (.path (base.join raw))

def covers (e : Exclusion) (p : Path) : Bool :=
  match e with
  | path base => p.startsWith base
  | glob g => g.matchText p.text

end Exclusion
end KeepBlame
