/-!
Paths. A path keeps the text it was written with and is compared by its components: a doubled or trailing `/` and a
`.` after the first component mean nothing, `..` is a component like a name.
-/
namespace KeepBlame

inductive Component where
  | root
  | here
  | up
  | name (text : String)
  deriving DecidableEq, Repr

namespace Component

def rank : Component → Nat
  | root => 0
  | here => 1
  | up => 2
  | name _ => 3

def text : Component → String
  | root => "/"
  | here => "."
  | up => ".."
  | name s => s

instance : LT Component where
  lt a b := a.rank < b.rank ∨ (a.rank = b.rank ∧ a.text < b.text)

instance (a b : Component) : Decidable (a < b) :=
  inferInstanceAs (Decidable (a.rank < b.rank ∨ (a.rank = b.rank ∧ a.text < b.text)))

def ofPiece (piece : List Char) : Option Component :=
  if piece = [] ∨ piece = ['.'] then none
  else if piece = ['.', '.'] then some up
  else some (name (String.ofList piece))

end Component

structure Path where
  text : String
  deriving DecidableEq, Repr

namespace Path

def isAbsoluteText (cs : List Char) : Bool := cs.head? == some '/'

def isAbsolute (p : Path) : Bool := isAbsoluteText p.text.toList

def pieces (cs : List Char) : List (List Char) := cs.splitOn '/'

def componentsOf (cs : List Char) : List Component :=
  let named := (pieces cs).filterMap Component.ofPiece
  if isAbsoluteText cs then .root :: named
  else if (pieces cs).head? = some ['.'] then .here :: named
  else named

def components (p : Path) : List Component := componentsOf p.text.toList

def same (p q : Path) : Bool := p.components == q.components

def join (base : Path) (rest : String) : Path :=
  if isAbsoluteText rest.toList then ⟨rest⟩
  else if base.text.isEmpty || base.text.toList.getLast? == some '/' then ⟨base.text ++ rest⟩
  else ⟨base.text ++ "/" ++ rest⟩

def startsWith (p base : Path) : Bool := base.components.isPrefixOf p.components

def ofComponents : List Component → Path
  | .root :: rest => ⟨"/" ++ String.intercalate "/" (rest.map Component.text)⟩
  | cs => ⟨String.intercalate "/" (cs.map Component.text)⟩

def isFiller (piece : List Char) : Bool := (Component.ofPiece piece).isNone

def afterNames : Nat → List (List Char) → List (List Char)
  | 0, pieces => pieces
  | _ + 1, [] => []
  | n + 1, piece :: rest => if isFiller piece then afterNames (n + 1) rest else afterNames n rest

def trimFiller (pieces : List (List Char)) : List (List Char) :=
  ((pieces.dropWhile isFiller).reverse.dropWhile isFiller).reverse

def relativeTo? (p base : Path) : Option Path :=
  if base.components.isEmpty then some p
  else if p.startsWith base then
    let names := base.components.countP fun c => c != .root && c != .here
    some ⟨String.intercalate "/" ((trimFiller (afterNames names (pieces p.text.toList))).map String.ofList)⟩
  else none

def fileName? (p : Path) : Option String :=
  match p.components.getLast? with
  | some (.name s) => some s
  | _ => none

def parent? (p : Path) : Option Path :=
  match p.components.getLast? with
  | none => none
  | some .root => none
  | some _ => some (ofComponents p.components.dropLast)

def extension? (p : Path) : Option String :=
  match p.fileName? with
  | none => none
  | some name =>
    let cs := name.toList
    let tail := (cs.reverse.takeWhile (· != '.')).reverse
    if tail.length + 1 < cs.length then some (String.ofList tail) else none

end Path
end KeepBlame
