import KeepBlame.OsError
import KeepBlame.Path
import KeepBlame.Text.Utf8

/-!
A disk: files, directories and symbolic links by the names that lead to them from the root. Paths are followed as
they are written, so that `..` after a link leaves the directory that the link leads to.
-/
namespace KeepBlame

inductive Node where
  | file (bytes : Bytes)
  | directory
  | link (target : String)
  deriving DecidableEq, Repr

abbrev Place := List String

-- Each place occurs once; the root stands for itself. A file of `refusals` can be read, and a writer gets this error.
structure Disk where
  nodes : List (Place × Node) := []
  refusals : List (Place × OsError) := []
  deriving DecidableEq, Repr

namespace Disk

def node? (d : Disk) (place : Place) : Option Node :=
  if place.isEmpty then some .directory else d.nodes.lookup place

def put (d : Disk) (place : Place) (node : Node) : Disk :=
  if (d.nodes.lookup place).isSome then
    { d with nodes := d.nodes.map fun entry => if entry.1 == place then (place, node) else entry }
  else { d with nodes := d.nodes ++ [(place, node)] }

def makeParents (d : Disk) (place : Place) : Disk :=
  (List.range place.length).foldl (fun d n =>
    if (d.node? (place.take n)).isSome then d else d.put (place.take n) .directory) d

def add (d : Disk) (place : Place) (node : Node) : Disk := (d.makeParents place).put place node

def linkLimit : Nat := 40

/-- Goes on from the directory `here`. A link at the very end is followed only where `followLast` says so; `again` goes
on behind a link, if one more may be followed. -/
def followWith (d : Disk) (followLast : Bool) (again : Option (Place → List (List Char) → Except OsError Place))
    (here : Place) : List (List Char) → Except OsError Place
  | [] => .ok here
  | piece :: rest =>
    match Component.ofPiece piece with
    | none => d.followWith followLast again here rest
    | some (.name name) =>
      match d.node? (here ++ [name]) with
      | none => .error .notFound
      | some .directory => d.followWith followLast again (here ++ [name]) rest
      | some (.file _) => if rest.isEmpty then .ok (here ++ [name]) else .error .notDirectory
      | some (.link target) =>
        if rest.isEmpty && !followLast then .ok (here ++ [name])
        else if target.isEmpty then .error .notFound
        else
          match again with
          | none => .error .tooManyLinks
          | some again =>
            again (if (Path.mk target).isAbsolute then [] else here) (Path.pieces target.toList ++ rest)
    | some _ => d.followWith followLast again here.dropLast rest

def follow (d : Disk) (followLast : Bool) : Nat → Place → List (List Char) → Except OsError Place
  | 0 => d.followWith followLast none
  | links + 1 => d.followWith followLast (some (d.follow followLast links))

def locate (d : Disk) (p : Path) (followLast : Bool) : Except OsError Place :=
  if p.text.isEmpty then .error .notFound else d.follow followLast linkLimit [] (Path.pieces p.text.toList)

def nodeAt (d : Disk) (place : Place) : Except OsError Node :=
  match d.node? place with
  | some node => .ok node
  | none => .error .notFound

def stat (d : Disk) (p : Path) : Except OsError Node := do d.nodeAt (← d.locate p true)

def isFile (d : Disk) (p : Path) : Bool :=
  match d.stat p with
  | .ok (.file _) => true
  | _ => false

def isDirectory (d : Disk) (p : Path) : Bool :=
  match d.stat p with
  | .ok .directory => true
  | _ => false

def pathOf (place : Place) : Path := ⟨"/" ++ String.intercalate "/" place⟩

def canonical (d : Disk) (p : Path) : Except OsError Path := do return pathOf (← d.locate p true)

def directorySize : Nat := 4096

def size (d : Disk) (p : Path) : Except OsError Nat := do
  match ← d.stat p with
  | .file bytes => .ok bytes.length
  | _ => .ok directorySize

def fileAt (d : Disk) (p : Path) : Except OsError (Place × Bytes) := do
  let place ← d.locate p true
  match ← d.nodeAt place with
  | .file bytes => .ok (place, bytes)
  | _ => .error .isDirectory

def read (d : Disk) (p : Path) : Except OsError Bytes := do return (← d.fileAt p).2

-- For reading and writing.
def openFile (d : Disk) (p : Path) : Except OsError (Place × Bytes) := do
  let (place, bytes) ← d.fileAt p
  match d.refusals.lookup place with
  | some e => .error e
  | none => .ok (place, bytes)

def write (d : Disk) (place : Place) (bytes : Bytes) : Disk := d.put place (.file bytes)

end Disk
end KeepBlame
