import KeepBlame.Git.Repository
import KeepBlame.Outcome

/-! Who wrote the lines of a file of a work tree, as of a revision. -/
namespace KeepBlame

inductive BlameError where
  | noBaseline
  | noHistory
  | outsideRepository
  | git (cause : Git.Error)
  deriving DecidableEq, Repr

def BlameError.message : BlameError → String
  | noBaseline => "no baseline revision"
  | noHistory => "file has no recorded history"
  | outsideRepository => "file is outside the repository"
  | git cause => cause.message

namespace Git.Repository

def pathInTree? (r : Repository) (d : Disk) (p : Path) : Option Path :=
  match p.relativeTo? r.workTree with
  | some inTree => some inTree
  | none =>
    match d.canonical p with
    | .ok p => p.relativeTo? r.workTree
    | .error _ => none

end Git.Repository

inductive Snapshot where
  | lines (map : LineMap)
  | unavailable (reason : BlameError)
  | panicked (panic : Panic)
  deriving DecidableEq, Repr

namespace Snapshot

def ofHunks (hunks : List Hunk) : Snapshot :=
  match LineMap.ofHunks? hunks with
  | none => panicked .hunksOutOfOrder
  | some map => if map.size = 0 then unavailable .noHistory else lines map

def take (r : Git.Repository) (d : Disk) (revision : CommitId) (p : Path) : Snapshot :=
  match r.pathInTree? d p with
  | none => unavailable .outsideRepository
  | some inTree =>
    match r.blame revision inTree with
    | .ok hunks => ofHunks hunks
    | .error e => unavailable (.git e)

def call? (r : Git.Repository) (d : Disk) (revision : CommitId) (p : Path) : Option Git.Call :=
  (r.pathInTree? d p).map (Git.Call.blame revision)

end Snapshot
end KeepBlame
