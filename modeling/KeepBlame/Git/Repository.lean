import KeepBlame.Disk.Basic
import KeepBlame.Git.Call
import KeepBlame.Git.Config
import KeepBlame.Reply
import KeepBlame.Text.Search

/-!
A repository with a work tree, as git lets it be seen. Git answers each call by a script; the repository keeps the
commit its branch is at and a journal of the calls that can change it, each with the disk as it was at that moment.
-/
namespace KeepBlame.Git

structure CommitReply where
  reply : Reply := {}
  head : Option CommitId := none
  deriving DecidableEq, Repr

-- Blame is answered by path, the other calls one after the other; when their answers are used up, git has nothing to
-- complain about and something is staged. What it says of a name that leads to no commit is always the same.
structure Script where
  blame : List (String × Reply) := []
  add : List Reply := []
  diff : List Reply := []
  commit : List CommitReply := []
  unresolved : String := ""
  deriving DecidableEq, Repr

structure Asked where
  call : Call
  disk : Disk
  deriving DecidableEq, Repr

structure Repository where
  workTree : Path
  settings : List Config.Section := []
  head : Option CommitId := none
  history : List CommitId := []
  script : Script := {}
  commitCalls : Nat := 0
  journal : List Asked := []
  deriving DecidableEq, Repr

namespace Repository

def branchNames : List String := ["HEAD", "@", "main", "heads/main", "refs/heads/main"]

-- The branch, or a commit of its history in full.
def resolve (r : Repository) (name : String) : Except Error CommitId :=
  let found :=
    if branchNames.contains name then r.head
    else (CommitId.parse name).toOption.filter r.history.contains
  match found with
  | some id => .ok id
  | none => .error (.notFound name r.script.unresolved)

def setting? (r : Repository) (key : String) : Option String := Config.value? r.settings key

def untracked (revision : CommitId) (path : Path) : Reply where
  err := Utf8.ofText s!"fatal: no such path '{path.text}' in {revision.text}\n"
  code := 128

def blameReply (r : Repository) (revision : CommitId) (path : Path) : Reply :=
  (r.script.blame.lookup path.text).getD (untracked revision path)

def saysUntracked (complaint : List Char) : Bool :=
  Text.occurs "no such path".toList complaint || Text.occurs "outside repository".toList complaint

def blame (r : Repository) (revision : CommitId) (path : Path) : Except Error (List Hunk) :=
  let reply := r.blameReply revision path
  if reply.succeeded then
    match Porcelain.read reply.text with
    | .ok hunks => .ok hunks
    | .error e => .error (.malformedOutput (.blame revision path) e)
  else if saysUntracked (Utf8.decodeLossy reply.err) then .error (.notTracked path revision)
  else .error (.commandFailed (.blame revision path) reply.code reply.complaint)

def record (r : Repository) (disk : Disk) (call : Call) : Repository :=
  { r with journal := r.journal ++ [⟨call, disk⟩] }

def failure (call : Call) (reply : Reply) : Error := .commandFailed call reply.code reply.complaint

def add (r : Repository) (disk : Disk) (paths : List Path) : Except Error Unit × Repository :=
  let reply := r.script.add.headD {}
  let r := { r.record disk (.add paths) with script := { r.script with add := r.script.add.tail } }
  (if reply.succeeded then .ok () else .error (failure (.add paths) reply), r)

def stageLimit : Nat := 256

def batches (paths : List Path) : List (List Path) :=
  if paths.isEmpty then [] else paths.take stageLimit :: batches (paths.drop stageLimit)
termination_by paths.length
decreasing_by
  have : paths ≠ [] := by simp_all
  have := List.length_pos_iff.2 this
  simp only [List.length_drop, stageLimit]
  omega

def addAll (r : Repository) (disk : Disk) : List (List Path) → Except Error Unit × Repository
  | [] => (.ok (), r)
  | batch :: rest =>
    match r.add disk batch with
    | (.ok (), r) => r.addAll disk rest
    | (.error e, r) => (.error e, r)

def stage (r : Repository) (disk : Disk) (paths : List Path) : Except Error Unit × Repository :=
  r.addAll disk (batches paths)

def hasStaged (r : Repository) (disk : Disk) : Except Error Bool × Repository :=
  let reply := r.script.diff.headD { code := 1 }
  let r := { r.record disk .diff with script := { r.script with diff := r.script.diff.tail } }
  (match reply.code with
    | 0 => .ok false
    | 1 => .ok true
    | _ => .error (failure .diff reply), r)

def defaultHead (n : Nat) : CommitId where
  bytes := List.replicate 20 (0xC0 + n).toUInt8
  length_eq := by simp

def commit (r : Repository) (disk : Disk) (message : String) (author : Option Author) :
    Except Error CommitId × Repository :=
  let answer := r.script.commit.headD {}
  let call := .commit message author
  let asked := { r.record disk call with
    script := { r.script with commit := r.script.commit.tail }
    commitCalls := r.commitCalls + 1 }
  if answer.reply.succeeded then
    let head := answer.head.getD (defaultHead r.commitCalls)
    (.ok head, { asked with head := some head, history := head :: r.history })
  else (.error (failure call answer.reply), asked)

end Repository

structure Store where
  place : Place
  bare : Bool := false
  settings : String := ""
  head : Option CommitId := none
  script : Script := {}
  deriving DecidableEq, Repr

inductive OpenError where
  | notARepository
  | noWorkTree
  deriving DecidableEq, Repr

def OpenError.message : OpenError → String
  | notARepository => "git backend error: not a git repository"
  | noWorkTree => "repository has no working tree"

namespace Store

def preamble (bare : Bool) : String := s!"[core]\n\trepositoryformatversion = 0\n\tbare = {bare}\n"

def open? (s : Store) : Except OpenError Repository :=
  match Config.read (preamble s.bare ++ s.settings) with
  | none => .error .notARepository
  | some settings =>
    if Config.value? settings "core.bare" = some "true" then .error .noWorkTree
    else .ok { workTree := Disk.pathOf s.place, settings, head := s.head, history := s.head.toList, script := s.script }

end Store

def discover (d : Disk) (store : Option Store) (p : Path) : Except OpenError Repository :=
  match store, d.locate p true with
  | some s, .ok place => if s.place.isPrefixOf place && d.isDirectory p then s.open? else .error .notARepository
  | _, _ => .error .notARepository

def openAt (d : Disk) (store : Option Store) (p : Path) : Except OpenError Repository :=
  match store, d.locate p true with
  | some s, .ok place =>
    if place == s.place || place == s.place ++ [".git"] then s.open? else .error .notARepository
  | _, _ => .error .notARepository

end KeepBlame.Git
