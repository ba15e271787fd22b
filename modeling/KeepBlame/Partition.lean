import KeepBlame.Blame.LineMap
import KeepBlame.Ordered
import KeepBlame.Path

/-!
The edits of a run by author. All edits of one commit go to one author, the first that is named for it; authors,
commits, paths and edits stand in ascending order.
-/
namespace KeepBlame

structure AttributedEdit where
  path : Path
  id : Span
  attribution : Attribution
  deriving DecidableEq, Repr

structure FileEdits where
  path : Path
  ids : List Span
  deriving DecidableEq, Repr

structure AuthorGroup where
  author : Author
  commits : List CommitId
  files : List FileEdits
  deriving DecidableEq, Repr

structure Partition where
  groups : List AuthorGroup
  unattributed : List FileEdits
  deriving DecidableEq, Repr

namespace FileEdits

def count (files : List FileEdits) : Nat := files.foldr (fun f n => f.ids.length + n) 0

def insert (files : List FileEdits) (path : Path) (id : Span) : List FileEdits :=
  Ordered.alter (fun f : FileEdits => f.path.components) path.components ⟨path, []⟩
    (fun f => { f with ids := Ordered.insertNew id f.ids }) files

def insertAll (files : List FileEdits) (edits : List (Path × Span)) : List FileEdits :=
  edits.foldl (fun files (path, id) => insert files path id) files

end FileEdits

namespace Partition

structure Share where
  commit : CommitId
  author : Author
  edits : List (Path × Span)

def byCommit (edits : List AttributedEdit) : List Share :=
  edits.foldl (fun shares e =>
    Ordered.alter Share.commit e.attribution.commit ⟨e.attribution.commit, e.attribution.author, []⟩
      (fun s => { s with edits := s.edits ++ [(e.path, e.id)] }) shares) []

def addShare (groups : List AuthorGroup) (share : Share) : List AuthorGroup :=
  Ordered.alter AuthorGroup.author share.author ⟨share.author, [], []⟩
    (fun g => { g with
      commits := Ordered.insertNew share.commit g.commits
      files := FileEdits.insertAll g.files share.edits }) groups

def build (attributed : List AttributedEdit) (unattributed : List (Path × Span)) : Partition where
  groups := (byCommit attributed).foldl addShare []
  unattributed := FileEdits.insertAll [] unattributed

def isEmpty (p : Partition) : Bool := p.groups.isEmpty && p.unattributed.isEmpty

end Partition
end KeepBlame
