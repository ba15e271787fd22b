import KeepBlame.Basics
import KeepBlame.Disk.Basic
import KeepBlame.Exclusion
import KeepBlame.Ordered

/-!
Finding files. A directory named `.git` and whatever is excluded are left out with all that is below them; links are
neither files nor entered. A search that starts at a file finds that file.
-/
namespace KeepBlame.Disk

def isBelow (dir place : Place) : Bool := dir.isPrefixOf place && dir.length < place.length

def countBelow (d : Disk) (dir : Place) : Nat := d.nodes.countP fun entry => isBelow dir entry.1

def children (d : Disk) (dir : Place) : List (Place × Node) :=
  d.nodes.filter fun entry => dir.isPrefixOf entry.1 && entry.1.length == dir.length + 1

theorem countBelowChild {d : Disk} {dir : Place} {entry : Place × Node} (h : entry ∈ d.children dir) :
    d.countBelow entry.1 < d.countBelow dir := by
  simp only [children, List.mem_filter, Bool.and_eq_true, beq_iff_eq, List.isPrefixOf_iff_prefix] at h
  obtain ⟨hmem, hpre, hlen⟩ := h
  refine countLt hmem (by simp [isBelow]) (by simp [isBelow, hpre]; omega) fun y _ hy => ?_
  simp only [isBelow, Bool.and_eq_true, List.isPrefixOf_iff_prefix, decide_eq_true_eq] at hy ⊢
  exact ⟨hpre.trans hy.1, by omega⟩

structure Query where
  exclusions : List Exclusion
  wanted : Path → Bool

def Query.excludes (q : Query) (p : Path) : Bool := q.exclusions.any (·.covers p)

def repositoryName : String := ".git"

def walk (d : Disk) (q : Query) (dir : Place) (path : Path) : List Path :=
  (d.children dir).attach.flatMap fun ⟨entry, _h⟩ =>
    let name := entry.1.getLast?.getD ""
    let p := path.join name
    match entry.2 with
    | .directory => if name == repositoryName || q.excludes p then [] else d.walk q entry.1 p
    | .file _ => if !q.excludes p && q.wanted p then [p] else []
    | .link _ => []
termination_by d.countBelow dir
decreasing_by exact countBelowChild _h

/-- The files found from `root` on, in ascending order. A root that is a link to a directory is entered even where
it is excluded itself. -/
def find (d : Disk) (root : Path) (q : Query) : List Path :=
  if d.isFile root then [root]
  else
    match d.locate root false, d.locate root true with
    | .ok place, .ok target =>
      let pruned := place == target && (root.fileName? == some repositoryName || q.excludes root)
      if pruned then [] else Ordered.sortBy Path.components (d.walk q target root)
    | _, _ => []

end KeepBlame.Disk
