import KeepBlame.Proofs.Partition

/-! The partition by owners, said without the way it is built. Each owner of a commit has one group, which names the
commits it owns and lists their edits; an edit that is blamed on one commit alone is in one group alone. -/
namespace KeepBlame

namespace FileEdits

theorem groupedCongr {edits others : List (Path × Span)} {files : List FileEdits}
    (same : ∀ path id, (path, id) ∈ edits ↔ (path, id) ∈ others) (h : Grouped edits files) : Grouped others files where
  sorted := h.sorted
  ascending := h.ascending
  ids := by
    intro f mem id
    simp only [h.ids f mem id, same]
  found := fun path id given => h.found path id ((same path id).mpr given)
  written := by
    intro f mem
    obtain ⟨id, given⟩ := h.written f mem
    exact ⟨id, (same f.path id).mp given⟩

theorem groupedFull {edits : List (Path × Span)} {files : List FileEdits} (h : Grouped edits files) :
    ∀ f ∈ files, f.ids ≠ [] := by
  intro f mem
  obtain ⟨id, given⟩ := h.written f mem
  exact List.ne_nil_of_mem ((h.ids f mem id).mpr ⟨f.path, given, rfl⟩)

end FileEdits

namespace Partition
open FileEdits (Grouped idsOf)

def ownedEdits (attributed : List AttributedEdit) (author : Author) : List (Path × Span) :=
  (attributed.filter fun e => owner? attributed e.attribution.commit = some author).map fun e => (e.path, e.id)

section Owners
variable {attributed : List AttributedEdit} {unattributed : List (Path × Span)}

theorem ownedMem {author : Author} {path : Path} {id : Span} :
    (path, id) ∈ ownedEdits attributed author ↔
      ∃ e ∈ attributed, e.path = path ∧ e.id = id ∧ owner? attributed e.attribution.commit = some author := by
  simp only [ownedEdits, List.mem_map, List.mem_filter, decide_eq_true_eq, Prod.mk.injEq]
  constructor
  · rintro ⟨e, ⟨given, owned⟩, here, name⟩
    exact ⟨e, given, here, name, owned⟩
  · rintro ⟨e, given, here, name, owned⟩
    exact ⟨e, ⟨given, owned⟩, here, name⟩

theorem ownerShare {commit : CommitId} {author : Author} :
    owner? attributed commit = some author ↔
      ∃ s ∈ byCommit attributed, s.author = author ∧ s.commit = commit := by
  have shares := byCommitShares attributed
  constructor
  · intro owned
    obtain ⟨e, first, _⟩ := Option.map_eq_some_iff.mp owned
    have named : e.attribution.commit = commit := by simpa using List.find?_some first
    obtain ⟨s, mem, here⟩ := shares.found e (List.mem_of_find?_eq_some first)
    have author' := shares.owned s mem
    rw [here, named, owned] at author'
    exact ⟨s, mem, (Option.some.inj author').symm, here.trans named⟩
  · rintro ⟨s, mem, rfl, rfl⟩
    exact shares.owned s mem

theorem groupAuthors (author : Author) :
    (∃ g ∈ (build attributed unattributed).groups, g.author = author) ↔
      ∃ commit, owner? attributed commit = some author := by
  have groups := buildGroups attributed unattributed
  constructor
  · rintro ⟨g, mem, rfl⟩
    obtain ⟨s, share, same⟩ := groups.named g mem
    exact ⟨s.commit, ownerShare.mpr ⟨s, share, same, rfl⟩⟩
  · rintro ⟨commit, owned⟩
    obtain ⟨s, share, rfl, _⟩ := ownerShare.mp owned
    exact groups.found s share

theorem groupCommits {g : AuthorGroup} (mem : g ∈ (build attributed unattributed).groups) (commit : CommitId) :
    commit ∈ g.commits ↔ owner? attributed commit = some g.author := by
  rw [(buildGroups attributed unattributed).commits g mem, ownerShare]

theorem groupFiles {g : AuthorGroup} (mem : g ∈ (build attributed unattributed).groups) :
    Grouped (ownedEdits attributed g.author) g.files := by
  refine FileEdits.groupedCongr ?_ ((buildGroups attributed unattributed).files g mem)
  intro path id
  rw [editsOfMem, ownedMem]

theorem groupIds {g : AuthorGroup} (mem : g ∈ (build attributed unattributed).groups) {path : Path} {id : Span} :
    id ∈ idsOf path g.files ↔ ∃ e ∈ attributed, e.path.components = path.components ∧ e.id = id ∧
      owner? attributed e.attribution.commit = some g.author := by
  rw [FileEdits.groupedIdsOf (groupFiles mem)]
  constructor
  · rintro ⟨q, held, same⟩
    obtain ⟨e, given, rfl, name, owned⟩ := ownedMem.mp held
    exact ⟨e, given, same, name, owned⟩
  · rintro ⟨e, given, same, name, owned⟩
    exact ⟨e.path, ownedMem.mpr ⟨e, given, rfl, name, owned⟩, same⟩

theorem groupUnique {g h : AuthorGroup} (left : g ∈ (build attributed unattributed).groups)
    (right : h ∈ (build attributed unattributed).groups) (same : g.author = h.author) : g = h :=
  Ordered.eqOfKey (buildGroups attributed unattributed).sorted left right same

theorem groupOfEdit {e : AttributedEdit} (given : e ∈ attributed) :
    ∃ g ∈ (build attributed unattributed).groups, owner? attributed e.attribution.commit = some g.author := by
  obtain ⟨author, owned⟩ := ownerSome given
  obtain ⟨g, mem, rfl⟩ := (groupAuthors author).mpr ⟨_, owned⟩
  exact ⟨g, mem, owned⟩

end Owners

theorem buildByOwner (attributed : List AttributedEdit) (unattributed : List (Path × Span)) :
    let p := build attributed unattributed
    (p.groups.Pairwise fun a b => a.author < b.author) ∧
    (∀ author, (∃ g ∈ p.groups, g.author = author) ↔ ∃ commit, owner? attributed commit = some author) ∧
    (∀ g ∈ p.groups, g.commits.Pairwise (· < ·) ∧
      (∀ commit, commit ∈ g.commits ↔ owner? attributed commit = some g.author) ∧
      Grouped (ownedEdits attributed g.author) g.files ∧ ∀ f ∈ g.files, f.ids ≠ []) ∧
    (Grouped unattributed p.unattributed ∧ ∀ f ∈ p.unattributed, f.ids ≠ []) ∧
    (∀ path id, (∃ g ∈ p.groups, id ∈ idsOf path g.files) ↔
      ∃ e ∈ attributed, e.path.components = path.components ∧ e.id = id) ∧
    (∀ path id, id ∈ idsOf path p.unattributed ↔
      ∃ q, (q, id) ∈ unattributed ∧ q.components = path.components) ∧
    (∀ e ∈ attributed, ∃! g, g ∈ p.groups ∧ e.attribution.commit ∈ g.commits ∧
      ∀ other ∈ attributed, other.attribution.commit = e.attribution.commit → other.id ∈ idsOf other.path g.files) ∧
    ∀ e ∈ attributed,
      (∀ other ∈ attributed, other.path.components = e.path.components → other.id = e.id →
        other.attribution.commit = e.attribution.commit) →
      ∃! g, g ∈ p.groups ∧ e.id ∈ idsOf e.path g.files := by
  intro p
  have groups : Groups (byCommit attributed) p.groups := buildGroups attributed unattributed
  have rest : Grouped unattributed p.unattributed := buildUnattributed attributed unattributed
  refine ⟨groups.sorted, groupAuthors, ?_, ⟨rest, FileEdits.groupedFull rest⟩, ?_, ?_, ?_, ?_⟩
  · intro g mem
    exact ⟨groups.ascending g mem, groupCommits mem, groupFiles mem, FileEdits.groupedFull (groupFiles mem)⟩
  · intro path id
    constructor
    · rintro ⟨g, mem, inside⟩
      obtain ⟨e, given, same, name, _⟩ := (groupIds mem).mp inside
      exact ⟨e, given, same, name⟩
    · rintro ⟨e, given, same, name⟩
      obtain ⟨g, mem, owned⟩ := groupOfEdit given
      exact ⟨g, mem, (groupIds mem).mpr ⟨e, given, same, name, owned⟩⟩
  · intro path id
    exact FileEdits.groupedIdsOf rest
  · intro e given
    obtain ⟨g, mem, owned⟩ := @groupOfEdit attributed unattributed e given
    refine ⟨g, ⟨mem, (groupCommits mem _).mpr owned, ?_⟩, ?_⟩
    · intro other listed same
      exact (groupIds mem).mpr ⟨other, listed, rfl, rfl, same ▸ owned⟩
    · rintro h ⟨mem', held, _⟩
      have owned' := (groupCommits mem' _).mp held
      exact groupUnique mem' mem (Option.some.inj (owned'.symm.trans owned))
  · intro e given single
    obtain ⟨g, mem, owned⟩ := @groupOfEdit attributed unattributed e given
    refine ⟨g, ⟨mem, (groupIds mem).mpr ⟨e, given, rfl, rfl, owned⟩⟩, ?_⟩
    rintro h ⟨mem', inside⟩
    obtain ⟨other, listed, same, name, owned'⟩ := (groupIds mem').mp inside
    rw [single other listed same name] at owned'
    exact groupUnique mem' mem (Option.some.inj (owned'.symm.trans owned))

-- One commit under two names, its edit given twice with the path in two spellings, and a second commit.
def renamedCommit : CommitId := ⟨List.replicate 20 1, rfl⟩

def renamedEdits : List AttributedEdit := [
  ⟨⟨"a"⟩, ⟨1, 0⟩, renamedCommit, ⟨"Zed", "z"⟩⟩,
  ⟨⟨"b"⟩, ⟨0, 2⟩, ⟨List.replicate 20 2, rfl⟩, ⟨"Amy", "a"⟩⟩,
  ⟨⟨"a/."⟩, ⟨1, 0⟩, renamedCommit, ⟨"Amy", "a"⟩⟩]

theorem renamedInOneGroup :
    (∃ g ∈ (build renamedEdits []).groups, g.author = ⟨"Zed", "z"⟩) ∧
      ∃! g, g ∈ (build renamedEdits []).groups ∧ ⟨1, 0⟩ ∈ idsOf ⟨"a/."⟩ g.files := by
  let again : AttributedEdit := ⟨⟨"a/."⟩, ⟨1, 0⟩, renamedCommit, ⟨"Amy", "a"⟩⟩
  have given : again ∈ renamedEdits := by simp [renamedEdits, again]
  have owned : owner? renamedEdits renamedCommit = some ⟨"Zed", "z"⟩ := by decide
  obtain ⟨_, owners, _, _, _, _, _, single⟩ := buildByOwner renamedEdits []
  refine ⟨(owners ⟨"Zed", "z"⟩).mpr ⟨renamedCommit, owned⟩, single again given ?_⟩
  intro other listed _ name
  simp only [renamedEdits, List.mem_cons, List.not_mem_nil, or_false] at listed
  rcases listed with rfl | rfl | rfl
  · rfl
  · cases name
  · rfl

end Partition
end KeepBlame
