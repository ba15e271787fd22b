import KeepBlame.Proofs.Keys
import Mathlib.Data.List.Induction
import Mathlib.Data.List.Nodup

/-! The partition of a run's edits. A group holds the edits of just those commits whose owner is its author, the owner
of a commit being the first author named for it; files and edits ascend, and each stands once. -/
namespace KeepBlame

namespace FileEdits

/-- `files` holds the edits of `edits` by path, however the paths are written. -/
structure Grouped (edits : List (Path × Span)) (files : List FileEdits) : Prop where
  sorted : files.Pairwise fun a b => a.path.components < b.path.components
  ascending : ∀ f ∈ files, f.ids.Pairwise (· < ·)
  ids : ∀ f ∈ files, ∀ id, id ∈ f.ids ↔ ∃ path, (path, id) ∈ edits ∧ path.components = f.path.components
  found : ∀ path id, (path, id) ∈ edits → ∃ f ∈ files, f.path.components = path.components
  written : ∀ f ∈ files, ∃ id, (f.path, id) ∈ edits

theorem groupedNil : Grouped [] [] where
  sorted := .nil
  ascending := by simp
  ids := by simp
  found := by simp
  written := by simp

theorem insertMem {files : List FileEdits} (sorted : files.Pairwise fun a b => a.path.components < b.path.components)
    {path : Path} {id : Span} {f : FileEdits} :
    f ∈ insert files path id ↔
      (f ∈ files ∧ f.path.components ≠ path.components) ∨
      (∃ y ∈ files, y.path.components = path.components ∧ f = { y with ids := Ordered.insertNew id y.ids }) ∨
      ((∀ y ∈ files, y.path.components ≠ path.components) ∧ f = ⟨path, [id]⟩) :=
  Ordered.alterMem sorted

theorem groupedInsert {edits : List (Path × Span)} {files : List FileEdits} (h : Grouped edits files) (path : Path)
    (id : Span) : Grouped (edits ++ [(path, id)]) (insert files path id) where
  sorted := Ordered.alterSorted (fun _ => rfl) rfl h.sorted
  ascending := by
    intro f mem
    rcases (insertMem h.sorted).mp mem with ⟨old, _⟩ | ⟨y, old, _, rfl⟩ | ⟨_, rfl⟩
    · exact h.ascending f old
    · exact Ordered.insertNewSorted (h.ascending y old)
    · exact List.pairwise_singleton _ id
  ids := by
    intro f mem x
    rcases (insertMem h.sorted).mp mem with ⟨old, other⟩ | ⟨y, old, same, rfl⟩ | ⟨absent, rfl⟩
    · rw [h.ids f old x]
      simp only [List.mem_append, List.mem_singleton, Prod.mk.injEq]
      constructor
      · rintro ⟨q, given, same⟩
        exact ⟨q, .inl given, same⟩
      · rintro ⟨q, given | ⟨rfl, rfl⟩, same⟩
        · exact ⟨q, given, same⟩
        · exact absurd same.symm other
    · rw [Ordered.insertNewMem (h.ascending y old), h.ids y old x]
      simp only [List.mem_append, List.mem_singleton, Prod.mk.injEq]
      constructor
      · rintro (rfl | ⟨q, given, here⟩)
        · exact ⟨path, .inr ⟨rfl, rfl⟩, same.symm⟩
        · exact ⟨q, .inl given, here⟩
      · rintro ⟨q, given | ⟨rfl, rfl⟩, here⟩
        · exact .inr ⟨q, given, here⟩
        · exact .inl rfl
    · simp only [List.mem_append, List.mem_singleton, Prod.mk.injEq]
      constructor
      · rintro rfl
        exact ⟨path, .inr ⟨rfl, rfl⟩, rfl⟩
      · rintro ⟨q, given | ⟨rfl, rfl⟩, here⟩
        · obtain ⟨y, old, same⟩ := h.found q x given
          exact absurd (same.trans here) (absent y old)
        · rfl
  found := by
    intro q x given
    rcases List.mem_append.mp given with given | given
    · obtain ⟨y, old, same⟩ := h.found q x given
      by_cases here : y.path.components = path.components
      · exact ⟨_, (insertMem h.sorted).mpr (.inr (.inl ⟨y, old, here, rfl⟩)), same⟩
      · exact ⟨y, (insertMem h.sorted).mpr (.inl ⟨old, here⟩), same⟩
    · cases List.mem_singleton.mp given
      by_cases here : ∃ y ∈ files, y.path.components = path.components
      · obtain ⟨y, old, same⟩ := here
        exact ⟨_, (insertMem h.sorted).mpr (.inr (.inl ⟨y, old, same, rfl⟩)), same⟩
      · have absent : ∀ y ∈ files, y.path.components ≠ path.components := fun y old same => here ⟨y, old, same⟩
        exact ⟨_, (insertMem h.sorted).mpr (.inr (.inr ⟨absent, rfl⟩)), rfl⟩
  written := by
    intro f mem
    rcases (insertMem h.sorted).mp mem with ⟨old, _⟩ | ⟨y, old, _, rfl⟩ | ⟨_, rfl⟩
    · obtain ⟨x, given⟩ := h.written f old
      exact ⟨x, List.mem_append_left _ given⟩
    · obtain ⟨x, given⟩ := h.written y old
      exact ⟨x, List.mem_append_left _ given⟩
    · exact ⟨id, List.mem_append_right _ List.mem_cons_self⟩

theorem groupedInsertAll {before edits : List (Path × Span)} {files : List FileEdits} (h : Grouped before files) :
    Grouped (before ++ edits) (insertAll files edits) := by
  induction edits generalizing before files with
  | nil =>
    rw [List.append_nil]
    exact h
  | cons edit rest ih =>
    have next := ih (groupedInsert h edit.1 edit.2)
    rw [List.append_assoc] at next
    exact next

def idsOf (p : Path) (files : List FileEdits) : List Span := (files.filter (·.path.same p)).flatMap FileEdits.ids

theorem groupedIdsOf {edits : List (Path × Span)} {files : List FileEdits} (h : Grouped edits files) {p : Path}
    {id : Span} : id ∈ idsOf p files ↔ ∃ path, (path, id) ∈ edits ∧ path.components = p.components := by
  simp only [idsOf, List.mem_flatMap, List.mem_filter, Path.same, beq_iff_eq]
  constructor
  · rintro ⟨f, ⟨mem, same⟩, inside⟩
    obtain ⟨path, given, here⟩ := (h.ids f mem id).mp inside
    exact ⟨path, given, here.trans same⟩
  · rintro ⟨path, given, here⟩
    obtain ⟨f, mem, same⟩ := h.found path id given
    exact ⟨f, ⟨mem, same.trans here⟩, (h.ids f mem id).mpr ⟨path, given, same.symm⟩⟩

theorem groupedNodup {edits : List (Path × Span)} {files : List FileEdits} (h : Grouped edits files) (p : Path) :
    (idsOf p files).Nodup := by
  refine List.nodup_flatMap.mpr ⟨?_, ?_⟩
  · intro f mem
    exact Ordered.sortedNodup (h.ascending f (List.mem_filter.mp mem).1)
  · -- No two files of the list have the components of `p`.
    refine (h.sorted.filter _).imp_of_mem ?_
    intro a b left right less
    have here := (List.mem_filter.mp left).2
    have there := (List.mem_filter.mp right).2
    simp only [Path.same, beq_iff_eq] at here there
    rw [here, there] at less
    exact absurd less (Ordered.ltIrrefl _)

end FileEdits

namespace Partition

def owner? (edits : List AttributedEdit) (commit : CommitId) : Option Author :=
  (edits.find? (·.attribution.commit = commit)).map (·.attribution.author)

def shareOf (edits : List AttributedEdit) (commit : CommitId) : List (Path × Span) :=
  (edits.filter (·.attribution.commit = commit)).map fun e => (e.path, e.id)

structure Shares (edits : List AttributedEdit) (shares : List Share) : Prop where
  sorted : shares.Pairwise fun a b => a.commit < b.commit
  owned : ∀ s ∈ shares, owner? edits s.commit = some s.author
  held : ∀ s ∈ shares, s.edits = shareOf edits s.commit
  found : ∀ e ∈ edits, ∃ s ∈ shares, s.commit = e.attribution.commit

theorem ownerAppend {edits : List AttributedEdit} {e : AttributedEdit} {commit : CommitId} :
    owner? (edits ++ [e]) commit =
      (owner? edits commit).or (if e.attribution.commit = commit then some e.attribution.author else none) := by
  simp only [owner?, List.find?_append, Option.map_or]
  congr 1
  by_cases same : e.attribution.commit = commit <;> simp [same]

theorem shareAppend {edits : List AttributedEdit} {e : AttributedEdit} {commit : CommitId} :
    shareOf (edits ++ [e]) commit =
      shareOf edits commit ++ if e.attribution.commit = commit then [(e.path, e.id)] else [] := by
  by_cases same : e.attribution.commit = commit <;> simp [shareOf, List.filter_append, same]

theorem shareMem {shares : List Share} (sorted : shares.Pairwise fun a b => a.commit < b.commit) {e : AttributedEdit}
    {s : Share} :
    s ∈ Ordered.alter Share.commit e.attribution.commit ⟨e.attribution.commit, e.attribution.author, []⟩
        (fun s => { s with edits := s.edits ++ [(e.path, e.id)] }) shares ↔
      (s ∈ shares ∧ s.commit ≠ e.attribution.commit) ∨
      (∃ y ∈ shares, y.commit = e.attribution.commit ∧ s = { y with edits := y.edits ++ [(e.path, e.id)] }) ∨
      ((∀ y ∈ shares, y.commit ≠ e.attribution.commit) ∧
        s = ⟨e.attribution.commit, e.attribution.author, [(e.path, e.id)]⟩) :=
  Ordered.alterMem sorted

theorem ownerNone {edits : List AttributedEdit} {shares : List Share} (h : Shares edits shares) {commit : CommitId}
    (absent : ∀ s ∈ shares, s.commit ≠ commit) : owner? edits commit = none ∧ shareOf edits commit = [] := by
  have none : ∀ e ∈ edits, e.attribution.commit ≠ commit := by
    intro e mem same
    obtain ⟨s, found, here⟩ := h.found e mem
    exact absent s found (here.trans same)
  constructor
  · rw [owner?, List.find?_eq_none.mpr fun e mem => by simpa using none e mem]
    rfl
  · rw [shareOf, List.filter_eq_nil_iff.mpr fun e mem => by simpa using none e mem]
    rfl

theorem sharesStep {edits : List AttributedEdit} {shares : List Share} (h : Shares edits shares) (e : AttributedEdit) :
    Shares (edits ++ [e])
      (Ordered.alter Share.commit e.attribution.commit ⟨e.attribution.commit, e.attribution.author, []⟩
        (fun s => { s with edits := s.edits ++ [(e.path, e.id)] }) shares) where
  sorted := Ordered.alterSorted (fun _ => rfl) rfl h.sorted
  owned := by
    intro s mem
    rw [ownerAppend]
    rcases (shareMem h.sorted).mp mem with ⟨old, _⟩ | ⟨y, old, _, rfl⟩ | ⟨absent, rfl⟩
    · rw [h.owned s old]
      rfl
    · rw [h.owned y old]
      rfl
    · rw [(ownerNone h absent).1]
      simp
  held := by
    intro s mem
    rw [shareAppend]
    rcases (shareMem h.sorted).mp mem with ⟨old, other⟩ | ⟨y, old, same, rfl⟩ | ⟨absent, rfl⟩
    · rw [if_neg (Ne.symm other), List.append_nil]
      exact h.held s old
    · rw [if_pos same.symm, ← h.held y old]
    · rw [if_pos rfl, (ownerNone h absent).2]
      rfl
  found := by
    intro x mem
    by_cases here : ∃ y ∈ shares, y.commit = x.attribution.commit
    · obtain ⟨y, old, same⟩ := here
      by_cases this : y.commit = e.attribution.commit
      · exact ⟨_, (shareMem h.sorted).mpr (.inr (.inl ⟨y, old, this, rfl⟩)), same⟩
      · exact ⟨y, (shareMem h.sorted).mpr (.inl ⟨old, this⟩), same⟩
    · rcases List.mem_append.mp mem with given | given
      · exact absurd (h.found x given) here
      · cases List.mem_singleton.mp given
        have absent : ∀ y ∈ shares, y.commit ≠ e.attribution.commit := fun y old same => here ⟨y, old, same⟩
        exact ⟨_, (shareMem h.sorted).mpr (.inr (.inr ⟨absent, rfl⟩)), rfl⟩

theorem byCommitShares (edits : List AttributedEdit) : Shares edits (byCommit edits) := by
  induction edits using List.reverseRecOn with
  | nil => exact ⟨.nil, by simp [byCommit], by simp [byCommit], by simp⟩
  | append_singleton rest e ih =>
    unfold byCommit at ih ⊢
    rw [List.foldl_append]
    exact sharesStep ih e

def editsOf (shares : List Share) (author : Author) : List (Path × Span) :=
  (shares.filter (·.author = author)).flatMap Share.edits

structure Groups (shares : List Share) (groups : List AuthorGroup) : Prop where
  sorted : groups.Pairwise fun a b => a.author < b.author
  ascending : ∀ g ∈ groups, g.commits.Pairwise (· < ·)
  commits : ∀ g ∈ groups, ∀ c, c ∈ g.commits ↔ ∃ s ∈ shares, s.author = g.author ∧ s.commit = c
  files : ∀ g ∈ groups, FileEdits.Grouped (editsOf shares g.author) g.files
  found : ∀ s ∈ shares, ∃ g ∈ groups, g.author = s.author
  named : ∀ g ∈ groups, ∃ s ∈ shares, s.author = g.author

theorem groupMem {groups : List AuthorGroup} (sorted : groups.Pairwise fun a b => a.author < b.author) {share : Share}
    {g : AuthorGroup} :
    g ∈ addShare groups share ↔
      (g ∈ groups ∧ g.author ≠ share.author) ∨
      (∃ y ∈ groups, y.author = share.author ∧ g = ⟨y.author, Ordered.insertNew share.commit y.commits,
        FileEdits.insertAll y.files share.edits⟩) ∨
      ((∀ y ∈ groups, y.author ≠ share.author) ∧
        g = ⟨share.author, [share.commit], FileEdits.insertAll [] share.edits⟩) :=
  Ordered.alterMem sorted

theorem editsAppend {shares : List Share} {share : Share} {author : Author} :
    editsOf (shares ++ [share]) author =
      editsOf shares author ++ if share.author = author then share.edits else [] := by
  by_cases same : share.author = author <;> simp [editsOf, List.filter_append, same]

theorem editsNone {shares : List Share} {groups : List AuthorGroup} (h : Groups shares groups) {author : Author}
    (absent : ∀ g ∈ groups, g.author ≠ author) : editsOf shares author = [] ∧ ∀ s ∈ shares, s.author ≠ author := by
  have none : ∀ s ∈ shares, s.author ≠ author := by
    intro s mem same
    obtain ⟨g, found, here⟩ := h.found s mem
    exact absent g found (here.trans same)
  refine ⟨?_, none⟩
  rw [editsOf, List.filter_eq_nil_iff.mpr fun s mem => by simpa using none s mem]
  rfl

theorem groupsStep {shares : List Share} {groups : List AuthorGroup} (h : Groups shares groups) (share : Share) :
    Groups (shares ++ [share]) (addShare groups share) where
  sorted := Ordered.alterSorted (fun _ => rfl) rfl h.sorted
  ascending := by
    intro g mem
    rcases (groupMem h.sorted).mp mem with ⟨old, _⟩ | ⟨y, old, _, rfl⟩ | ⟨_, rfl⟩
    · exact h.ascending g old
    · exact Ordered.insertNewSorted (h.ascending y old)
    · exact List.pairwise_singleton _ _
  commits := by
    intro g mem c
    simp only [List.mem_append, List.mem_singleton]
    rcases (groupMem h.sorted).mp mem with ⟨old, other⟩ | ⟨y, old, same, rfl⟩ | ⟨absent, rfl⟩
    · rw [h.commits g old c]
      constructor
      · rintro ⟨s, given, here⟩
        exact ⟨s, .inl given, here⟩
      · rintro ⟨s, given | rfl, here⟩
        · exact ⟨s, given, here⟩
        · exact absurd here.1.symm other
    · rw [Ordered.insertNewMem (h.ascending y old), h.commits y old c]
      constructor
      · rintro (rfl | ⟨s, given, here⟩)
        · exact ⟨share, .inr rfl, same.symm, rfl⟩
        · exact ⟨s, .inl given, here⟩
      · rintro ⟨s, given | rfl, here⟩
        · exact .inr ⟨s, given, here⟩
        · exact .inl here.2.symm
    · constructor
      · intro here
        exact ⟨share, .inr rfl, rfl, (List.mem_singleton.mp here).symm⟩
      · rintro ⟨s, given | rfl, here⟩
        · exact absurd here.1 ((editsNone h absent).2 s given)
        · exact List.mem_singleton.mpr here.2.symm
  files := by
    intro g mem
    rw [editsAppend]
    rcases (groupMem h.sorted).mp mem with ⟨old, other⟩ | ⟨y, old, same, rfl⟩ | ⟨absent, rfl⟩
    · rw [if_neg (Ne.symm other), List.append_nil]
      exact h.files g old
    · rw [if_pos same.symm]
      exact FileEdits.groupedInsertAll (h.files y old)
    · rw [if_pos rfl, (editsNone h absent).1]
      exact FileEdits.groupedInsertAll FileEdits.groupedNil
  found := by
    intro s mem
    by_cases here : ∃ y ∈ groups, y.author = s.author
    · obtain ⟨y, old, same⟩ := here
      by_cases this : y.author = share.author
      · exact ⟨_, (groupMem h.sorted).mpr (.inr (.inl ⟨y, old, this, rfl⟩)), same⟩
      · exact ⟨y, (groupMem h.sorted).mpr (.inl ⟨old, this⟩), same⟩
    · rcases List.mem_append.mp mem with given | given
      · exact absurd (h.found s given) here
      · cases List.mem_singleton.mp given
        have absent : ∀ y ∈ groups, y.author ≠ share.author := fun y old same => here ⟨y, old, same⟩
        exact ⟨_, (groupMem h.sorted).mpr (.inr (.inr ⟨absent, rfl⟩)), rfl⟩
  named := by
    intro g mem
    simp only [List.mem_append, List.mem_singleton]
    rcases (groupMem h.sorted).mp mem with ⟨old, _⟩ | ⟨y, old, _, rfl⟩ | ⟨_, rfl⟩
    · obtain ⟨s, given, same⟩ := h.named g old
      exact ⟨s, .inl given, same⟩
    · obtain ⟨s, given, same⟩ := h.named y old
      exact ⟨s, .inl given, same⟩
    · exact ⟨share, .inr rfl, rfl⟩

theorem addSharesGroups (shares : List Share) : Groups shares (shares.foldl addShare []) := by
  induction shares using List.reverseRecOn with
  | nil => exact ⟨.nil, by simp, by simp, by simp, by simp, by simp⟩
  | append_singleton rest share ih =>
    rw [List.foldl_append]
    exact groupsStep ih share

section Build
variable (attributed : List AttributedEdit) (unattributed : List (Path × Span))

theorem buildGroups : Groups (byCommit attributed) (build attributed unattributed).groups :=
  addSharesGroups (byCommit attributed)

theorem buildUnattributed : FileEdits.Grouped unattributed (build attributed unattributed).unattributed := by
  have all : FileEdits.Grouped ([] ++ unattributed) _ := FileEdits.groupedInsertAll FileEdits.groupedNil
  rwa [List.nil_append] at all

variable {attributed}

theorem editsOfMem {author : Author} {path : Path} {id : Span} :
    (path, id) ∈ editsOf (byCommit attributed) author ↔
      ∃ e ∈ attributed, e.path = path ∧ e.id = id ∧ owner? attributed e.attribution.commit = some author := by
  have shares := byCommitShares attributed
  simp only [editsOf, List.mem_flatMap, List.mem_filter, decide_eq_true_eq]
  constructor
  · rintro ⟨s, ⟨mem, rfl⟩, inside⟩
    rw [shares.held s mem, shareOf] at inside
    obtain ⟨e, found, same⟩ := List.mem_map.mp inside
    cases same
    obtain ⟨given, commit⟩ := List.mem_filter.mp found
    rw [decide_eq_true_eq] at commit
    exact ⟨e, given, rfl, rfl, commit ▸ shares.owned s mem⟩
  · rintro ⟨e, given, rfl, rfl, owned⟩
    obtain ⟨s, mem, commit⟩ := shares.found e given
    have author := shares.owned s mem
    rw [commit, owned] at author
    refine ⟨s, ⟨mem, (Option.some.inj author).symm⟩, ?_⟩
    rw [shares.held s mem, shareOf]
    exact List.mem_map.mpr ⟨e, List.mem_filter.mpr ⟨given, by simpa using commit.symm⟩, rfl⟩

theorem ownerSome {e : AttributedEdit} (given : e ∈ attributed) :
    ∃ author, owner? attributed e.attribution.commit = some author := by
  have found : (attributed.find? (·.attribution.commit = e.attribution.commit)).isSome :=
    List.find?_isSome.mpr ⟨e, given, by simp⟩
  obtain ⟨first, here⟩ := Option.isSome_iff_exists.mp found
  exact ⟨first.attribution.author, by rw [owner?, here]; rfl⟩

end Build

end Partition
end KeepBlame
