import KeepBlame.Proofs.Partition
import KeepBlame.Run
import Mathlib.Data.List.Pairwise

/-! The batches of a run name each generated edit once. What a file is made of in one batch or another is, all together,
a rearrangement of the names in its set. -/
namespace KeepBlame.Run
open FileEdits (idsOf)

structure Sound (entries : List (Path × Generated)) : Prop where
  apart : entries.Pairwise fun a b => a.1.same b.1 = false
  distinct : ∀ entry ∈ entries, entry.2.set.ids.Nodup
  whole : ∀ entry ∈ entries, ∀ ids, entry.2.attribution = .attributed ids → ids.map Prod.fst = entry.2.set.ids

def scheduled (p : Path) (batches : List Batch) : List Span := batches.flatMap fun b => idsOf p b.files

theorem attributedMem {entries : List (Path × Generated)} {e : AttributedEdit} :
    e ∈ entries.flatMap attributedOf ↔
      ∃ entry ∈ entries, ∃ ids, entry.2.attribution = .attributed ids ∧ e.path = entry.1 ∧ (e.id, e.attribution) ∈ ids := by
  obtain ⟨path, id, attribution⟩ := e
  rw [List.mem_flatMap]
  refine exists_congr fun entry => and_congr_right fun _ => ?_
  cases owned : entry.2.attribution with
  | attributed ids => simp [attributedOf, owned, eq_comm, and_comm]
  | unattributed reason => simp [attributedOf, owned]

theorem unattributedMem {entries : List (Path × Generated)} {path : Path} {id : Span} :
    (path, id) ∈ entries.flatMap unattributedOf ↔
      ∃ entry ∈ entries, (∃ reason, entry.2.attribution = .unattributed reason) ∧ path = entry.1 ∧
        id ∈ entry.2.set.ids := by
  rw [List.mem_flatMap]
  refine exists_congr fun entry => and_congr_right fun _ => ?_
  cases owned : entry.2.attribution with
  | attributed ids => simp [unattributedOf, owned]
  | unattributed reason => simp [unattributedOf, owned, eq_comm, and_comm]

section Entries
variable {entries : List (Path × Generated)} (sound : Sound entries)
include sound

theorem entryUnique {a b : Path × Generated} (left : a ∈ entries) (right : b ∈ entries)
    (same : a.1.components = b.1.components) : a = b := by
  by_contra different
  have apart : entries.Pairwise fun x y => x.1.components ≠ y.1.components :=
    sound.apart.imp fun {x y} apart => by simpa [Path.same] using apart
  have : Std.Symm fun x y : Path × Generated => x.1.components ≠ y.1.components := ⟨fun _ _ => Ne.symm⟩
  exact apart.forall left right different same

theorem attributedUnique {a b : AttributedEdit} (left : a ∈ entries.flatMap attributedOf)
    (right : b ∈ entries.flatMap attributedOf) (same : a.path.components = b.path.components) (name : a.id = b.id) :
    a = b := by
  obtain ⟨entry, mem, ids, owned, path, here⟩ := attributedMem.mp left
  obtain ⟨other, mem', ids', owned', path', here'⟩ := attributedMem.mp right
  rw [path, path'] at same
  cases entryUnique sound mem mem' same
  cases owned.symm.trans owned'
  have nodup : (ids.map Prod.fst).Nodup := sound.whole entry mem ids owned ▸ sound.distinct entry mem
  have attribution := List.inj_on_of_nodup_map nodup here here' name
  cases a
  cases b
  simp_all

theorem unattributedApart {a : AttributedEdit} (left : a ∈ entries.flatMap attributedOf) {path : Path} {id : Span}
    (right : (path, id) ∈ entries.flatMap unattributedOf) : a.path.components ≠ path.components := by
  intro same
  obtain ⟨entry, mem, ids, owned, here, _⟩ := attributedMem.mp left
  obtain ⟨other, mem', ⟨reason, free⟩, there, _⟩ := unattributedMem.mp right
  rw [here, there] at same
  cases entryUnique sound mem mem' same
  cases owned.symm.trans free

theorem groupsApart (p : Path) {g h : AuthorGroup} (left : g ∈ (partition entries).groups)
    (right : h ∈ (partition entries).groups) (other : g.author ≠ h.author) :
    List.Disjoint (idsOf p g.files) (idsOf p h.files) := by
  intro id inLeft inRight
  have groups := Partition.buildGroups (entries.flatMap attributedOf) (entries.flatMap unattributedOf)
  obtain ⟨path, given, here⟩ := (FileEdits.groupedIdsOf (groups.files g left)).mp inLeft
  obtain ⟨path', given', here'⟩ := (FileEdits.groupedIdsOf (groups.files h right)).mp inRight
  obtain ⟨a, mem, rfl, rfl, owned⟩ := Partition.editsOfMem.mp given
  obtain ⟨b, mem', rfl, name, owned'⟩ := Partition.editsOfMem.mp given'
  cases attributedUnique sound mem mem' (here.trans here'.symm) name.symm
  exact other (Option.some.inj (owned.symm.trans owned'))

theorem unattributedDisjoint (p : Path) {g : AuthorGroup} (left : g ∈ (partition entries).groups) :
    List.Disjoint (idsOf p g.files) (idsOf p (partition entries).unattributed) := by
  intro id inLeft inRight
  have groups := Partition.buildGroups (entries.flatMap attributedOf) (entries.flatMap unattributedOf)
  have rest := Partition.buildUnattributed (entries.flatMap attributedOf) (entries.flatMap unattributedOf)
  obtain ⟨path, given, here⟩ := (FileEdits.groupedIdsOf (groups.files g left)).mp inLeft
  obtain ⟨path', given', here'⟩ := (FileEdits.groupedIdsOf rest).mp inRight
  obtain ⟨a, mem, rfl, _⟩ := Partition.editsOfMem.mp given
  exact unattributedApart sound mem given' (here.trans here'.symm)

end Entries

theorem scheduledBatches (p : Path) (partition : Partition) (o : CommitSettings) :
    scheduled p (partition.batches o) =
      partition.groups.flatMap (fun g => idsOf p g.files) ++ idsOf p partition.unattributed := by
  simp only [scheduled, Partition.batches, List.flatMap_append, List.flatMap_map]
  congr 1
  split
  · rename_i empty
    rw [List.isEmpty_iff.mp empty]
    rfl
  · simp [Partition.unattributedBatch]

theorem scheduledNodup {entries : List (Path × Generated)} (sound : Sound entries) (p : Path) (o : CommitSettings) :
    (scheduled p ((partition entries).batches o)).Nodup := by
  have groups := Partition.buildGroups (entries.flatMap attributedOf) (entries.flatMap unattributedOf)
  have rest := Partition.buildUnattributed (entries.flatMap attributedOf) (entries.flatMap unattributedOf)
  rw [scheduledBatches]
  refine List.nodup_append'.mpr ⟨List.nodup_flatMap.mpr ⟨?_, ?_⟩, FileEdits.groupedNodup rest p, ?_⟩
  · intro g mem
    exact FileEdits.groupedNodup (groups.files g mem) p
  · refine groups.sorted.imp_of_mem ?_
    intro g h left right less
    exact groupsApart sound p left right (Ordered.neOfLt less)
  · intro id left right
    obtain ⟨g, mem, inside⟩ := List.mem_flatMap.mp left
    exact unattributedDisjoint sound p mem inside right

theorem scheduledMem {entries : List (Path × Generated)} (sound : Sound entries) {entry : Path × Generated}
    (mem : entry ∈ entries) (o : CommitSettings) (id : Span) :
    id ∈ scheduled entry.1 ((partition entries).batches o) ↔ id ∈ entry.2.set.ids := by
  have groups := Partition.buildGroups (entries.flatMap attributedOf) (entries.flatMap unattributedOf)
  have rest := Partition.buildUnattributed (entries.flatMap attributedOf) (entries.flatMap unattributedOf)
  rw [scheduledBatches, List.mem_append, List.mem_flatMap]
  constructor
  · rintro (⟨g, found, inside⟩ | inside)
    · obtain ⟨path, given, here⟩ := (FileEdits.groupedIdsOf (groups.files g found)).mp inside
      obtain ⟨a, member, rfl, rfl, _⟩ := Partition.editsOfMem.mp given
      obtain ⟨other, mem', ids, owned, path, pair⟩ := attributedMem.mp member
      rw [path] at here
      cases entryUnique sound mem mem' here.symm
      rw [← sound.whole entry mem ids owned]
      exact List.mem_map_of_mem pair
    · obtain ⟨path, given, here⟩ := (FileEdits.groupedIdsOf rest).mp inside
      obtain ⟨other, mem', _, rfl, named⟩ := unattributedMem.mp given
      cases entryUnique sound mem mem' here.symm
      exact named
  · intro named
    cases owned : entry.2.attribution with
    | attributed ids =>
      rw [← sound.whole entry mem ids owned] at named
      obtain ⟨⟨_, attribution⟩, pair, rfl⟩ := List.mem_map.mp named
      have member : AttributedEdit.mk entry.1 _ attribution ∈ entries.flatMap attributedOf :=
        attributedMem.mpr ⟨entry, mem, ids, owned, rfl, pair⟩
      left
      obtain ⟨author, owner⟩ := Partition.ownerSome member
      obtain ⟨s, share, commit⟩ := (Partition.byCommitShares _).found _ member
      have same := (Partition.byCommitShares _).owned s share
      rw [commit, owner] at same
      obtain ⟨g, group, author'⟩ := groups.found s share
      refine ⟨g, group, (FileEdits.groupedIdsOf (groups.files g group)).mpr ⟨entry.1, ?_, rfl⟩⟩
      rw [author', ← Option.some.inj same]
      exact Partition.editsOfMem.mpr ⟨_, member, rfl, rfl, owner⟩
    | unattributed reason =>
      right
      exact (FileEdits.groupedIdsOf rest).mpr
        ⟨entry.1, unattributedMem.mpr ⟨entry, mem, ⟨reason, owned⟩, rfl, named⟩, rfl⟩

theorem batchPaths {entries : List (Path × Generated)} {o : CommitSettings} {b : Batch}
    (mem : b ∈ (partition entries).batches o) {f : FileEdits} (file : f ∈ b.files) :
    ∃ entry ∈ entries, f.path = entry.1 := by
  have groups := Partition.buildGroups (entries.flatMap attributedOf) (entries.flatMap unattributedOf)
  have rest := Partition.buildUnattributed (entries.flatMap attributedOf) (entries.flatMap unattributedOf)
  rcases List.mem_append.mp mem with group | last
  · obtain ⟨g, found, rfl⟩ := List.mem_map.mp group
    obtain ⟨id, given⟩ := (groups.files g found).written f file
    obtain ⟨e, member, path, _⟩ := Partition.editsOfMem.mp given
    obtain ⟨entry, mem', _, _, here, _⟩ := attributedMem.mp member
    exact ⟨entry, mem', path.symm.trans here⟩
  · split at last
    · cases last
    · cases List.mem_singleton.mp last
      obtain ⟨id, given⟩ := rest.written f file
      obtain ⟨entry, mem', _, here, _⟩ := unattributedMem.mp given
      exact ⟨entry, mem', here⟩

end KeepBlame.Run
