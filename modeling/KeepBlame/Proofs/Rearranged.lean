import KeepBlame.Basics
import KeepBlame.Proofs.Ownership
import KeepBlame.Proofs.SetAside

/-! The order of the files does not matter. Where no commit is blamed on two authors, a rearranged list of files gives the
same partition; the edits are then looked up file by file, so that the same is written, staged and committed. -/
namespace KeepBlame

namespace FileEdits

theorem groupedUnique {edits : List (Path × Span)} {files others : List FileEdits}
    (spelled : ∀ a ∈ edits, ∀ b ∈ edits, a.1.components = b.1.components → a.1 = b.1) (left : Grouped edits files)
    (right : Grouped edits others) : files = others := by
  have inside : ∀ {xs ys : List FileEdits}, Grouped edits xs → Grouped edits ys → ∀ f ∈ xs, f ∈ ys := by
    intro xs ys here there f mem
    -- The components of a path lead to its entry in the other list, which shows a path that was given too.
    obtain ⟨id, given⟩ := here.written f mem
    obtain ⟨g, held, same⟩ := there.found f.path id given
    obtain ⟨other, given'⟩ := there.written g held
    have path : g.path = f.path := spelled _ given' _ given same
    have ids : g.ids = f.ids := by
      refine Ordered.eqOfSorted (there.ascending g held) (here.ascending f mem) fun i => ?_
      rw [there.ids g held, here.ids f mem, path]
    cases f
    cases g
    cases path
    cases ids
    exact held
  exact Ordered.eqOfMem left.sorted right.sorted fun f => ⟨inside left right f, inside right left f⟩

end FileEdits

namespace Partition
open FileEdits (Grouped)

def Consistent (attributed : List AttributedEdit) : Prop :=
  ∀ a ∈ attributed, ∀ b ∈ attributed, a.attribution.commit = b.attribution.commit →
    a.attribution.author = b.attribution.author

theorem ownerIff {attributed : List AttributedEdit} (consistent : Consistent attributed) {commit : CommitId}
    {author : Author} : owner? attributed commit = some author ↔
      ∃ e ∈ attributed, e.attribution.commit = commit ∧ e.attribution.author = author := by
  constructor
  · intro owned
    obtain ⟨e, first, named⟩ := Option.map_eq_some_iff.mp owned
    exact ⟨e, List.mem_of_find?_eq_some first, by simpa using List.find?_some first, named⟩
  · rintro ⟨e, mem, rfl, rfl⟩
    obtain ⟨author, owned⟩ := ownerSome mem
    obtain ⟨first, found, rfl⟩ := Option.map_eq_some_iff.mp owned
    have commit : first.attribution.commit = e.attribution.commit := by simpa using List.find?_some found
    rw [owned, consistent first (List.mem_of_find?_eq_some found) e mem commit]

section Same
variable {attributed others : List AttributedEdit} {unattributed rest : List (Path × Span)}
  (same : ∀ e, e ∈ attributed ↔ e ∈ others) (consistent : Consistent attributed)
include same consistent

theorem ownerSame : owner? attributed = owner? others := by
  have agree : Consistent others := fun a left b right =>
    consistent a ((same a).mpr left) b ((same b).mpr right)
  funext commit
  refine Option.ext fun author => ?_
  simp only [ownerIff consistent, ownerIff agree, same]

variable (spelled : ∀ a ∈ attributed, ∀ b ∈ attributed, a.path.components = b.path.components → a.path = b.path)
include spelled

theorem groupSame {g h : AuthorGroup} (left : g ∈ (build attributed unattributed).groups)
    (right : h ∈ (build others rest).groups) (author : g.author = h.author) : g = h := by
  have owners := ownerSame same consistent
  have commits : g.commits = h.commits := by
    refine Ordered.eqOfSorted ((buildGroups _ _).ascending g left) ((buildGroups _ _).ascending h right) fun commit => ?_
    rw [groupCommits left, groupCommits right, owners, author]
  have files : g.files = h.files := by
    have given : ∀ path id, (path, id) ∈ ownedEdits others h.author ↔ (path, id) ∈ ownedEdits attributed g.author := by
      intro path id
      rw [ownedMem, ownedMem, owners, author]
      simp only [same]
    refine FileEdits.groupedUnique ?_ (groupFiles left) (FileEdits.groupedCongr given (groupFiles right))
    intro a first b second
    obtain ⟨e, mem, here, _⟩ := ownedMem.mp first
    obtain ⟨f, mem', there, _⟩ := ownedMem.mp second
    rw [← here, ← there]
    exact spelled e mem f mem'
  cases g
  cases h
  simp_all only

theorem groupsSame : (build attributed unattributed).groups = (build others rest).groups := by
  have owners := ownerSame same consistent
  refine Ordered.eqOfMem (buildGroups _ _).sorted (buildGroups _ _).sorted fun g => ⟨fun mem => ?_, fun mem => ?_⟩
  · obtain ⟨commit, owned⟩ := (groupAuthors g.author).mp ⟨g, mem, rfl⟩
    rw [owners] at owned
    obtain ⟨h, held, author⟩ := (@groupAuthors others rest g.author).mpr ⟨commit, owned⟩
    rw [groupSame same consistent spelled mem held author.symm]
    exact held
  · obtain ⟨commit, owned⟩ := (groupAuthors g.author).mp ⟨g, mem, rfl⟩
    rw [← owners] at owned
    obtain ⟨h, held, author⟩ := (@groupAuthors attributed unattributed g.author).mpr ⟨commit, owned⟩
    rw [← groupSame same consistent spelled held mem author]
    exact held

end Same
end Partition

namespace Worksite

inductive Mirrors (w : Worksite) : Worksite → Prop where
  | mk {pending : PendingFiles} (found : ∀ p, pending.get? p = w.pending.get? p) : Mirrors w { w with pending }

inductive Paired {α : Type} : α × Worksite → α × Worksite → Prop where
  | mk (answer : α) {w v : Worksite} (mirrors : Mirrors w v) : Paired (answer, w) (answer, v)

section Mirrors
variable {w v : Worksite} (mirrors : Mirrors w v)
include mirrors

theorem applyFilePaired (f : FileEdits) : Paired (w.applyFile f) (v.applyFile f) := by
  obtain ⟨found⟩ := mirrors
  unfold applyFile
  simp only [found]
  cases w.pending.get? f.path with
  | none => exact ⟨_, ⟨found⟩⟩
  | some set =>
    cases w.disk.openFile f.path with
    | error e => exact ⟨_, ⟨found⟩⟩
    | ok file =>
      refine ⟨_, ⟨fun p => ?_⟩⟩
      simp only [edit, PendingFiles.getPut, found]

theorem applyFilesPaired (files : List FileEdits) : Paired (w.applyFiles files) (v.applyFiles files) := by
  induction files generalizing w v with
  | nil => exact ⟨_, mirrors⟩
  | cons f rest ih =>
    have pair := applyFilePaired mirrors f
    simp only [applyFiles]
    generalize w.applyFile f = left at pair ⊢
    generalize v.applyFile f = right at pair ⊢
    obtain ⟨cause, after⟩ := pair
    cases cause with
    | ok => exact ih after
    | error cause => exact ⟨_, after⟩
    | panic panic => exact ⟨_, after⟩

theorem commitPaired (b : Batch) : Paired (w.commit b) (v.commit b) := by
  obtain ⟨found⟩ := mirrors
  have kept : ∀ repository warnings, Mirrors { w with repository, warnings } { w with repository, warnings, pending := _ } :=
    fun _ _ => ⟨found⟩
  -- Git is asked about the disk alone, so that both worksites get the same answers.
  unfold commit commitTo
  dsimp only
  repeat' split
  all_goals exact ⟨_, kept _ _⟩

theorem applyBatchPaired (b : Batch) : Paired (w.applyBatch b) (v.applyBatch b) := by
  have pair := applyFilesPaired mirrors b.files
  unfold applyBatch
  generalize w.applyFiles b.files = left at pair ⊢
  generalize v.applyFiles b.files = right at pair ⊢
  obtain ⟨cause, after⟩ := pair
  cases cause with
  | error cause => exact ⟨_, after⟩
  | panic panic => exact ⟨_, after⟩
  | ok =>
    have pair := commitPaired after b
    dsimp only
    generalize Worksite.commit _ b = left at pair ⊢
    generalize Worksite.commit _ b = right at pair ⊢
    obtain ⟨id, after⟩ := pair
    cases id <;> exact ⟨_, after⟩

theorem applyBatchesPaired (batches : List Batch) : Paired (w.applyBatches batches) (v.applyBatches batches) := by
  induction batches generalizing w v with
  | nil => exact ⟨_, mirrors⟩
  | cons b rest ih =>
    have pair := applyBatchPaired mirrors b
    simp only [applyBatches]
    generalize w.applyBatch b = left at pair ⊢
    generalize v.applyBatch b = right at pair ⊢
    obtain ⟨outcome, after⟩ := pair
    cases outcome with
    | error cause =>
      obtain ⟨found⟩ := after
      exact ⟨_, ⟨found⟩⟩
    | panic panic => exact ⟨_, after⟩
    | ok record =>
      have pair := ih after
      dsimp only
      generalize Worksite.applyBatches _ rest = left at pair ⊢
      generalize Worksite.applyBatches _ rest = right at pair ⊢
      obtain ⟨records, after⟩ := pair
      exact ⟨_, after⟩

theorem applyPaired (p : Partition) (o : CommitSettings) : Paired (w.apply p o) (v.apply p o) := by
  have pair := applyBatchesPaired mirrors (p.batches o)
  unfold apply
  generalize w.applyBatches (p.batches o) = left at pair ⊢
  generalize v.applyBatches (p.batches o) = right at pair ⊢
  obtain ⟨outcome, ⟨found⟩⟩ := pair
  exact ⟨_, ⟨found⟩⟩

end Mirrors
end Worksite

namespace LineMap

theorem lineMember {map : LineMap} {n : Nat} {a : Attribution} (here : map.line? n = some a) : a ∈ map.lines := by
  unfold line? at here
  cases known : map.lines[n - 1]? with
  | some b =>
    rw [known] at here
    cases here
    exact List.mem_of_getElem? known
  | none =>
    rw [known] at here
    exact List.mem_of_head? here

theorem attributeMember {map : LineMap} {content : Bytes} {span : Span} {r : Resolution}
    (resolved : map.attribute? content span = some r) : r.attribution ∈ map.lines := by
  unfold attribute? at resolved
  dsimp only at resolved
  split at resolved
  · cases resolved
  · rename_i entries all
    obtain ⟨attribution, last, rfl⟩ := Option.map_eq_some_iff.mp resolved
    have held : attribution ∈ entries := List.mem_eraseDups.mp (List.mem_of_getLast? last)
    obtain ⟨n, _, here⟩ := mapMember all held
    exact lineMember here

end LineMap

namespace Generator

theorem attributedLines {g : Generator} {p : Path} {made : Generated} {ids : List (Span × Attribution)}
    (formatted : (g.file p).outcome = .formatted made) (owned : made.attribution = .attributed ids)
    {id : Span} {a : Attribution} (mem : (id, a) ∈ ids) : ∃ map, g.blame p = .lines map ∧ a ∈ map.lines := by
  have attributed : ∃ pristine set, (g.attributed p pristine set).outcome = .formatted made := by
    unfold file skip at formatted
    repeat' split at formatted
    all_goals first | exact ⟨_, _, formatted⟩ | cases formatted
  obtain ⟨pristine, set, formatted⟩ := attributed
  unfold Generator.attributed at formatted
  dsimp only at formatted
  split at formatted
  · cases formatted
  · cases formatted
    cases owned
  · rename_i map lines
    refine ⟨map, lines, ?_⟩
    split at formatted
    · cases formatted
      cases owned
    · rename_i resolved all
      cases formatted
      cases owned
      obtain ⟨⟨name, r⟩, found, same⟩ := List.mem_map.mp mem
      cases same
      obtain ⟨pending, _, here⟩ := mapMember all found
      simp only [bind, Option.bind_eq_some_iff] at here
      obtain ⟨resolution, found, pair⟩ := here
      cases pair
      exact LineMap.attributeMember found

end Generator

namespace Run
open Worksite (Mirrors Paired)

theorem generatedSound {g : Generator} {files : List Path} (distinct : files.Pairwise fun p q => p.same q = false) :
    Sound (generated (files.map g.file)) where
  apart := List.pairwise_map.mp (distinct.sublist (generatedPaths g files))
  distinct := fun _ mem => (generatedIds mem).1
  whole := fun _ mem => (generatedIds mem).2

section Entries
variable {entries others : List (Path × Generated)} (sound : Sound entries)
include sound

theorem pendingIff {p : Path} {set : EditSet} : (pendingFiles entries).get? p = some set ↔
    ∃ entry ∈ entries, entry.1.same p = true ∧ entry.2.set = set := by
  have here : ∀ entry ∈ entries, entry.1.same p = true → (pendingFiles entries).get? p = some entry.2.set := by
    intro entry mem same
    simp only [Path.same, beq_iff_eq] at same
    rw [← pendingGet sound.apart mem]
    simp only [PendingFiles.get?, Path.same, same]
  constructor
  · intro held
    obtain ⟨f, first, _⟩ := Option.map_eq_some_iff.mp held
    have listed : f.1 ∈ entries.map Prod.fst := pendingPaths sound ▸ List.mem_map_of_mem (List.mem_of_find?_eq_some first)
    obtain ⟨entry, mem, path⟩ := List.mem_map.mp listed
    have same : entry.1.same p = true := by simpa [path] using List.find?_some first
    exact ⟨entry, mem, same, Option.some.inj ((here entry mem same).symm.trans held)⟩
  · rintro ⟨entry, mem, same, rfl⟩
    exact here entry mem same

theorem pendingSame (other : Sound others) (perm : others.Perm entries) (p : Path) :
    (pendingFiles others).get? p = (pendingFiles entries).get? p := by
  refine Option.ext fun set => ?_
  simp only [pendingIff sound, pendingIff other, perm.mem_iff]

theorem partitionSame (perm : others.Perm entries) (consistent : Partition.Consistent (entries.flatMap attributedOf)) :
    partition others = partition entries := by
  have attributed := perm.flatMap_right attributedOf
  have unattributed := perm.flatMap_right unattributedOf
  have groups : (partition entries).groups = (partition others).groups := by
    refine Partition.groupsSame (fun e => attributed.mem_iff.symm) consistent ?_
    intro a left b right same
    obtain ⟨entry, mem, _, _, path, _⟩ := attributedMem.mp left
    obtain ⟨other, mem', _, _, path', _⟩ := attributedMem.mp right
    rw [path, path'] at same
    rw [path, path', entryUnique sound mem mem' same]
  have rest : (partition entries).unattributed = (partition others).unattributed := by
    refine FileEdits.groupedUnique ?_ (Partition.buildUnattributed _ _)
      (FileEdits.groupedCongr (fun path id => unattributed.mem_iff) (Partition.buildUnattributed _ _))
    rintro ⟨a, i⟩ left ⟨b, j⟩ right same
    obtain ⟨entry, mem, _, rfl, _⟩ := unattributedMem.mp left
    obtain ⟨other, mem', _, rfl, _⟩ := unattributedMem.mp right
    rw [entryUnique sound mem mem' same]
  cases here : partition entries
  cases there : partition others
  simp_all only

end Entries

def OneAuthor (g : Generator) (files : List Path) : Prop :=
  ∀ p ∈ files, ∀ q ∈ files, ∀ m n, g.blame p = .lines m → g.blame q = .lines n →
    ∀ a ∈ m.lines, ∀ b ∈ n.lines, a.commit = b.commit → a.author = b.author

theorem generatedConsistent {g : Generator} {files : List Path} (single : OneAuthor g files) :
    Partition.Consistent ((generated (files.map g.file)).flatMap attributedOf) := by
  intro a left b right same
  obtain ⟨entry, mem, ids, owned, _, pair⟩ := attributedMem.mp left
  obtain ⟨other, mem', ids', owned', _, pair'⟩ := attributedMem.mp right
  obtain ⟨m, lines, inside⟩ := Generator.attributedLines (generatedOutcome mem) owned pair
  obtain ⟨n, lines', inside'⟩ := Generator.attributedLines (generatedOutcome mem') owned' pair'
  exact single _ (generatedCourse mem).1 _ (generatedCourse mem').1 m n lines lines' _ inside _ inside' same

inductive Alike (files others : List Path) : Outcome ApplyError RunSummary → Outcome ApplyError RunSummary → Prop where
  | ok {s t : RunSummary} (keep : Path → Bool) (listed : s.formatted = files.filter keep)
      (rearranged : t.formatted = others.filter keep) (count : t.formatted.length = s.formatted.length)
      (rest : t = { s with formatted := t.formatted }) : Alike files others (.ok s) (.ok t)
  | failed (e : ApplyError) : Alike files others (.error e) (.error e)
  | panicked (panic : Panic) : Alike files others (.panic panic) (.panic panic)

theorem panickedIs {g : Generator} {files : List Path} {panic : Panic}
    (found : (files.map g.file).findSome? FileReport.panic? = some panic) : panic = .hunksOutOfOrder := by
  obtain ⟨report, mem, panicked⟩ := List.exists_of_findSome?_eq_some found
  obtain ⟨p, _, rfl⟩ := List.mem_map.mp mem
  exact Generator.filePanics panicked

section Order
variable {g : Generator} {files others : List Path} (perm : others.Perm files)
include perm

theorem summaryAlike (baseline : Option CommitId) (applied : Option ApplySummary) :
    Alike files others (.ok (summary (files.map g.file) baseline applied))
      (.ok (summary (others.map g.file) baseline applied)) := by
  have reports := perm.map g.file
  refine .ok _ (generatedFilter g files) (generatedFilter g others) ?_ ?_
  · exact ((reports.filterMap generatedOf).map Prod.fst).length_eq
  · simp only [summary, reports.length_eq, reports.countP_eq]

theorem panickedNone (ordered : (files.map g.file).findSome? FileReport.panic? = none) :
    (others.map g.file).findSome? FileReport.panic? = none := by
  rw [List.findSome?_eq_none_iff] at ordered ⊢
  exact fun report mem => ordered report ((perm.map g.file).mem_iff.mp mem)

variable (distinct : files.Pairwise fun p q => p.same q = false) (single : OneAuthor g files)
include distinct single

theorem partitionRearranged :
    partition (generated (others.map g.file)) = partition (generated (files.map g.file)) :=
  partitionSame (generatedSound distinct) ((perm.map g.file).filterMap generatedOf) (generatedConsistent single)

theorem applyRearranged (disk : Disk) (repository : Option Git.Repository) (o : RunOptions) :
    Paired ((worksite disk repository o (generated (files.map g.file))).apply
        (partition (generated (files.map g.file))) o.commit)
      ((worksite disk repository o (generated (others.map g.file))).apply
        (partition (generated (others.map g.file))) o.commit) := by
  have distinct' : others.Pairwise fun p q => p.same q = false := (perm.pairwise_iff Path.apartSymm).mpr distinct
  have pending := pendingSame (generatedSound (g := g) distinct) (generatedSound distinct')
    ((perm.map g.file).filterMap generatedOf)
  rw [partitionRearranged perm distinct single]
  exact Worksite.applyPaired ⟨pending⟩ _ o.commit

end Order

theorem orderOfFilesFree {disk : Disk} {repository : Option Git.Repository} {formatter : Formatter}
    {files others : List Path} {o : RunOptions} (perm : others.Perm files)
    (distinct : files.Pairwise fun p q => p.same q = false)
    (single : OneAuthor (generator disk repository formatter o) files) :
    let first := run disk repository formatter files o
    let second := run disk repository formatter others o
    second.disk = first.disk ∧ second.repository = first.repository ∧
      partition (generated second.reports) = partition (generated first.reports) ∧
      Alike files others first.outcome second.outcome := by
  intro first second
  have left : Finished _ _ _ _ _ first := runFinished disk repository formatter files o
  have right : Finished _ _ _ _ _ second := runFinished disk repository formatter others o
  have same := partitionRearranged perm distinct single
  have pair := applyRearranged perm distinct single disk repository o
  clear_value first second
  -- A blame that makes no sense is found in both runs or in neither; the mode is the same.
  cases left with
  | panicked found =>
    cases right with
    | panicked found' =>
      cases panickedIs found
      cases panickedIs found'
      exact ⟨rfl, rfl, same, .panicked _⟩
    | dry ordered mode | applied ordered mode went => simp [panickedNone perm.symm ordered] at found
  | dry ordered mode =>
    cases right with
    | panicked found => simp [panickedNone perm ordered] at found
    | dry ordered' mode' => exact ⟨rfl, rfl, same, summaryAlike perm _ none⟩
    | applied ordered' writes went => exact absurd mode writes
  | applied ordered writes went =>
    cases right with
    | panicked found => simp [panickedNone perm ordered] at found
    | dry ordered' mode => exact absurd mode writes
    | applied ordered' writes' went' =>
      rw [went, went'] at pair
      obtain ⟨outcome, ⟨_⟩⟩ := pair
      refine ⟨rfl, rfl, same, ?_⟩
      cases outcome with
      | error e => exact .failed e
      | panic panic => exact .panicked panic
      | ok applied => exact summaryAlike perm _ (some applied)

-- Two files of the same two lines, so that both authors have edits in both of them.
def twinDisk : Disk where
  nodes := [(["r"], .directory), (["r", "f"], .file sharedBytes), (["r", "g"], .file sharedBytes)]

def twinRepository : Git.Repository where
  workTree := ⟨"/r"⟩
  head := some (Git.Repository.defaultHead 0)
  script := { blame := [("f", { out := Utf8.ofText sharedBlame }), ("g", { out := Utf8.ofText sharedBlame })] }

def twinGenerator : Generator := generator twinDisk (some twinRepository) sharedFormatter sharedOptions

theorem twinLines : ∀ p ∈ [⟨"/r/f"⟩, ⟨"/r/g"⟩], twinGenerator.blame p = .lines ⟨[zed, amy]⟩ := by
  decide +kernel

theorem twinsEitherWay :
    let first := run twinDisk (some twinRepository) sharedFormatter [⟨"/r/f"⟩, ⟨"/r/g"⟩] sharedOptions
    let second := run twinDisk (some twinRepository) sharedFormatter [⟨"/r/g"⟩, ⟨"/r/f"⟩] sharedOptions
    second.disk = first.disk ∧ journal second.repository = journal first.repository ∧
      Alike [⟨"/r/f"⟩, ⟨"/r/g"⟩] [⟨"/r/g"⟩, ⟨"/r/f"⟩] first.outcome second.outcome := by
  have single : OneAuthor twinGenerator [⟨"/r/f"⟩, ⟨"/r/g"⟩] := by
    intro p left q right m n lines lines'
    cases (twinLines p left).symm.trans lines
    cases (twinLines q right).symm.trans lines'
    decide
  have apart : Path.same ⟨"/r/f"⟩ ⟨"/r/g"⟩ = false := by decide +kernel
  obtain ⟨disk, repository, _, alike⟩ := @orderOfFilesFree twinDisk (some twinRepository) sharedFormatter
    [⟨"/r/f"⟩, ⟨"/r/g"⟩] [⟨"/r/g"⟩, ⟨"/r/f"⟩] sharedOptions (.swap _ _ []) (by simp [apart]) single
  exact ⟨disk, congrArg journal repository, alike⟩

end Run

end KeepBlame
