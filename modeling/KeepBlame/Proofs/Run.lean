import KeepBlame.Proofs.Generation
import KeepBlame.Proofs.Notice
import KeepBlame.Proofs.Worksite

/-! Whole runs. A run that makes edits stops after some number of its batches, whether it succeeds or git fails, or in a
batch with a file that refuses a writer; each formatted file then holds the one-pass application of its edits in what has
been made, and after the last batch of them all. -/
namespace KeepBlame

theorem Path.apartSymm {p q : Path} (apart : p.same q = false) : q.same p = false := by
  simp only [same, beq_eq_false_iff_ne] at apart ⊢
  exact Ne.symm apart

namespace Generator

theorem proposeInside {g : Generator} {p : Path} {pristine : Bytes} {edits : List Edit}
    (ok : g.propose p pristine = .ok edits) : ∀ e ∈ edits, e.span.stop ≤ pristine.length := by
  obtain ⟨proposed, _, rfl, inside⟩ := proposeOk ok
  unfold withBanner
  split
  · exact fun e => Notice.injectInside inside
  · exact inside

theorem filePath (g : Generator) (p : Path) : (g.file p).path = p := by
  unfold file attributed skip
  repeat' split
  all_goals rfl

end Generator

namespace Run
open Edit (contentSize)
open Worksite (Home Site Underway Plan Made Chronicle Logged Stops)

theorem generatedCourse {g : Generator} {files : List Path} {entry : Path × Generated}
    (mem : entry ∈ generated (files.map g.file)) : entry.1 ∈ files ∧ g.Course entry.1 (.formatted entry.2) := by
  obtain ⟨report, found, here⟩ := List.mem_filterMap.mp mem
  obtain ⟨p, listed, rfl⟩ := List.mem_map.mp found
  have course := g.fileCourse p
  unfold generatedOf at here
  split at here <;> cases here
  rename_i outcome
  rw [outcome] at course
  rw [Generator.filePath]
  exact ⟨listed, course⟩

theorem generatedFilter (g : Generator) (files : List Path) :
    (generated (files.map g.file)).map Prod.fst = files.filter fun p => (generatedOf (g.file p)).isSome := by
  induction files with
  | nil => rfl
  | cons p rest ih =>
    simp only [generated, List.map_cons, List.filterMap_cons, List.filter_cons] at ih ⊢
    cases here : generatedOf (g.file p) with
    | none => simpa using ih
    | some entry =>
      have path : entry.1 = p := by
        unfold generatedOf at here
        split at here <;> cases here
        exact g.filePath p
      simp only [List.map_cons, path, ih, Option.isSome_some, if_true]

theorem generatedPaths (g : Generator) (files : List Path) :
    ((generated (files.map g.file)).map Prod.fst).Sublist files := by
  rw [generatedFilter]
  exact List.filter_sublist

theorem generatedIds {g : Generator} {files : List Path} {entry : Path × Generated}
    (mem : entry ∈ generated (files.map g.file)) :
    entry.2.set.ids.Nodup ∧ ∀ ids, entry.2.attribution = .attributed ids → ids.map Prod.fst = entry.2.set.ids := by
  obtain ⟨path, made⟩ := entry
  obtain ⟨_, course⟩ := generatedCourse mem
  cases course with
  | formatted _ _ accepted all =>
    obtain ⟨pending, free⟩ := EditSet.ofEditsPending accepted
    refine ⟨Ordered.sortedNodup (List.pairwise_map.mpr ?_), all⟩
    rw [pending]
    exact (EditSet.arrangeBefore free).imp And.left

section Site
variable {g : Generator} {files : List Path}

theorem generatedSite
    (apart : files.Pairwise fun p q => ∀ place, g.disk.locate p true = .ok place → g.disk.locate q true ≠ .ok place)
    (room : ∀ entry ∈ generated (files.map g.file), ∀ bytes, g.disk.read entry.1 = .ok bytes →
      bytes.length + contentSize entry.2.set.edits < 2 ^ 63) :
    Site g.disk (generated (files.map g.file)) where
  apart := List.pairwise_map.mp (apart.sublist (generatedPaths g files))
  homes := by
    intro entry mem
    have fits := room entry mem
    obtain ⟨path, made⟩ := entry
    obtain ⟨_, course⟩ := generatedCourse mem
    cases course with
    | @formatted pristine edits _ _ loaded proposed accepted _ =>
      have read := (Generator.loadOk loaded).1
      obtain ⟨place, located, file⟩ := Disk.readIff.mp read
      have ready := EditSet.ofEditsReady accepted (Generator.proposeInside proposed) (fits pristine read)
      exact ⟨place, pristine, located, file, ready, edits, accepted⟩

theorem siteSound (site : Site g.disk (generated (files.map g.file))) : Sound (generated (files.map g.file)) where
  apart := by
    refine site.apart.imp_of_mem ?_
    intro a b left right apart
    refine Worksite.otherPath site left right ?_
    rintro rfl
    obtain ⟨place, _, home⟩ := site.homes a left
    exact apart place home.located home.located
  distinct := fun _ mem => (generatedIds mem).1
  whole := fun _ mem => (generatedIds mem).2

end Site

theorem pendingGet {entries : List (Path × Generated)} (apart : entries.Pairwise fun a b => a.1.same b.1 = false)
    {entry : Path × Generated} (mem : entry ∈ entries) : (pendingFiles entries).get? entry.1 = some entry.2.set := by
  induction entries using List.reverseRecOn with
  | nil => cases mem
  | append_singleton rest last ih =>
    have split : pendingFiles (rest ++ [last]) = (pendingFiles rest).put last.1 last.2.set := by
      simp only [pendingFiles, List.foldl_append, List.foldl_cons, List.foldl_nil]
    obtain ⟨early, _, cross⟩ := List.pairwise_append.mp apart
    rw [split, PendingFiles.getPut]
    rcases List.mem_append.mp mem with old | new
    · rw [Path.apartSymm (cross entry old last List.mem_cons_self)]
      exact ih early old
    · cases List.mem_singleton.mp new
      simp [Path.same]

theorem startUnderway {disk : Disk} {entries : List (Path × Generated)} (sound : Sound entries) {w : Worksite}
    (here : w.disk = disk) (pending : w.pending = pendingFiles entries) :
    Underway disk entries (scheduled · []) w := by
  refine ⟨here ▸ Disk.sameShapeRefl _, ?_⟩
  intro entry mem place pristine home
  rw [here, pending]
  exact ⟨pristine, entry.2.set, home.file, pendingGet sound.apart mem, EditSet.reachedStart rfl⟩

theorem batchesPlan {entries : List (Path × Generated)} (sound : Sound entries) (o : CommitSettings) :
    Plan entries ((partition entries).batches o) where
  paths := fun _ mem _ => batchPaths mem
  known := fun _ mem id => (scheduledMem sound mem o id).mp
  fresh := fun entry _ => scheduledNodup sound entry.1 o

inductive Ended (disk : Disk) (batches : List Batch) : Nat → List Batch → Outcome ApplyError RunSummary → Prop where
  | panicked (panic : Panic) : Ended disk batches 0 [] (.panic panic)
  | stopped {k : Nat} {part : List Batch} {outcome : Outcome ApplyError RunSummary}
      (stops : Stops disk batches k part outcome) : Ended disk batches k part outcome

theorem endedWhole {disk : Disk} {batches part : List Batch} {k : Nat} {outcome : Outcome ApplyError RunSummary}
    (free : ∀ p e, ¬ disk.Refuses p e) (ended : Ended disk batches k part outcome) : part = [] := by
  cases ended with
  | panicked => rfl
  | stopped stops =>
    cases stops with
    | done | refused => rfl
    | closed _ _ refuses => exact absurd refuses (free _ _)

def journal (r : Option Git.Repository) : List Git.Asked := (r.map Git.Repository.journal).getD []

def committer (o : RunOptions) (repository : Option Git.Repository) : Option Git.Repository :=
  if o.mode = .commit then repository else none

theorem committerSome {o : RunOptions} {repository : Option Git.Repository} {r : Git.Repository}
    (held : committer o repository = some r) : repository = some r := by
  unfold committer at held
  split at held
  · exact held
  · cases held

def worksite (disk : Disk) (repository : Option Git.Repository) (o : RunOptions) (entries : List (Path × Generated)) :
    Worksite where
  disk := disk
  repository := committer o repository
  pending := pendingFiles entries

section Finish
variable {disk : Disk} {repository : Option Git.Repository} {baseline : Option CommitId} {o : RunOptions}
  {reports : List FileReport} {warnings : List Log.Record}

theorem finishPanicked {panic : Panic} (found : reports.findSome? FileReport.panic? = some panic) :
    finish disk repository baseline o reports warnings = ⟨.panic panic, disk, repository, reports, warnings⟩ := by
  simp only [finish, found]

theorem finishApplied (ordered : reports.findSome? FileReport.panic? = none) (mode : o.mode ≠ .dryRun)
    {answer : Outcome ApplyError ApplySummary × Worksite}
    (went : (worksite disk repository o (generated reports)).apply (partition (generated reports)) o.commit = answer) :
    finish disk repository baseline o reports warnings =
      ⟨answer.1.map fun applied => summary reports baseline (some applied), answer.2.disk,
        answer.2.repository <|> repository, reports, warnings ++ answer.2.warnings⟩ := by
  subst went
  unfold finish worksite committer
  simp only [ordered]

theorem journalLogged {entries : List (Path × Generated)} {batches : List Batch} {after : Option Git.Repository}
    (logged : Logged disk entries [] batches (committer o repository) after) :
    ∃ asked, journal (after <|> repository) = journal repository ++ asked ∧
      Chronicle disk entries [] (if (committer o repository).isSome then batches else []) asked := by
  cases held : committer o repository with
  | none =>
    rw [held] at logged
    cases logged
    exact ⟨[], (List.append_nil _).symm, .nil []⟩
  | some r =>
    rw [held] at logged
    obtain ⟨asked, next, rfl, grown, chronicle⟩ := logged
    rw [committerSome held]
    exact ⟨asked, grown, chronicle⟩

theorem finishStops (mode : o.mode ≠ .dryRun) (site : Site disk (generated reports))
    (sound : Sound (generated reports)) :
    ∃ k ≤ ((partition (generated reports)).batches o.commit).length, ∃ part,
      Ended disk ((partition (generated reports)).batches o.commit) k part
        (finish disk repository baseline o reports warnings).outcome ∧
      Made disk (generated reports) (((partition (generated reports)).batches o.commit).take k ++ part)
        (finish disk repository baseline o reports warnings).disk ∧
      ∃ asked, journal (finish disk repository baseline o reports warnings).repository = journal repository ++ asked ∧
        Chronicle disk (generated reports) []
          (if (committer o repository).isSome then ((partition (generated reports)).batches o.commit).take k else [])
          asked := by
  have start : Underway disk (generated reports) (scheduled · []) (worksite disk repository o (generated reports)) :=
    startUnderway sound rfl rfl
  cases ordered : reports.findSome? FileReport.panic? with
  | some panic =>
    rw [finishPanicked ordered]
    refine ⟨0, Nat.zero_le _, [], .panicked panic, Worksite.underwayMade site start, [], ?_, ?_⟩
    · rw [List.append_nil]
    · simpa using .nil []
  | none =>
    have plan : Plan (generated reports) ([] ++ (partition (generated reports)).batches o.commit) :=
      batchesPlan sound o.commit
    obtain ⟨k, part, stopped⟩ := Worksite.applyBatchesStopped site plan start
    rw [finishApplied ordered mode rfl]
    exact ⟨k, stopped.bound, part, .stopped (Worksite.stopsMap _ (Worksite.stopsMap _ stopped.stops)),
      Worksite.underwayMade site stopped.state, journalLogged stopped.journal⟩

end Finish

def generator (disk : Disk) (repository : Option Git.Repository) (formatter : Formatter) (o : RunOptions) :
    Generator where
  disk := disk
  repository := repository
  baseline := (baseline repository).1
  formatter := formatter
  options := o.generate

theorem runReports (disk : Disk) (repository : Option Git.Repository) (formatter : Formatter) (files : List Path)
    (o : RunOptions) :
    (run disk repository formatter files o).reports = files.map (generator disk repository formatter o).file := by
  unfold run finish
  dsimp only
  split
  · rfl
  · split <;> rfl

theorem madeAll {disk now : Disk} {entries : List (Path × Generated)} {batches : List Batch} (site : Site disk entries)
    (made : Made disk entries batches now)
    (all : ∀ entry ∈ entries, ∀ id ∈ entry.2.set.ids, id ∈ scheduled entry.1 batches) :
    ∀ entry ∈ entries, ∃ pristine, disk.read entry.1 = .ok pristine ∧
      now.read entry.1 = .ok (Edit.onePass pristine entry.2.set.edits) := by
  intro entry mem
  obtain ⟨pristine, read, bytes⟩ := made entry mem
  obtain ⟨_, _, home⟩ := site.homes entry mem
  have every : entry.2.set.edits.filter (fun e => e.span ∈ scheduled entry.1 batches) = entry.2.set.edits := by
    refine List.filter_eq_self.mpr fun e inside => ?_
    obtain ⟨p, found, rfl⟩ := List.mem_map.mp inside
    rw [← home.ready.named p found]
    simpa using all entry mem p.id (List.mem_map_of_mem found)
  rw [every] at bytes
  exact ⟨pristine, read, bytes⟩

/-- Lengths are bounded by memory, and a file and the contents of its edits are there together: so much is `room`. -/
theorem everyStopIsOnePass {disk : Disk} {repository : Option Git.Repository} {formatter : Formatter}
    {files : List Path} {o : RunOptions} (mode : o.mode ≠ .dryRun)
    (apart : files.Pairwise fun p q => ∀ place, disk.locate p true = .ok place → disk.locate q true ≠ .ok place)
    (room : ∀ entry ∈ generated (run disk repository formatter files o).reports, ∀ bytes,
      disk.read entry.1 = .ok bytes → bytes.length + contentSize entry.2.set.edits < 2 ^ 63) :
    let result := run disk repository formatter files o
    let entries := generated result.reports
    let batches := (partition entries).batches o.commit
    ((partition entries).groups.Pairwise fun a b => a.author < b.author) ∧
    (∀ entry ∈ entries, (scheduled entry.1 batches).Nodup ∧ (scheduled entry.1 batches).Perm entry.2.set.ids) ∧
    (∃ k ≤ batches.length, ∃ part, Ended disk batches k part result.outcome ∧
      Made disk entries (batches.take k ++ part) result.disk ∧
      ∃ asked, journal result.repository = journal repository ++ asked ∧
        Chronicle disk entries [] (if (committer o repository).isSome then batches.take k else []) asked) ∧
    ∀ s, result.outcome = .ok s → ∀ entry ∈ entries, ∃ pristine, disk.read entry.1 = .ok pristine ∧
      result.disk.read entry.1 = .ok (Edit.onePass pristine entry.2.set.edits) := by
  intro result entries batches
  have reports := runReports disk repository formatter files o
  have same : entries = _ := congrArg generated reports
  rw [reports] at room
  clear_value entries
  subst same
  have site := generatedSite (g := generator disk repository formatter o) apart room
  have sound := siteSound site
  obtain ⟨k, bound, part, ended, made, asked⟩ := @finishStops disk repository _ o _ _ mode site sound
  refine ⟨(Partition.buildGroups _ _).sorted, ?_, ⟨k, bound, part, ended, made, asked⟩, ?_⟩
  · intro entry mem
    have distinct := scheduledNodup sound entry.1 o.commit
    exact ⟨distinct, (List.perm_ext_iff_of_nodup distinct (sound.distinct entry mem)).mpr (scheduledMem sound mem o.commit)⟩
  · intro s success
    change Ended disk batches k part result.outcome at ended
    rw [success] at ended
    obtain ⟨⟨_⟩⟩ | ⟨⟨_⟩⟩ := ended
    rw [List.take_length, List.append_nil] at made
    exact madeAll site made fun entry mem id => (scheduledMem sound mem o.commit id).mpr

-- A file of two lines by two authors, an edit in each, and a git that refuses the first commit.
def sharedBytes : Bytes := [97, 98, 10, 99, 100, 10]

def sharedDisk : Disk := { nodes := [(["r"], .directory), (["r", "f"], .file sharedBytes)] }

def sharedBlame : String :=
  "aaaaaaaaaaaaaaaaaaaaaaaaaaaaaaaaaaaaaaaa 1 1 1\nauthor Zed\nauthor-mail <z>\n\tab\n" ++
  "bbbbbbbbbbbbbbbbbbbbbbbbbbbbbbbbbbbbbbbb 2 2 1\nauthor Amy\nauthor-mail <a>\n\tcd\n"

def sharedRepository : Git.Repository where
  workTree := ⟨"/r"⟩
  head := some (Git.Repository.defaultHead 0)
  script := {
    blame := [("f", { out := Utf8.ofText sharedBlame })]
    commit := [{ reply := { code := 1 } }] }

def sharedFormatter : Formatter := ⟨fun _ => .ok [⟨⟨1, 0⟩, [120]⟩, ⟨⟨4, 0⟩, [121]⟩]⟩

def sharedOptions : RunOptions where
  mode := .commit
  generate := { maxBytes := 100 }
  commit := {}

def sharedSet : EditSet := ⟨[⟨⟨1, 0⟩, ⟨⟨1, 0⟩, [120]⟩⟩, ⟨⟨4, 0⟩, ⟨⟨4, 0⟩, [121]⟩⟩]⟩

def zed : Attribution := ⟨⟨List.replicate 20 0xaa, rfl⟩, ⟨"Zed", "z"⟩⟩

def amy : Attribution := ⟨⟨List.replicate 20 0xbb, rfl⟩, ⟨"Amy", "a"⟩⟩

theorem sharedRead : sharedDisk.read ⟨"/r/f"⟩ = .ok sharedBytes := by decide +kernel

theorem sharedEntries : generated (run sharedDisk (some sharedRepository) sharedFormatter [⟨"/r/f"⟩] sharedOptions).reports =
    [(⟨"/r/f"⟩, ⟨sharedSet, .attributed [(⟨1, 0⟩, zed), (⟨4, 0⟩, amy)]⟩)] := by
  decide +kernel

theorem sharedFileStops :
    let result := run sharedDisk (some sharedRepository) sharedFormatter [⟨"/r/f"⟩] sharedOptions
    let batches := (partition (generated result.reports)).batches sharedOptions.commit
    batches.length = 2 ∧ ∃ k ≤ 2, Ended sharedDisk batches k [] result.outcome ∧
      Made sharedDisk (generated result.reports) (batches.take k) result.disk := by
  intro result batches
  have two : batches.length = 2 := by
    change ((partition (generated result.reports)).batches _).length = 2
    rw [sharedEntries]
    decide +kernel
  have room : ∀ entry ∈ generated result.reports, ∀ bytes, sharedDisk.read entry.1 = .ok bytes →
      bytes.length + contentSize entry.2.set.edits < 2 ^ 63 := by
    rw [sharedEntries]
    intro entry mem bytes read
    cases List.mem_singleton.mp mem
    cases sharedRead.symm.trans read
    decide
  have stops := everyStopIsOnePass (by decide) (List.pairwise_singleton _ _) room
  obtain ⟨_, _, ⟨k, bound, part, ended, made, _⟩, _⟩ := stops
  cases endedWhole (by rintro p e ⟨_, _, ⟨⟩⟩) ended
  rw [List.append_nil] at made
  exact ⟨two, k, two ▸ bound, ended, made⟩

end Run
end KeepBlame
