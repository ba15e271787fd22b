import KeepBlame.Proofs.FileSteps
import KeepBlame.Proofs.Run

/-! Each generated edit is made once. What is generated for a file fits it; then nothing can stop the run but git and a
file that refuses a writer, and a run that is not stopped has made every generated edit, each once, and leaves none
pending. -/
namespace KeepBlame

structure EditSet.Fitting (pristine : Bytes) (set : EditSet) : Prop where
  full : set.pending ≠ []
  named : ∀ p ∈ set.pending, p.id = p.edit.span
  real : ∀ e ∈ set.edits, e.isNoop = false
  inside : ∀ e ∈ set.edits, e.span.start + e.span.size ≤ pristine.length
  apart : set.edits.Pairwise fun a b => a.span < b.span ∧ a.span.start + a.span.size ≤ b.span.start

namespace Generator

theorem proposeReal {g : Generator} {p : Path} {pristine : Bytes} {edits : List Edit}
    (ok : g.propose p pristine = .ok edits) : ∀ e ∈ edits, e.isNoop = false := by
  obtain ⟨proposed, _, rfl, _⟩ := proposeOk ok
  unfold withBanner
  split
  · exact fun e => Notice.injectReal fun e => trimAllReal
  · exact fun e => trimAllReal

theorem formattedFull {g : Generator} {p : Path} {made : Generated} (formatted : (g.file p).outcome = .formatted made) :
    made.set.pending ≠ [] := by
  have course := g.fileCourse p
  rw [formatted] at course
  cases course with
  | @formatted pristine edits set _ loaded proposed accepted _ =>
    cases edits with
    | nil => simp [file, loaded, proposed] at formatted
    | cons e rest =>
      have kept : e ∈ set.edits := by
        rw [EditSet.acceptedEdits accepted, Ordered.sortByMem, List.mem_filter]
        exact ⟨List.mem_cons_self, by simp [proposeReal proposed e List.mem_cons_self]⟩
      rintro (empty : set.pending = [])
      simp [EditSet.edits, empty] at kept

end Generator

namespace PendingFiles

theorem putPaths {files : PendingFiles} {p : Path} {old set : EditSet} (held : files.get? p = some old) :
    (files.put p set).map Prod.fst = files.map Prod.fst := by
  rw [put, held, if_pos Option.isSome_some, List.map_map]
  refine List.map_congr_left fun f _ => ?_
  simp only [Function.comp_apply]
  split <;> rfl

theorem getMem {files : PendingFiles} (apart : (files.map Prod.fst).Pairwise fun p q => p.same q = false)
    {f : Path × EditSet} (mem : f ∈ files) : files.get? f.1 = some f.2 := by
  unfold get?
  induction files with
  | nil => cases mem
  | cons first rest ih =>
    obtain ⟨others, apart'⟩ := List.pairwise_cons.mp apart
    rw [List.find?_cons]
    rcases List.mem_cons.mp mem with rfl | later
    · simp [Path.same]
    · rw [others f.1 (List.mem_map_of_mem later)]
      exact ih apart' later

end PendingFiles

def Batch.namedIn (batches : List Batch) : List (Path × Span) := batches.flatMap fun b => FileEdits.named b.files

namespace Worksite
open Batch (namedIn)

inductive Worked : Worksite → List Batch → List (Path × Span) → Worksite → Prop where
  | nil (w : Worksite) : Worked w [] [] w
  | cons {w middle next last : Worksite} {b : Batch} {rest : List Batch} {log more : List (Path × Span)}
      {id : Option CommitId} (edited : Edited w b.files log middle) (committed : middle.commit b = (.ok id, next))
      (later : Worked next rest more last) : Worked w (b :: rest) (log ++ more) last

theorem editedPaths {w last : Worksite} {files : List FileEdits} {log : List (Path × Span)}
    (edited : Edited w files log last) : last.pending.map Prod.fst = w.pending.map Prod.fst := by
  induction edited with
  | nil w => rfl
  | cons held _ _ _ ih => exact ih.trans (PendingFiles.putPaths held)

theorem workedPaths {w last : Worksite} {batches : List Batch} {log : List (Path × Span)}
    (worked : Worked w batches log last) : last.pending.map Prod.fst = w.pending.map Prod.fst := by
  induction worked with
  | nil w => rfl
  | @cons w middle next last b rest log more id edited committed later ih =>
    have kept := (commitSame middle b).pending
    rw [committed] at kept
    rw [ih, kept, editedPaths edited]

theorem applyBatchesWorked {w last : Worksite} {batches : List Batch} {records : List BatchRecord}
    (ok : w.applyBatches batches = (.ok records, last)) : Worked w batches (namedIn batches) last := by
  induction batches generalizing w records with
  | nil =>
    cases ok
    exact .nil _
  | cons b rest ih =>
    cases edited : w.applyFiles b.files with
    | mk outcome middle =>
      cases outcome with
      | error cause => simp [applyBatches, applyBatch, edited] at ok
      | panic panic => simp [applyBatches, applyBatch, edited] at ok
      | ok =>
        cases committed : middle.commit b with
        | mk answer next =>
          cases answer with
          | error e => simp [applyBatches, applyBatch, edited, committed] at ok
          | ok id =>
            cases went : next.applyBatches rest with
            | mk others after =>
              simp only [applyBatches, applyBatch, edited, committed, went] at ok
              cases others <;> cases ok
              exact .cons (applyFilesEdited edited) committed (ih went)

end Worksite

namespace Run
open Batch (namedIn)
open FileEdits (named idsOf)
open Worksite (Site Stops Worked)
open EditSet (Fitting)

def generatedEdits (entries : List (Path × Generated)) : List (Path × Span) :=
  entries.flatMap fun entry => entry.2.set.ids.map (entry.1, ·)

theorem namedIds (p : Path) (files : List FileEdits) :
    ((named files).filter (·.1.same p)).map Prod.snd = idsOf p files := by
  induction files with
  | nil => rfl
  | cons f rest ih =>
    rw [Worksite.idsOfCons, ← ih, named, List.flatMap_cons, List.filter_append, List.map_append]
    congr 1
    by_cases here : f.path.same p = true <;> simp [idsOf, here, List.filter_map, Function.comp_def]

theorem namedScheduled (p : Path) (batches : List Batch) :
    ((namedIn batches).filter (·.1.same p)).map Prod.snd = scheduled p batches := by
  induction batches with
  | nil => rfl
  | cons b rest ih =>
    rw [namedIn, List.flatMap_cons, List.filter_append, List.map_append, namedIds]
    exact congrArg _ ih

theorem generatedMem {entries : List (Path × Generated)} {path : Path} {id : Span} :
    (path, id) ∈ generatedEdits entries ↔ ∃ entry ∈ entries, path = entry.1 ∧ id ∈ entry.2.set.ids := by
  simp only [generatedEdits, List.mem_flatMap, List.mem_map, Prod.mk.injEq]
  grind

section Sound
variable {entries : List (Path × Generated)} (sound : Sound entries) (o : CommitSettings)
include sound

theorem namedMem {path : Path} {id : Span} :
    (path, id) ∈ namedIn ((partition entries).batches o) ↔ (path, id) ∈ generatedEdits entries := by
  have written : ∀ p x, (p, x) ∈ namedIn ((partition entries).batches o) → ∃ entry ∈ entries, p = entry.1 := by
    intro p x named
    obtain ⟨b, batch, inside⟩ := List.mem_flatMap.mp named
    obtain ⟨f, file, pair⟩ := List.mem_flatMap.mp inside
    obtain ⟨_, _, same⟩ := List.mem_map.mp pair
    cases same
    exact batchPaths batch file
  rw [generatedMem]
  constructor
  · intro named
    obtain ⟨entry, mem, rfl⟩ := written path id named
    refine ⟨entry, mem, rfl, (scheduledMem sound mem o id).mp ?_⟩
    rw [← namedScheduled]
    exact List.mem_map.mpr ⟨(entry.1, id), List.mem_filter.mpr ⟨named, by simp [Path.same]⟩, rfl⟩
  · rintro ⟨entry, mem, rfl, known⟩
    have planned := (scheduledMem sound mem o id).mpr known
    rw [← namedScheduled] at planned
    obtain ⟨⟨p, _⟩, found, rfl⟩ := List.mem_map.mp planned
    obtain ⟨named, same⟩ := List.mem_filter.mp found
    obtain ⟨other, mem', rfl⟩ := written p _ named
    -- The batch names the file by the path that it was generated for.
    cases entryUnique sound mem' mem (by simpa [Path.same] using same)
    exact named

theorem namedNodup : (namedIn ((partition entries).batches o)).Nodup := by
  refine List.nodup_iff_count_le_one.mpr fun edit => ?_
  calc (namedIn ((partition entries).batches o)).count edit
      = ((namedIn ((partition entries).batches o)).filter (·.1.same edit.1)).count edit :=
        (List.count_filter (by simp [Path.same])).symm
    _ ≤ (scheduled edit.1 ((partition entries).batches o)).count edit.2 := by
        rw [← namedScheduled]
        exact List.count_le_count_map
    _ ≤ 1 := List.nodup_iff_count_le_one.mp (scheduledNodup sound edit.1 o) edit.2

theorem generatedNodup : (generatedEdits entries).Nodup := by
  refine List.nodup_flatMap.mpr ⟨?_, ?_⟩
  · intro entry mem
    exact (sound.distinct entry mem).map fun a b same => (Prod.mk.inj same).2
  · refine sound.apart.imp ?_
    intro a b apart edit left right
    obtain ⟨_, _, rfl⟩ := List.mem_map.mp left
    obtain ⟨_, _, same⟩ := List.mem_map.mp right
    rw [← (Prod.mk.inj same).1] at apart
    simp [Path.same] at apart

theorem namedPerm : (namedIn ((partition entries).batches o)).Perm (generatedEdits entries) :=
  (List.perm_ext_iff_of_nodup (namedNodup sound o) (generatedNodup sound)).mpr fun _ => namedMem sound o

theorem pendingPaths : (pendingFiles entries).map Prod.fst = entries.map Prod.fst := by
  have apart := sound.apart
  clear sound
  induction entries using List.reverseRecOn with
  | nil => rfl
  | append_singleton rest last ih =>
    obtain ⟨early, _, cross⟩ := List.pairwise_append.mp apart
    have paths := ih early
    have absent : (pendingFiles rest).get? last.1 = none := by
      simp only [PendingFiles.get?, Option.map_eq_none_iff, List.find?_eq_none]
      intro f mem
      have listed : f.1 ∈ rest.map Prod.fst := paths ▸ List.mem_map_of_mem mem
      obtain ⟨entry, old, same⟩ := List.mem_map.mp listed
      simp [← same, cross entry old last List.mem_cons_self]
    have step : pendingFiles (rest ++ [last]) = (pendingFiles rest).put last.1 last.2.set := by
      simp only [pendingFiles, List.foldl_append, List.foldl_cons, List.foldl_nil]
    rw [step, PendingFiles.put, absent, if_neg (by simp), List.map_append, paths, List.map_append]
    rfl

end Sound

theorem generatedOutcome {g : Generator} {files : List Path} {entry : Path × Generated}
    (mem : entry ∈ generated (files.map g.file)) : (g.file entry.1).outcome = .formatted entry.2 := by
  obtain ⟨report, found, here⟩ := List.mem_filterMap.mp mem
  obtain ⟨p, _, rfl⟩ := List.mem_map.mp found
  unfold generatedOf at here
  split at here <;> cases here
  rw [Generator.filePath]
  assumption

theorem generatedFitting {g : Generator} {files : List Path} (site : Site g.disk (generated (files.map g.file)))
    {entry : Path × Generated} (mem : entry ∈ generated (files.map g.file)) :
    ∃ pristine, g.disk.read entry.1 = .ok pristine ∧ Fitting pristine entry.2.set := by
  obtain ⟨place, pristine, home⟩ := site.homes entry mem
  obtain ⟨edits, accepted⟩ := home.accepted
  have order := home.ready.inside
  have exact : ∀ e ∈ entry.2.set.edits, e.span.start + e.span.size = e.span.stop ∧ e.span.stop ≤ pristine.length := by
    intro e listed
    have stop := (Edit.inOrderStop order listed).2
    have room := home.ready.room
    simp only [Span.stop, Span.limit, Edit.sizeLimit] at stop room ⊢
    omega
  refine ⟨pristine, Disk.readIff.mpr ⟨place, home.located, home.file⟩, ?_⟩
  exact {
    full := Generator.formattedFull (generatedOutcome mem)
    named := home.ready.named
    real := fun e listed => (EditSet.acceptedReal accepted listed).2
    inside := fun e listed => (exact e listed).1 ▸ (exact e listed).2
    apart := by
      refine ((EditSet.acceptedAscending accepted).and (Edit.inOrderPairwise order)).imp_of_mem ?_
      rintro a b left _ ⟨less, before⟩
      exact ⟨less, (exact a left).1 ▸ before⟩ }

theorem workedEmpty {disk : Disk} {entries : List (Path × Generated)} {o : CommitSettings} {w after : Worksite}
    {log : List (Path × Span)} (site : Site disk entries) (sound : Sound entries)
    (start : w.pending = pendingFiles entries) (worked : Worked w ((partition entries).batches o) log after)
    (state : Worksite.Underway disk entries (scheduled · ((partition entries).batches o)) after) :
    ∀ f ∈ after.pending, f.2.pending = [] := by
  intro f mem
  have paths : after.pending.map Prod.fst = entries.map Prod.fst := by
    rw [Worksite.workedPaths worked, start, pendingPaths sound]
  have apart : (after.pending.map Prod.fst).Pairwise fun p q => p.same q = false := by
    rw [paths]
    exact List.pairwise_map.mpr sound.apart
  have listed : f.1 ∈ entries.map Prod.fst := paths ▸ List.mem_map_of_mem mem
  obtain ⟨entry, known, same⟩ := List.mem_map.mp listed
  obtain ⟨place, pristine, home⟩ := site.homes entry known
  obtain ⟨bytes, now, _, held, reached⟩ := state.files entry known place pristine home
  rw [same, PendingFiles.getMem apart mem] at held
  cases held
  exact (EditSet.reachedAll reached fun id => (scheduledMem sound known o id).mpr).1

theorem applyOnce {disk : Disk} {entries : List (Path × Generated)} {w : Worksite} (site : Site disk entries)
    (sound : Sound entries) (here : w.disk = disk) (start : w.pending = pendingFiles entries) (o : CommitSettings) :
    (∃ k part, Stops disk ((partition entries).batches o) k part (w.apply (partition entries) o).1) ∧
    ∀ applied, (w.apply (partition entries) o).1 = .ok applied →
      (∀ f ∈ (w.apply (partition entries) o).2.pending, f.2.pending = []) ∧
      Worked w ((partition entries).batches o) (namedIn ((partition entries).batches o))
        (w.apply (partition entries) o).2 := by
  have plan : Worksite.Plan entries ([] ++ (partition entries).batches o) := batchesPlan sound o
  obtain ⟨k, part, stopped⟩ := Worksite.applyBatchesStopped site plan (startUnderway sound here start)
  refine ⟨⟨k, part, Worksite.stopsMap _ stopped.stops⟩, ?_⟩
  intro applied ok
  cases went : w.applyBatches ((partition entries).batches o) with
  | mk outcome last =>
    rw [went] at stopped
    simp only [Worksite.apply, went] at ok ⊢
    cases outcome <;> cases ok
    have worked := Worksite.applyBatchesWorked went
    obtain ⟨_, ⟨_⟩, state, _⟩ := stopped
    rw [List.take_length, List.append_nil, List.nil_append] at state
    exact ⟨workedEmpty site sound start worked state, worked⟩

theorem runApplied {disk : Disk} {repository : Option Git.Repository} {formatter : Formatter} {files : List Path}
    {o : RunOptions} (mode : o.mode ≠ .dryRun)
    (complete : ∀ report ∈ (run disk repository formatter files o).reports, report.panic? = none)
    {answer : Outcome ApplyError ApplySummary × Worksite}
    (went : (worksite disk repository o (generated (run disk repository formatter files o).reports)).apply
      (partition (generated (run disk repository formatter files o).reports)) o.commit = answer) :
    (run disk repository formatter files o).disk = answer.2.disk ∧
    ∃ summed, (run disk repository formatter files o).outcome = answer.1.map summed := by
  rw [runReports] at complete went
  have ordered : (files.map (generator disk repository formatter o).file).findSome? FileReport.panic? = none :=
    List.findSome?_eq_none_iff.mpr complete
  have ended := @finishApplied disk repository (baseline repository).1 o _
    ((baseline repository).2 ++ (files.map (generator disk repository formatter o).file).flatMap FileReport.warnings)
    ordered mode answer went
  change run disk repository formatter files o = _ at ended
  rw [ended]
  exact ⟨rfl, _, rfl⟩

example : (run { nodes := [(["f"], .file [97, 10])], refusals := [(["f"], .accessDenied)] } none
    ⟨fun _ => .ok [.ofNats 1 0 [98]]⟩ [⟨"f"⟩] { mode := .noCommit, generate := { maxBytes := 100 }, commit := {} }).outcome =
      .error ⟨"unattributed edits", [], .cannotOpen ⟨"f"⟩ .accessDenied⟩ := by
  decide +kernel

-- Two files outside any repository, one with two edits that touch.
def plainDisk : Disk := { nodes := [(["f"], .file [97, 99, 100]), (["g"], .file [97, 10])] }

def plainFormatter : Formatter :=
  ⟨fun p => .ok (if p.text = "f" then [.ofNats 1 1 [99, 120], .ofNats 0 1 [97, 98]] else [.ofNats 1 0 [98]])⟩

def plainOptions : RunOptions where
  mode := .noCommit
  generate := { maxBytes := 100 }
  commit := {}

def plainRun : RunResult := run plainDisk none plainFormatter [⟨"f"⟩, ⟨"g"⟩] plainOptions

theorem plainReports : plainRun.reports = [
    ⟨⟨"f"⟩, .formatted ⟨⟨[⟨⟨1, 0⟩, .ofNats 1 0 [98]⟩, ⟨⟨2, 0⟩, .ofNats 2 0 [120]⟩]⟩, .unattributed .noBaseline⟩, true, none, []⟩,
    ⟨⟨"g"⟩, .formatted ⟨⟨[⟨⟨1, 0⟩, .ofNats 1 0 [98]⟩]⟩, .unattributed .noBaseline⟩, true, none, []⟩] := by
  decide +kernel

end Run
end KeepBlame
